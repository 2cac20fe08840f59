import FilemanagerHttpd.Audit.BufferBytes
import FilemanagerHttpd.Server.MemBlock

/-!
# Buffers and their blocks

A buffer is a list of bytes: behind them the block has one more byte, a zero. Each operation
keeps it so except `mb_setStrEnd`, which counts the zero as a byte of the data and has no room
for another one.
-/

namespace FilemanagerHttpd.Audit

open Library Server

/-- A block that holds the bytes of a list. -/
structure BlockHolds (mb : MemBlock) (content : Bytes) : Prop where
  allocated : mb.block.length = mb.dataLen + 1
  terminated : mb.block[mb.dataLen]? = some nul
  content : mb.block.take mb.dataLen = content

/-- How a buffer is made. -/
inductive BufStart
  | new
  | withStr (str : Bytes)

/-- The operations on a buffer. Where one of them allocates, the new bytes hold `junk`. -/
inductive BufOp
  | appendData (data : Bytes) (junk : Nat → Byte)
  | appendStr (str : Bytes) (junk : Nat → Byte)
  | appendChunk (dch : DataChunk) (junk : Nat → Byte)
  | ensureEndsWithSlash (junk : Nat → Byte)
  | resize (newSize : Nat) (junk : Nat → Byte)
  | setData (offset : Nat) (data : Bytes)
  | setStrEnd (offset : Nat) (str : Bytes) (junk : Nat → Byte)
  | fillWithZeros (offset len : Nat)
  | readFile (bufOffset toRead : Nat) (got : Bytes)

def BufStart.block : BufStart → Except Fault MemBlock
  | .new => .ok blockNew
  | .withStr str => blockNewWithStr str

def BufOp.block (mb : MemBlock) : BufOp → Except Fault MemBlock
  | .appendData data junk => blockAppendData mb data junk
  | .appendStr str junk => blockAppendStr mb str junk
  | .appendChunk dch junk => blockAppendChunk mb dch junk
  | .ensureEndsWithSlash junk => blockEnsureEndsWithSlash mb junk
  | .resize newSize junk => blockResize mb newSize junk
  | .setData offset data => blockSetData mb offset data
  | .setStrEnd offset str junk => blockSetStrEnd mb offset str junk
  | .fillWithZeros offset len => blockFillWithZeros mb offset len
  | .readFile bufOffset toRead got => blockReadFile mb bufOffset toRead got

def BufStart.bytes : BufStart → Bytes
  | .new => []
  | .withStr str => cstr str

/-- The operations on lists of bytes. -/
def BufOp.bytes (content : Bytes) : BufOp → Bytes
  | .appendData data _ => content ++ data
  | .appendStr str _ => content ++ cstr str
  | .appendChunk dch _ => content ++ dch
  | .ensureEndsWithSlash _ =>
    if content.getLast? = some slash then content else content ++ [slash]
  | .resize newSize junk => (reallocBlock (content ++ [nul]) (newSize + 1) junk).take newSize
  | .setData offset data => overwrite content offset data
  | .setStrEnd offset str _ => content.take offset ++ cstr str
  | .fillWithZeros offset len => overwrite content offset (List.replicate len nul)
  | .readFile bufOffset _ got => overwrite content bufOffset got

/-- What the callers see to, for a buffer of the given length. -/
def BufOp.InBounds (length : Nat) : BufOp → Prop
  | .appendData data _ => data.length < uintSize
  | .appendChunk dch _ => dch.length < uintSize
  | .resize newSize _ => newSize < uintSize
  | .setData offset data => offset + data.length ≤ length
  | .setStrEnd offset _ _ => offset ≤ length
  | .fillWithZeros offset len => offset + len ≤ length
  | .readFile bufOffset toRead got => bufOffset + toRead ≤ length ∧ got.length ≤ toRead
  | .appendStr _ _ | .ensureEndsWithSlash _ => True

def bytesRun (start : BufStart) (ops : List BufOp) : Bytes := ops.foldl BufOp.bytes start.bytes

def blockRun (start : BufStart) (ops : List BufOp) : Except Fault MemBlock := do
  ops.foldlM BufOp.block (← start.block)

/-- A buffer with the operations on it. -/
structure BufRun where
  start : BufStart
  ops : List BufOp
  inBounds : ∀ (before : List BufOp) (op : BufOp), before ++ [op] <+: ops →
    op.InBounds (bytesRun start before).length

section Blocks

variable {mb : MemBlock} {content : Bytes}

theorem blockHolds_iff :
    BlockHolds mb content ↔ mb.block = content ++ [nul] ∧ mb.dataLen = content.length := by
  constructor
  · intro h
    have hlen : mb.dataLen = content.length := by
      rw [← h.content, List.length_take, h.allocated]
      omega
    refine ⟨?_, hlen⟩
    rw [← List.take_append_drop mb.dataLen mb.block, h.content]
    obtain ⟨hlt, hget⟩ := List.getElem?_eq_some_iff.mp h.terminated
    rw [List.drop_eq_getElem_cons hlt, hget, List.drop_eq_nil_of_le (by rw [h.allocated])]
  · rintro ⟨hblock, hlen⟩
    constructor
    · rw [hblock, hlen, List.length_append, List.length_singleton]
    · rw [hblock, hlen, List.getElem?_concat_length]
    · rw [hblock, hlen, List.take_left]

@[simp] theorem reallocBlock_length (block : Bytes) (size : Nat) (junk : Nat → Byte) :
    (reallocBlock block size junk).length = size := by
  rw [reallocBlock, List.length_append, List.length_take, List.length_map, List.length_range]
  omega

theorem reallocBlock_longer {block : Bytes} {size : Nat} (h : block.length ≤ size)
    (junk : Nat → Byte) : ∃ more, more.length = size - block.length ∧
      reallocBlock block size junk = block ++ more := by
  refine ⟨(List.range (size - block.length)).map junk, ?_, ?_⟩
  · rw [List.length_map, List.length_range]
  · rw [reallocBlock, List.take_of_length_le h]

theorem overwrite_append (front back data : Bytes) :
    overwrite (front ++ back) front.length data = front ++ data ++ back.drop data.length := by
  rw [overwrite, List.take_left, List.drop_append]
  simp

/-- Bytes behind what is overwritten are kept. -/
theorem overwrite_front {front data : Bytes} {offset : Nat} (back : Bytes)
    (h : offset + data.length ≤ front.length) :
    overwrite (front ++ back) offset data = overwrite front offset data ++ back := by
  rw [overwrite, overwrite, List.take_append_of_le_length (by omega),
    List.drop_append_of_le_length h, List.append_assoc, List.append_assoc, List.append_assoc]

theorem storeAt_ok {block block' : Bytes} {offset : Nat} {data : Bytes}
    (h : storeAt block offset data = .ok block') :
    offset + data.length ≤ block.length ∧ block' = overwrite block offset data := by
  rw [storeAt] at h
  split at h
  · rename_i hfits
    exact ⟨hfits, (Except.ok.inj h).symm⟩
  · cases h

theorem storeAt_length {block block' : Bytes} {offset : Nat} {data : Bytes}
    (h : storeAt block offset data = .ok block') : block'.length = block.length := by
  obtain ⟨hfits, rfl⟩ := storeAt_ok h
  exact length_overwrite hfits

theorem blockHolds_append (h : BlockHolds mb content) {data : Bytes}
    (hfits : content.length + data.length + 1 < uintSize) (junk : Nat → Byte) :
    ∃ mb', blockAppendData mb data junk = .ok mb' ∧ BlockHolds mb' (content ++ data) := by
  obtain ⟨hblock, hlen⟩ := blockHolds_iff.mp h
  have hsize : appendSize mb.dataLen data.length = content.length + data.length + 1 := by
    rw [appendSize, hlen, Nat.mod_eq_of_lt hfits]
  have hdata : (mb.dataLen + data.length) % uintSize = (content ++ data).length := by
    rw [hlen, List.length_append, Nat.mod_eq_of_lt (by omega)]
  have hlonger : mb.block.length ≤ content.length + data.length + 1 := by
    rw [hblock, List.length_append, List.length_singleton]
    omega
  obtain ⟨more, hmore, hrealloc⟩ := reallocBlock_longer hlonger junk
  rw [hblock, List.length_append, List.length_singleton] at hmore
  -- the data goes over the zero, and a new zero behind it
  have hfirst : storeAt (content ++ ([nul] ++ more)) content.length data =
      .ok (content ++ data ++ ([nul] ++ more).drop data.length) := by
    rw [storeAt, if_pos, overwrite_append]
    simp only [List.length_append, List.length_singleton]
    omega
  have hsecond : storeAt (content ++ data ++ ([nul] ++ more).drop data.length)
      (content ++ data).length [nul] = .ok (content ++ data ++ [nul]) := by
    have hback : (([nul] ++ more).drop data.length).drop [nul].length = [] := by
      rw [List.drop_drop, List.drop_eq_nil_of_le]
      simp only [List.length_append, List.length_singleton]
      omega
    rw [storeAt, if_pos, overwrite_append, hback, List.append_nil]
    simp only [List.length_append, List.length_drop, List.length_singleton]
    omega
  refine ⟨⟨content ++ data ++ [nul], (content ++ data).length⟩, ?_, blockHolds_iff.mpr ⟨rfl, rfl⟩⟩
  rw [blockAppendData, hsize, hrealloc, hdata, hlen, hblock, List.append_assoc, hfirst]
  simp only [bind, Except.bind, hsecond]
  rfl

theorem blockHolds_resize (h : BlockHolds mb content) {newSize : Nat}
    (hfits : newSize + 1 < uintSize) (junk : Nat → Byte) :
    ∃ mb', blockResize mb newSize junk = .ok mb' ∧
      BlockHolds mb' ((reallocBlock (content ++ [nul]) (newSize + 1) junk).take newSize) := by
  obtain ⟨hblock, -⟩ := blockHolds_iff.mp h
  have hlength := reallocBlock_length (content ++ [nul]) (newSize + 1) junk
  rw [blockResize, hblock, Nat.mod_eq_of_lt hfits]
  generalize reallocBlock (content ++ [nul]) (newSize + 1) junk = block at hlength ⊢
  have hstore : storeAt block newSize [nul] = .ok (block.take newSize ++ [nul]) := by
    rw [storeAt, if_pos (by rw [hlength, List.length_singleton]), overwrite, List.length_singleton,
      List.drop_eq_nil_of_le (by omega), List.append_nil]
  refine ⟨⟨block.take newSize ++ [nul], newSize⟩, ?_, blockHolds_iff.mpr ⟨rfl, ?_⟩⟩
  · rw [hstore]
    rfl
  · show newSize = _
    rw [List.length_take, hlength]
    omega

/-- What the operations do that write over bytes of the buffer. -/
theorem blockHolds_store (h : BlockHolds mb content) {offset : Nat} {data : Bytes}
    (hbound : offset + data.length ≤ content.length) :
    ∃ block, storeAt mb.block offset data = .ok block ∧
      BlockHolds { mb with block } (overwrite content offset data) := by
  obtain ⟨hblock, hlen⟩ := blockHolds_iff.mp h
  refine ⟨overwrite content offset data ++ [nul], ?_, blockHolds_iff.mpr ⟨rfl, ?_⟩⟩
  · rw [storeAt, hblock, if_pos, overwrite_front _ hbound]
    rw [List.length_append]
    omega
  · rw [length_overwrite hbound]
    exact hlen

/-- The zero behind the string is the last byte of the block, and of the data. -/
theorem blockSetStrEnd_length {mb mb' : MemBlock} {offset : Nat} {str : Bytes}
    {junk : Nat → Byte} (h : blockSetStrEnd mb offset str junk = .ok mb') :
    mb'.block.length = mb'.dataLen := by
  rw [blockSetStrEnd] at h
  split at h
  · cases h
  · obtain ⟨block, hstore, hdone⟩ := bind_ok h
    rw [← Except.ok.inj hdone]
    show block.length = _
    rw [storeAt_length hstore, reallocBlock_length]

theorem blockSetStrEnd_not_holds {mb mb' : MemBlock} {offset : Nat} {str : Bytes}
    {junk : Nat → Byte} (h : blockSetStrEnd mb offset str junk = .ok mb') (content : Bytes) :
    ¬ BlockHolds mb' content := by
  intro hrep
  have hlen := blockSetStrEnd_length h
  rw [hrep.allocated] at hlen
  omega

end Blocks

section Runs

def BufOp.IsSetStrEnd : BufOp → Prop
  | .setStrEnd .. => True
  | _ => False

/-- The string that a buffer is made with fits an `int`. -/
def BufStart.Fits : BufStart → Prop
  | .new => True
  | .withStr str => (cstr str).length + 1 < 2 ^ 31

/-- The runs without `mb_setStrEnd` whose bytes always fit into a block. -/
structure BufRun.Fits (r : BufRun) : Prop where
  start : r.start.Fits
  noSetStrEnd : ∀ op ∈ r.ops, ¬ op.IsSetStrEnd
  sizes : ∀ before, before <+: r.ops → (bytesRun r.start before).length + 1 < uintSize

/-- One operation. -/
theorem blockHolds_op {mb : MemBlock} {content : Bytes} {op : BufOp} (h : BlockHolds mb content)
    (hbounds : op.InBounds content.length) (hop : ¬ op.IsSetStrEnd)
    (hsize : content.length + 1 < uintSize) (hfits : (op.bytes content).length + 1 < uintSize) :
    ∃ mb', op.block mb = .ok mb' ∧ BlockHolds mb' (op.bytes content) := by
  obtain ⟨hblock, hlen⟩ := blockHolds_iff.mp h
  cases op with
  | appendData data junk =>
    exact blockHolds_append h (by simpa [BufOp.bytes] using hfits) junk
  | appendStr str junk =>
    have hstr : (content ++ cstr str).length + 1 < uintSize := hfits
    rw [List.length_append] at hstr
    have htake : (cstr str).take ((cstr str).length % uintSize) = cstr str := by
      rw [Nat.mod_eq_of_lt (by omega), List.take_length]
    show ∃ mb', blockAppendData mb ((cstr str).take ((cstr str).length % uintSize)) junk = .ok mb' ∧
      BlockHolds mb' (content ++ cstr str)
    rw [htake]
    exact blockHolds_append h hstr junk
  | appendChunk dch junk =>
    exact blockHolds_append h (by simpa [BufOp.bytes] using hfits) junk
  | ensureEndsWithSlash junk =>
    have hlast : (mb.dataLen = 0 ∨ mb.block[mb.dataLen - 1]? ≠ some slash) ↔
        content.getLast? ≠ some slash := by
      rw [hblock, hlen, List.getLast?_eq_getElem?]
      by_cases hnil : content.length = 0
      · rw [List.eq_nil_of_length_eq_zero hnil]
        simp
      · rw [or_iff_right hnil, List.getElem?_append_left (by omega)]
    simp only [BufOp.block, BufOp.bytes, blockEnsureEndsWithSlash] at hfits ⊢
    by_cases hslash : content.getLast? = some slash
    · rw [if_neg (not_not.mpr hslash ∘ hlast.mp), if_pos hslash]
      exact ⟨mb, rfl, h⟩
    · rw [if_neg hslash] at hfits
      rw [if_pos (hlast.mpr hslash), if_neg hslash]
      exact blockHolds_append h (by rwa [List.length_append] at hfits) junk
  | resize newSize junk =>
    have hsize' : newSize + 1 < uintSize := by
      simpa [BufOp.bytes] using hfits
    exact blockHolds_resize h hsize' junk
  | setData offset data =>
    have hbound : offset + data.length ≤ content.length := hbounds
    obtain ⟨block, hstore, hrep⟩ := blockHolds_store h hbound
    refine ⟨{ mb with block }, ?_, hrep⟩
    simp only [BufOp.block, blockSetData]
    rw [Nat.mod_eq_of_lt (by omega), if_neg (by omega), hstore]
    rfl
  | setStrEnd offset str junk => exact absurd trivial hop
  | fillWithZeros offset len =>
    have hbound : offset + (List.replicate len nul).length ≤ content.length := by
      rw [List.length_replicate]
      exact hbounds
    obtain ⟨block, hstore, hrep⟩ := blockHolds_store h hbound
    rw [List.length_replicate] at hbound
    refine ⟨{ mb with block }, ?_, hrep⟩
    simp only [BufOp.block, blockFillWithZeros]
    rw [Nat.mod_eq_of_lt (by omega), if_neg (by omega), hstore]
    rfl
  | readFile bufOffset toRead got =>
    obtain ⟨hbound, hgot⟩ : bufOffset + toRead ≤ content.length ∧ got.length ≤ toRead := hbounds
    have hstored : bufOffset + got.length ≤ content.length := by omega
    obtain ⟨block, hstore, hrep⟩ := blockHolds_store h hstored
    refine ⟨{ mb with block }, ?_, hrep⟩
    simp only [BufOp.block, blockReadFile]
    rw [Nat.mod_eq_of_lt (by omega), if_neg (by omega), hstore]
    rfl

/-- No operation makes a block of 4 GiB. -/
theorem block_length_lt {mb mb' : MemBlock} {op : BufOp} (h : op.block mb = .ok mb')
    (hmb : mb.block.length < uintSize) : mb'.block.length < uintSize := by
  have hpos : 0 < uintSize := by decide
  have happend : ∀ data junk, blockAppendData mb data junk = .ok mb' →
      mb'.block.length < uintSize := by
    intro data junk h
    obtain ⟨first, hfirst, h⟩ := bind_ok h
    obtain ⟨second, hsecond, h⟩ := bind_ok h
    rw [← Except.ok.inj h]
    show second.length < uintSize
    rw [storeAt_length hsecond, storeAt_length hfirst, reallocBlock_length]
    exact Nat.mod_lt _ hpos
  have hstore : ∀ offset data, (storeAt mb.block offset data >>= fun block =>
      pure { mb with block }) = .ok mb' → mb'.block.length < uintSize := by
    intro offset data h
    obtain ⟨block, hblock, h⟩ := bind_ok h
    rw [← Except.ok.inj h]
    show block.length < uintSize
    rwa [storeAt_length hblock]
  cases op with
  | appendData data junk => exact happend _ _ h
  | appendStr str junk => exact happend _ _ h
  | appendChunk dch junk => exact happend _ _ h
  | ensureEndsWithSlash junk =>
    simp only [BufOp.block, blockEnsureEndsWithSlash] at h
    split at h
    · exact happend _ _ h
    · rwa [← Except.ok.inj h]
  | resize newSize junk =>
    obtain ⟨block, hblock, h⟩ := bind_ok h
    rw [← Except.ok.inj h]
    show block.length < uintSize
    rw [storeAt_length hblock, reallocBlock_length]
    exact Nat.mod_lt _ hpos
  | setData offset data =>
    simp only [BufOp.block, blockSetData] at h
    split at h
    · cases h
    · exact hstore _ _ h
  | setStrEnd offset str junk =>
    simp only [BufOp.block, blockSetStrEnd] at h
    split at h
    · cases h
    · obtain ⟨block, hblock, h⟩ := bind_ok h
      rw [← Except.ok.inj h]
      show block.length < uintSize
      rw [storeAt_length hblock, reallocBlock_length]
      exact Nat.mod_lt _ hpos
  | fillWithZeros offset len =>
    simp only [BufOp.block, blockFillWithZeros] at h
    split at h
    · cases h
    · exact hstore _ _ h
  | readFile bufOffset toRead got =>
    simp only [BufOp.block, blockReadFile] at h
    split at h
    · cases h
    · exact hstore _ _ h

theorem blockRun_concat (start : BufStart) (ops : List BufOp) (op : BufOp) :
    blockRun start (ops ++ [op]) = blockRun start ops >>= fun mb => op.block mb := by
  simp only [blockRun, List.foldlM_append, List.foldlM_cons, List.foldlM_nil, bind_assoc, bind_pure]

theorem bytesRun_concat (start : BufStart) (ops : List BufOp) (op : BufOp) :
    bytesRun start (ops ++ [op]) = op.bytes (bytesRun start ops) := by
  simp only [bytesRun, List.foldl_append]
  rfl

theorem start_holds {start : BufStart} (h : start.Fits) :
    ∃ mb, blockRun start [] = .ok mb ∧ BlockHolds mb (bytesRun start []) := by
  cases start with
  | new => exact ⟨blockNew, rfl, by decide, by decide, by decide⟩
  | withStr str =>
    have hstr : blockNewWithStr str = .ok ⟨cstr str ++ [nul], (cstr str).length⟩ := if_pos h
    refine ⟨⟨cstr str ++ [nul], (cstr str).length⟩, ?_, blockHolds_iff.mpr ⟨rfl, rfl⟩⟩
    simp only [blockRun, BufStart.block, hstr]
    rfl

theorem blockRun_length_lt {start : BufStart} {ops : List BufOp} {mb : MemBlock}
    (h : blockRun start ops = .ok mb) : mb.block.length < uintSize := by
  induction ops using List.reverseRecOn generalizing mb with
  | nil =>
    cases start with
    | new =>
      rw [← Except.ok.inj h]
      decide
    | withStr str =>
      obtain ⟨mb', hstr, h⟩ := bind_ok h
      rw [← Except.ok.inj h]
      simp only [BufStart.block, blockNewWithStr] at hstr
      split at hstr
      · rw [← Except.ok.inj hstr, List.length_append, List.length_singleton]
        have hlimit : 2 ^ 31 < uintSize := by decide
        omega
      · cases hstr
  | append_singleton ops op ih =>
    rw [blockRun_concat] at h
    obtain ⟨mb', hmb', hop⟩ := bind_ok h
    exact block_length_lt hop (ih hmb')

end Runs

/-- The block of a buffer is in step with its bytes in every state of a run if and only if
nothing in the run is `mb_setStrEnd`, and the bytes always fit. -/
theorem buffers_kept_iff (r : BufRun) :
    (∀ before, before <+: r.ops →
      ∃ mb, blockRun r.start before = .ok mb ∧ BlockHolds mb (bytesRun r.start before)) ↔
        r.Fits := by
  constructor
  · intro h
    constructor
    · obtain ⟨mb, hmb, -⟩ := h [] List.nil_prefix
      cases hstart : r.start with
      | new => trivial
      | withStr str =>
        rw [hstart] at hmb
        obtain ⟨mb', hstr, -⟩ := bind_ok hmb
        simp only [BufStart.block, blockNewWithStr] at hstr
        split at hstr
        · assumption
        · cases hstr
    · intro op hop hset
      obtain ⟨before, behind, hops⟩ := List.append_of_mem hop
      have hbegin : before ++ [op] <+: r.ops := ⟨behind, by rw [hops]; simp⟩
      obtain ⟨mb, hmb, hrep⟩ := h _ hbegin
      rw [blockRun_concat] at hmb
      obtain ⟨mb', -, hstep⟩ := bind_ok hmb
      cases op with
      | setStrEnd offset str junk => exact blockSetStrEnd_not_holds hstep _ hrep
      | _ => exact hset
    · intro before hbefore
      obtain ⟨mb, hmb, hrep⟩ := h before hbefore
      have hlt := blockRun_length_lt hmb
      rwa [(blockHolds_iff.mp hrep).1, List.length_append, List.length_singleton] at hlt
  · intro h before hbefore
    induction before using List.reverseRecOn with
    | nil => exact start_holds h.start
    | append_singleton before op ih =>
      have hbegin : before <+: r.ops := (List.prefix_append before [op]).trans hbefore
      obtain ⟨mb, hmb, hrep⟩ := ih hbegin
      have hop : op ∈ r.ops := hbefore.subset (List.mem_append_right _ List.mem_cons_self)
      have hfits := h.sizes _ hbefore
      rw [bytesRun_concat] at hfits
      obtain ⟨mb', hstep, hrep'⟩ := blockHolds_op hrep (r.inBounds before op hbefore)
        (h.noSetStrEnd op hop) (h.sizes before hbegin) hfits
      refine ⟨mb', ?_, by rwa [bytesRun_concat]⟩
      rw [blockRun_concat, hmb]
      exact hstep

/-- A string set at the start of an empty buffer, and a byte appended. -/
def setStrEndRun : BufRun where
  start := .new
  ops := [.setStrEnd 0 (ascii "ab") fun _ => nul, .appendData (ascii "c") fun _ => nul]
  inBounds := by
    rintro before op ⟨behind, h⟩
    match before with
    | [] =>
      have hop := (List.cons.inj h).1
      subst hop
      exact Nat.le_refl 0
    | [first] =>
      have hop := (List.cons.inj (List.cons.inj h).2).1
      subst hop
      show (ascii "c").length < uintSize
      decide
    | _ :: _ :: rest => simp at h

/-- The zero stands between the string and what is appended. -/
theorem setStrEnd_counts_zero :
    blockRun setStrEndRun.start setStrEndRun.ops =
      .ok ⟨ascii "ab" ++ [nul] ++ ascii "c" ++ [nul], 4⟩ ∧
    bytesRun setStrEndRun.start setStrEndRun.ops = ascii "abc" ∧
    ¬ ∀ before, before <+: setStrEndRun.ops → ∃ mb, blockRun setStrEndRun.start before = .ok mb ∧
      BlockHolds mb (bytesRun setStrEndRun.start before) := by
  have hrun : blockRun .new
      [.setStrEnd 0 (ascii "ab") fun _ => nul, .appendData (ascii "c") fun _ => nul] =
        .ok ⟨ascii "ab" ++ [nul] ++ ascii "c" ++ [nul], 4⟩ := by
    decide +kernel
  refine ⟨hrun, by decide +kernel, fun h => ?_⟩
  obtain ⟨mb, hmb, hrep⟩ := h _ (List.prefix_refl _)
  rw [Except.ok.inj (hmb.symm.trans hrun)] at hrep
  exact absurd hrep.content (by decide +kernel)

end FilemanagerHttpd.Audit
