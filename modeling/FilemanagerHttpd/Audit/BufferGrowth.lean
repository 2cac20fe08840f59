import FilemanagerHttpd.Audit.BufferBlocks
import FilemanagerHttpd.Audit.HeaderCuts
import FilemanagerHttpd.Audit.UrlConfinement

/-!
# The sizes of growing buffers

A line of a header and a buffer grow by a `realloc` whose size is an `unsigned`. It is the size
that the data and the zero behind them take as long as they are less than 4 GiB, and no longer.
-/

namespace FilemanagerHttpd.Audit

open Library Server

/-- The size that is given to `realloc` is what the data and a zero behind it take: there are
`g.1` bytes, and `g.2` are added. -/
def SizeExact (g : Nat × Nat) : Prop := appendSize g.1 g.2 = g.1 + g.2 + 1

theorem sizeExact_iff {g : Nat × Nat} : SizeExact g ↔ g.1 + g.2 + 1 < uintSize := by
  rw [SizeExact, appendSize]
  constructor
  · intro h
    rw [← h]
    exact Nat.mod_lt _ (by decide)
  · exact Nat.mod_eq_of_lt

/-- A line grows without a fault exactly when the size is right. -/
theorem extendLine_ok_iff {line piece : Bytes} :
    (∃ line', extendLine line piece = .ok line') ↔
      SizeExact ((counted line).length, piece.length) := by
  rw [sizeExact_iff, extendLine, cstr_eq_counted]
  constructor
  · rintro ⟨line', h⟩
    split at h
    · assumption
    · cases h
  · intro h
    exact ⟨_, if_pos h⟩

/-- So does a buffer. -/
theorem blockAppendData_ok_iff {mb : MemBlock} {data : Bytes} (junk : Nat → Byte) :
    (∃ mb', blockAppendData mb data junk = .ok mb') ↔ SizeExact (mb.dataLen, data.length) := by
  rw [sizeExact_iff]
  constructor
  · rintro ⟨mb', h⟩
    obtain ⟨block, hstore, -⟩ := bind_ok h
    obtain ⟨hfits, -⟩ := storeAt_ok hstore
    rw [reallocBlock_length, appendSize] at hfits
    by_contra hlong
    -- the size has wrapped around then, and lies below what is written
    have hwrap :
        (mb.dataLen + data.length + 1) % uintSize ≤ mb.dataLen + data.length + 1 - uintSize := by
      rw [Nat.mod_eq_sub_mod (by omega)]
      exact Nat.mod_le _ _
    have hpos : 1 < uintSize := by decide
    omega
  · intro h
    have hsize : appendSize mb.dataLen data.length = mb.dataLen + data.length + 1 :=
      Nat.mod_eq_of_lt h
    have hlen : (mb.dataLen + data.length) % uintSize = mb.dataLen + data.length :=
      Nat.mod_eq_of_lt (Nat.lt_of_succ_lt h)
    have hfirst : storeAt (reallocBlock mb.block (mb.dataLen + data.length + 1) junk) mb.dataLen
        data = .ok (overwrite (reallocBlock mb.block (mb.dataLen + data.length + 1) junk)
          mb.dataLen data) := by
      rw [storeAt, if_pos]
      rw [reallocBlock_length]
      omega
    have hstored := storeAt_length hfirst
    rw [reallocBlock_length] at hstored
    refine ⟨⟨overwrite (overwrite (reallocBlock mb.block (mb.dataLen + data.length + 1) junk)
      mb.dataLen data) (mb.dataLen + data.length) [nul], mb.dataLen + data.length⟩, ?_⟩
    rw [blockAppendData, hsize, hlen, hfirst]
    simp only [bind, Except.bind]
    rw [storeAt, if_pos]
    · rfl
    · rw [hstored, List.length_singleton]

/-- A header without a path has no other line than the request line. -/
def RequestLineFirst (req : RequestHeader) : Prop := req.path = none → req.current = []

theorem decodeRequestStartLine_current (req : RequestHeader) :
    (decodeRequestStartLine req).current = req.current := by
  rw [decodeRequestStartLine]
  split
  · rfl
  · split <;> rfl

theorem decodeRequestStartLine_path_some (req : RequestHeader) :
    ∃ path, (decodeRequestStartLine req).path = some path := by
  rw [decodeRequestStartLine]
  split
  · exact ⟨_, rfl⟩
  · split <;> exact ⟨_, rfl⟩

theorem reqhdrAddLine_fresh {cfg : Config} {req req' : RequestHeader} {line : Bytes}
    (h : reqhdrAddLine cfg req line = .ok req') : req'.current = [] := by
  rw [reqhdrAddLine] at h
  split at h
  · rw [← Except.ok.inj h]
  · obtain ⟨req₁, -, h⟩ := bind_ok h
    split at h
    · rw [← Except.ok.inj h]
    · cases h

theorem reqhdr_setLine_first {cfg : Config} (req : RequestHeader) (l : Bytes)
    (h : RequestLineFirst req) : RequestLineFirst ((reqhdrReader cfg).setLine req l) := by
  obtain ⟨request, path, query, version, headers, current, loginState⟩ := req
  cases path with
  | none => exact fun _ => h rfl
  | some path =>
    intro hpath
    cases hpath

/-- Behind the request line, the line that grows is a header line. -/
theorem reqhdr_line_header {cfg : Config} {req : RequestHeader} {path : Bytes}
    (h : req.path = some path) : (reqhdrReader cfg).line req = req.current := by
  obtain ⟨request, path, query, version, headers, current, loginState⟩ := req
  cases h
  rfl

/-- Behind a complete line that is not the last the next line is empty. -/
theorem reqhdr_complete_first {cfg : Config} (req req' : RequestHeader) (h : RequestLineFirst req)
    (hcomplete : (reqhdrReader cfg).complete req = .ok (req', false)) :
    RequestLineFirst req' ∧ counted ((reqhdrReader cfg).line req') = [] := by
  obtain ⟨request, path, query, version, headers, current, loginState⟩ := req
  cases path with
  | none =>
    obtain rfl : current = [] := h rfl
    have hdone := (Prod.mk.inj (Except.ok.inj hcomplete)).1
    by_cases hempty : cstr (stripCr request) = []
    · rw [if_pos hempty] at hdone
      rw [← hdone]
      exact ⟨fun _ => rfl, hempty⟩
    · rw [if_neg hempty] at hdone
      have hcurrent : req'.current = [] := by
        rw [← hdone, decodeRequestStartLine_current]
      obtain ⟨path, hpath⟩ := decodeRequestStartLine_path_some
        ⟨stripCr request, none, query, version, headers, [], loginState⟩
      rw [hdone] at hpath
      refine ⟨fun _ => hcurrent, ?_⟩
      rw [reqhdr_line_header hpath, hcurrent]
      rfl
  | some path =>
    change (if cstr (stripCr current) = [] then _ else _) = _ at hcomplete
    split at hcomplete
    · cases (Prod.mk.inj (Except.ok.inj hcomplete)).2
    · cases hadd : reqhdrAddLine cfg
          ⟨request, some path, query, version, headers, current, loginState⟩ (stripCr current) with
      | error e => rw [hadd] at hcomplete; cases hcomplete
      | ok req₁ =>
        rw [hadd] at hcomplete
        obtain rfl : req₁ = req' := (Prod.mk.inj (Except.ok.inj hcomplete)).1
        have hcurrent := reqhdrAddLine_fresh hadd
        have hpath : req₁.path = some path := reqhdrAddLine_path hadd
        refine ⟨fun _ => hcurrent, ?_⟩
        rw [reqhdr_line_header hpath, hcurrent]
        rfl

theorem datahdr_complete_fresh (hdr hdr' : DataHeader)
    (h : datahdrReader.complete hdr = .ok (hdr', false)) :
    counted (datahdrReader.line hdr') = [] := by
  change (if cstr (stripCr hdr.current) = [] then _ else _) = _ at h
  split at h
  · cases (Prod.mk.inj (Except.ok.inj h)).2
  · rw [datahdrAddLine] at h
    split at h
    · rw [← (Prod.mk.inj (Except.ok.inj h)).1]
      rfl
    · split at h
      · rw [← (Prod.mk.inj (Except.ok.inj h)).1]
        rfl
      · cases h

/-- How the lines of a request header grow when it is read in pieces. -/
def reqhdrGrowths (cfg : Config) (pieces : List Bytes) : List (Nat × Nat) :=
  (reqhdrReader cfg).callGrowths (splitAtByte lf) reqhdrNew pieces

/-- How the lines of a part header or a CGI header do. -/
def datahdrGrowths (pieces : List Bytes) : List (Nat × Nat) :=
  datahdrReader.callGrowths (splitAtByte lf) datahdrNew pieces

/-- Pieces of a header none of whose lines gets to 4 GiB with a zero behind it. What counts of
a line that an earlier piece has begun is what lies before its first zero. -/
def LinesFit (pieces : List Bytes) : Prop := ∀ l ∈ heldRun [] pieces, l.length + 1 < uintSize

/-- All sizes are exact: those of a header when its lines fit, that of a buffer exactly when
the data does, and exactly then it is appended inside the block. -/
theorem sizes_exact (cfg : Config) :
    (∀ pieces, LinesFit pieces → ∀ g ∈ reqhdrGrowths cfg pieces, SizeExact g) ∧
    (∀ pieces, LinesFit pieces → ∀ g ∈ datahdrGrowths pieces, SizeExact g) ∧
    ∀ (mb : MemBlock) (data : Bytes) (junk : Nat → Byte),
      (SizeExact (mb.dataLen, data.length) ↔ mb.dataLen + data.length + 1 < uintSize) ∧
        ((∃ mb', blockAppendData mb data junk = .ok mb') ↔
          SizeExact (mb.dataLen, data.length)) := by
  refine ⟨fun pieces hfit g hg => ?_, fun pieces hfit g hg => ?_,
    fun mb data junk => ⟨sizeExact_iff, blockAppendData_ok_iff junk⟩⟩
  · obtain ⟨held, hheld, hlen⟩ := LineReader.callGrowths_held splitAtByte_cuts
      reqhdr_setLine_first reqhdr_complete_first (fun _ => rfl) rfl hg
    rw [sizeExact_iff, ← hlen]
    exact hfit held hheld
  · obtain ⟨held, hheld, hlen⟩ := LineReader.callGrowths_held (I := fun _ => True) 
      splitAtByte_cuts (fun _ _ _ => trivial)
      (fun hdr hdr' _ h => ⟨trivial, datahdr_complete_fresh hdr hdr' h⟩) trivial rfl hg
    rw [sizeExact_iff, ← hlen]
    exact hfit held hheld

section LongLine

/-- A request line that comes in equal pieces, with some of them read. -/
def partLine (piece : Bytes) (count : Nat) : RequestHeader :=
  { reqhdrNew with request := (List.replicate count piece).flatten }

theorem partLine_length {piece : Bytes} (hnul : nul ∉ piece) (count : Nat) :
    counted (partLine piece count).request = (List.replicate count piece).flatten ∧
      (counted (partLine piece count).request).length = count * piece.length := by
  have hclean : nul ∉ (List.replicate count piece).flatten := by
    intro h
    obtain ⟨p, hp, hmem⟩ := List.mem_flatten.mp h
    rw [List.eq_of_mem_replicate hp] at hmem
    exact hnul hmem
  have hcounted : counted (partLine piece count).request = (List.replicate count piece).flatten :=
    cstr_eq_self hclean
  refine ⟨hcounted, ?_⟩
  rw [hcounted, List.length_flatten, List.map_replicate, List.sum_replicate, smul_eq_mul]

/-- The pieces of a line, until one of them is too much. -/
theorem partLine_growths (cfg : Config) {piece : Bytes} (hpiece : piece ≠ []) (hlf : lf ∉ piece)
    (hnul : nul ∉ piece) (count more : Nat)
    (hfits : (count + more) * piece.length + 1 < uintSize) :
    ((count + more) * piece.length, piece.length) ∈ (reqhdrReader cfg).callGrowths
      (splitAtByte lf) (partLine piece count) (List.replicate (more + 1) piece) := by
  induction more generalizing count with
  | zero =>
    rw [List.replicate_one, LineReader.callGrowths,
      LineReader.growths_open splitAtByte_cuts _ hpiece hlf]
    refine List.mem_append_left _ (List.mem_singleton.mpr ?_)
    rw [Nat.add_zero, ← (partLine_length hnul count).2]
    rfl
  | succ more ih =>
    have hcount : count + 1 + more = count + (more + 1) := by omega
    have hone : count * piece.length + piece.length ≤ (count + (more + 1)) * piece.length := by
      rw [← Nat.succ_mul]
      exact Nat.mul_le_mul_right _ (by omega)
    obtain ⟨hcounted, hlen⟩ := partLine_length hnul count
    have hline : (reqhdrReader cfg).line (partLine piece count) = (partLine piece count).request :=
      rfl
    have hextend : (reqhdrReader cfg).extend (partLine piece count) piece =
        .ok (partLine piece (count + 1)) := by
      have hlimit : (reqhdrReader cfg).limit = uintSize - 1 := rfl
      have hnext : (List.replicate count piece).flatten ++ piece =
          (List.replicate (count + 1) piece).flatten := by
        rw [List.replicate_succ', List.flatten_append, List.flatten_singleton]
      rw [LineReader.extend, hline, hlen, hlimit, if_pos (by omega), hcounted, hnext]
      rfl
    rw [List.replicate_succ, LineReader.callGrowths,
      LineReader.append_open splitAtByte_cuts _ hpiece hlf, hextend]
    refine List.mem_append_right _ ?_
    rw [← hcount]
    exact ih (count + 1) (by rwa [hcount])

end LongLine

/-- A request line of 4 GiB, read in pieces of 64 KiB: the last `realloc` is given one byte. -/
theorem long_request_line :
    ∃ pieces : List Bytes, (∀ piece ∈ pieces, piece.length = 2 ^ 16) ∧
      ∃ g ∈ reqhdrGrowths bareConfig pieces, ¬ SizeExact g ∧ appendSize g.1 g.2 = 1 := by
  have hlen : (List.replicate (2 ^ 16) (65 : Byte)).length = 2 ^ 16 := List.length_replicate
  have hfree : ∀ b : Byte, b ≠ 65 → b ∉ List.replicate (2 ^ 16) (65 : Byte) :=
    fun b hb h => hb (List.eq_of_mem_replicate h)
  have hgrowth := partLine_growths bareConfig (List.ne_nil_of_length_pos (by rw [hlen]; decide))
    (hfree lf (by decide)) (hfree nul (by decide)) 0 (2 ^ 16 - 1) (by rw [hlen]; decide)
  rw [hlen] at hgrowth
  refine ⟨_, fun piece h => ?_, _, hgrowth, ?_, ?_⟩
  · rw [List.eq_of_mem_replicate h, hlen]
  · rw [sizeExact_iff]
    decide
  · decide

end FilemanagerHttpd.Audit
