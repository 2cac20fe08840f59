import FilemanagerHttpd.Audit.SenderRun

/-!
# Responses in the chunked coding

The size line of the first chunk is in the header buffer; those of later chunks are put
into the gap before the data they belong to. Either way the bytes that go to the socket
after the header are a coding of the first piece and of what the descriptor delivers.
-/

namespace FilemanagerHttpd.Audit

open Library Server

/-- The last read has ended the file: it gave no bytes, or an error other than a file
that would block. -/
def Ended (reads : List ReadResult) : Prop :=
  reads.getLast? = some (.got []) ∨ ∃ e, e ≠ .wouldBlock ∧ reads.getLast? = some (.fail e)

/-- The bytes produced are the head and chunks of the first piece and of what has been
read; the last chunk follows once the file has ended. -/
def ChunkedProduction (head first : Bytes) (file : Fd) : Production :=
  fun P R n fd => ∃ cs, (∀ c ∈ cs, c ≠ []) ∧ cs.flatten = first ++ delivered R ∧
    ((n = -1 ∧ fd = some file ∧ P = head ++ Chunked.chunks cs) ∨
      (n = 0 ∧ fd = none ∧ P = head ++ Chunked.encode cs ∧ Ended R))

theorem chunkSizeLine_eq (n : Nat) : chunkSizeLine n = Chunked.sizeLine n := rfl

theorem lastChunk_eq : lastChunk = Chunked.last := by decide

theorem length_chunkSizeLine {n : Nat} (h : n ≤ 65536) : (chunkSizeLine n).length ≤ 7 := by
  have hd := length_digits_le (by decide : 1 < 16) (by decide : 0 < 5)
    (by omega : n < 16 ^ 5)
  simp only [chunkSizeLine, hexadecimal, crlf, List.length_append, List.length_cons,
    List.length_nil]
  omega

/-- The chunk of some bytes; no bytes make no chunk. -/
def chunkOf (got : Bytes) : Bytes := if got = [] then [] else Chunked.chunk got

/-- What `wrapChunk` leaves between its two offsets is a chunk of the data. -/
theorem wrapChunk_ok {body b : MemBuf} {filled off size : Nat} {got gap : Bytes}
    (hgap : gap.length = chunkGap) (hlen : got.length ≤ 65536)
    (hfilled : filled = chunkGap + got.length) (htake : body.data.take filled = gap ++ got)
    (h : wrapChunk body filled = .ok (b, off, size)) :
    b.dataLen = body.dataLen ∧ off ≤ size ∧ size ≤ b.dataLen ∧
      (b.data.take size).drop off = chunkOf got := by
  unfold wrapChunk at h
  by_cases hlt : chunkGap < filled
  · rw [if_pos hlt] at h
    have hsub : filled - chunkGap = got.length := by omega
    have hk := length_chunkSizeLine hlen
    rw [hsub] at h
    generalize hline : chunkSizeLine got.length = line at h hk
    dsimp only at h
    obtain ⟨b₁, h₁, h⟩ := bind_ok h
    obtain ⟨b₂, h₂, h⟩ := bind_ok h
    simp only [pure, Except.pure, Except.ok.injEq, Prod.mk.injEq] at h
    obtain ⟨rfl, rfl, rfl⟩ := h
    obtain ⟨hfit₁, hb₁⟩ := mbSetData_ok h₁
    obtain ⟨hfit₂, hb₂⟩ := mbSetData_ok h₂
    have hg : chunkGap = 10 := rfl
    have hl : crlf.length = 2 := rfl
    rw [MemBuf.dataLen] at hfit₁ hfit₂
    rw [hl] at hfit₂
    have hlen₁ : b₁.data.length = body.data.length := by
      rw [hb₁, length_overwrite hfit₁]
    have hlen₂ : b₂.data.length = b₁.data.length := by
      rw [hb₂, length_overwrite (by rw [hl]; exact hfit₂)]
    refine ⟨by rw [MemBuf.dataLen, MemBuf.dataLen]; omega, by omega,
      by rw [MemBuf.dataLen]; omega, ?_⟩
    have hne : got ≠ [] := by rintro rfl; simp at hfilled; omega
    -- the data behind the gap
    have hdata : (body.data.drop chunkGap).take got.length = got := by
      have hd := congrArg (List.drop chunkGap) htake
      rw [List.drop_take, hsub, ← hgap, List.drop_left] at hd
      rw [← hgap]; exact hd
    have hwrap : (b₁.data.take filled).drop (chunkGap - line.length) = line ++ got := by
      rw [List.drop_take, hb₁, drop_overwrite hfit₁]
      have hs : chunkGap - line.length + line.length = chunkGap := by omega
      have hn : filled - (chunkGap - line.length) = line.length + got.length := by omega
      rw [hs, hn, List.take_length_add_append, hdata]
    have hend : b₂.data.take (filled + 2) = b₁.data.take filled ++ crlf := by
      have ht : (overwrite b₁.data filled crlf).take (filled + crlf.length) =
          b₁.data.take filled ++ crlf := take_overwrite (by rw [hl]; exact hfit₂)
      rw [hb₂, ← ht, hl]
    rw [hend, List.drop_append_of_le_length (by rw [List.length_take]; omega), hwrap]
    rw [chunkOf, if_neg hne, Chunked.chunk, ← hline]
    rfl
  · rw [if_neg hlt] at h
    simp only [pure, Except.pure, Except.ok.injEq, Prod.mk.injEq] at h
    obtain ⟨rfl, rfl, rfl⟩ := h
    have hnil : got = [] := List.eq_nil_of_length_eq_zero (by omega)
    exact ⟨rfl, le_refl _, Nat.zero_le _, by simp [chunkOf, hnil]⟩

variable {sock file : Fd}

theorem exhausted_ended {stop : FillStop} {R reads : List ReadResult}
    (hex : stop.exhausted = true) (hstop : StopsWith stop reads) : Ended (R ++ reads) := by
  have hlast : ∀ r, reads.getLast? = some r → (R ++ reads).getLast? = some r := by
    intro r hr
    rw [List.getLast?_append, hr]; rfl
  cases stop with
  | full => cases hex
  | eof => exact .inl (hlast _ hstop)
  | failed e => exact .inr ⟨e, by simpa [FillStop.exhausted] using hex, hlast _ hstop⟩

/-- One more piece of data is one more chunk, unless it is empty. -/
theorem chunks_chunkOf {cs : List Bytes} (hcs : ∀ c ∈ cs, c ≠ []) (got : Bytes) :
    ∃ cs', (∀ c ∈ cs', c ≠ []) ∧ cs'.flatten = cs.flatten ++ got ∧
      Chunked.chunks cs' = Chunked.chunks cs ++ chunkOf got := by
  by_cases hne : got = []
  · exact ⟨cs, hcs, by simp [hne], by simp [hne, chunkOf]⟩
  · refine ⟨cs ++ [got], ?_, by simp, by rw [Chunked.chunks_snoc, chunkOf, if_neg hne]⟩
    intro c hc
    rcases List.mem_append.mp hc with hc | hc
    · exact hcs c hc
    · rw [List.mem_singleton.mp hc]; exact hne

theorem chunked_refill (head first : Bytes) :
    RefillKeeps sock (some file) (ChunkedProduction head first file) := by
  rintro ⟨header, body₀, fd, dsize, off, n⟩ body dpr P R h rfl rfl hn ⟨cs, hcs, hflat, hP⟩
  simp only at hn hP
  obtain ⟨rfl, rfl, rfl⟩ : n = -1 ∧ fd = some file ∧ P = head ++ Chunked.chunks cs := by
    rcases hP with hP | ⟨h0, -⟩
    · exact hP
    · exact absurd h0 hn
  have hneg : ¬ (0 : Int) ≤ -1 := by omega
  simp only [fillBuffer, hneg, if_false, fillChunked]
  refine wp_seq (ensureSize_spec sock (some file) body (chunkedFill + 7) h) ?_
  rintro body₁ h₁ ⟨ht₁, hlen⟩
  have hgap : chunkGap ≤ chunkedFill := by decide
  refine wp_seq (fillLoop_transfer sock file hgap (by omega) h₁) ?_
  rintro ⟨b, filled, stop⟩ h₂ ⟨reads, ht₂, hb, hfilled, hfle, htake, -, hstop⟩
  simp only at hb hfilled hfle htake hstop
  have ht : Transfer sock (some file) h h₂ [] reads := by simpa using ht₁.trans ht₂
  have hgot : (delivered reads).length ≤ 65536 := by
    have : chunkedFill = chunkGap + 65536 := rfl
    omega
  obtain ⟨cs', hcs', hflat', hchunks⟩ := chunks_chunkOf hcs (delivered reads)
  have hflat'' : cs'.flatten = first ++ delivered (R ++ reads) := by
    rw [hflat', hflat, delivered_append, List.append_assoc]
  have hgapLen : (body₁.data.take chunkGap).length = chunkGap := by
    have : chunkGap + 65543 = chunkedFill + 7 := rfl
    rw [List.length_take, Nat.min_eq_left (by rw [MemBuf.dataLen] at hlen; omega)]
  refine wp_seq (closeIf_transfer ht stop.exhausted (some file)) ?_
  rintro _ h₃ ⟨ht₃, rfl⟩
  refine wp_seq (wp_lift (Q := fun x h' => h' = h₃ ∧ x.1.dataLen = b.dataLen ∧ x.2.1 ≤ x.2.2 ∧
    x.2.2 ≤ x.1.dataLen ∧ (x.1.data.take x.2.2).drop x.2.1 = chunkOf (delivered reads))
    (fun _ => trivial) fun x hx => ?_) ?_
  · obtain ⟨b', off', size'⟩ := x
    have := wrapChunk_ok hgapLen hgot hfilled htake hx
    exact ⟨rfl, this⟩
  rintro ⟨b', off', size'⟩ h₄ ⟨rfl, hb', hoff, hsize, hchunk⟩
  simp only at hb' hoff hsize hchunk
  by_cases hex : stop.exhausted = true
  · simp only [hex, if_true]
    refine wp_seq (wp_lift (Q := fun b₃ h' => h' = h₄ ∧ size' + 5 ≤ b₃.dataLen ∧
      b₃.data.take (size' + 5) = b'.data.take size' ++ lastChunk) (fun _ => trivial)
      fun b₃ hb₃ => ?_) ?_
    · obtain ⟨hfit, hdata⟩ := mbSetData_ok hb₃
      have hl : lastChunk.length = 5 := by decide
      rw [MemBuf.dataLen] at hfit
      have ht := take_overwrite hfit
      rw [hl] at ht hfit
      refine ⟨rfl, ?_, by rw [hdata, ht]⟩
      rw [MemBuf.dataLen, hdata, length_overwrite (by rw [hl]; exact hfit)]; exact hfit
    rintro b₃ _ ⟨rfl, hfit, htake₃⟩
    refine ⟨reads, ht₃, .ofBody (by omega) hfit, rfl, cs', hcs', hflat'', .inr ⟨rfl, rfl, ?_,
      exhausted_ended hex hstop⟩⟩
    rw [pending_body, htake₃, List.drop_append_of_le_length (by
      rw [List.length_take, Nat.min_eq_left (by rw [MemBuf.dataLen] at hsize; exact hsize)]
      exact hoff), hchunk, Chunked.encode, hchunks, lastChunk_eq]
    simp
  · simp only [Bool.not_eq_true] at hex
    simp only [hex, Bool.false_eq_true, if_false]
    refine ⟨reads, ht₃, .ofBody hoff hsize, rfl, cs', hcs', hflat'', .inl ⟨rfl, rfl, ?_⟩⟩
    rw [pending_body, hchunk, hchunks, List.append_assoc]

end FilemanagerHttpd.Audit
