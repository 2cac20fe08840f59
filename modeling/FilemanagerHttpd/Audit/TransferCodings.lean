import FilemanagerHttpd.Audit.Texts
import FilemanagerHttpd.Server.RequestHeader

/-!
# The transfer codings of a request

Which value of the first `Transfer-Encoding` header makes a request chunked. The loop compares
the first letters of each element only, so longer words count as well.
-/

namespace FilemanagerHttpd.Audit

open Library Server

/-- Without the spaces and tabs at both ends. -/
def stripBlanks (e : Bytes) : Bytes :=
  (skipSpan blanks (skipSpan blanks e).reverse).reverse

/-- The elements of the first `Transfer-Encoding` header, if there is one. -/
def codings (req : RequestHeader) : List Bytes :=
  match req.headers.find? fun h => eqIgnoreCase h.1 (ascii "Transfer-Encoding") with
  | none => []
  | some h => h.2.splitOn comma

/-- An element that is the word. -/
def IsChunkedWord (e : Bytes) : Prop := eqIgnoreCase (stripBlanks e) (ascii "chunked") = true

/-- An element that begins with the word. -/
def StartsChunked (e : Bytes) : Prop :=
  startsWithIgnoreCase (ascii "chunked") (skipSpan blanks e) = true

instance (e : Bytes) : Decidable (IsChunkedWord e) :=
  inferInstanceAs (Decidable (eqIgnoreCase _ _ = true))

instance (e : Bytes) : Decidable (StartsChunked e) :=
  inferInstanceAs (Decidable (startsWithIgnoreCase _ _ = true))

section Elements

theorem skipSpan_mem {set : Bytes} {b : Byte} (h : b ∈ set) (s : Bytes) :
    skipSpan set (b :: s) = skipSpan set s := List.dropWhile_cons_of_pos (by simpa using h)

theorem skipSpan_not_mem {set : Bytes} {b : Byte} (h : b ∉ set) (s : Bytes) :
    skipSpan set (b :: s) = b :: s := List.dropWhile_cons_of_neg (by simpa using h)

theorem skipSpan_stop (set s : Bytes) : ∀ b ∈ (skipSpan set s).head?, b ∉ set := by
  induction s with
  | nil => nofun
  | cons c s ih =>
    by_cases hc : c ∈ set
    · rw [skipSpan_mem hc]
      exact ih
    · rw [skipSpan_not_mem hc]
      intro b hb
      obtain rfl : c = b := Option.some.inj hb
      exact hc

theorem skipSpan_eq {set s : Bytes} (h : ∀ b ∈ s.head?, b ∉ set) : skipSpan set s = s := by
  cases s with
  | nil => rfl
  | cons b s => exact skipSpan_not_mem (h b rfl) s

/-- A larger set skips what a smaller one does, and goes on. -/
theorem skipSpan_skipSpan (s : Bytes) :
    skipSpan (comma :: blanks) (skipSpan blanks s) = skipSpan (comma :: blanks) s := by
  induction s with
  | nil => rfl
  | cons b s ih =>
    by_cases hb : b ∈ blanks
    · rw [skipSpan_mem hb, skipSpan_mem (.tail _ hb)]
      exact ih
    · rw [skipSpan_not_mem hb]

theorem startsChunked_blank {b : Byte} (h : b ∈ blanks) (e : Bytes) :
    StartsChunked (b :: e) ↔ StartsChunked e := by
  rw [StartsChunked, skipSpan_mem h]
  rfl

theorem not_startsChunked_nil : ¬ StartsChunked [] := by decide +kernel

/-- The elements behind a comma. -/
theorem any_splitOn_comma (rest : Bytes) :
    (∃ e ∈ (comma :: rest).splitOn comma, StartsChunked e) ↔
      ∃ e ∈ rest.splitOn comma, StartsChunked e := by
  have hsplit : (comma :: rest).splitOn comma = [] :: rest.splitOn comma :=
    List.splitOn_append_cons_self [] rest
  rw [hsplit, List.exists_mem_cons_iff]
  exact or_iff_right not_startsChunked_nil

/-- Commas and blanks in front make no element that counts. -/
theorem any_splitOn_skip (val : Bytes) :
    (∃ e ∈ (skipSpan (comma :: blanks) val).splitOn comma, StartsChunked e) ↔
      ∃ e ∈ val.splitOn comma, StartsChunked e := by
  induction val with
  | nil => rfl
  | cons b rest ih =>
    by_cases hcomma : b = comma
    · rw [hcomma, skipSpan_mem List.mem_cons_self, any_splitOn_comma]
      exact ih
    by_cases hblank : b ∈ blanks
    · rw [skipSpan_mem (.tail _ hblank), ih, List.splitOn_cons_eq_if_modifyHead,
        if_neg (by simpa using hcomma)]
      cases hsplit : rest.splitOn comma with
      | nil => exact absurd hsplit (List.splitOn_ne_nil comma rest)
      | cons first others =>
        rw [List.modifyHead_cons, List.exists_mem_cons_iff, List.exists_mem_cons_iff,
          startsChunked_blank hblank]
    · rw [skipSpan_not_mem fun hm => (List.mem_cons.mp hm).elim hcomma hblank]

/-- The word has no comma: what follows one makes no difference. -/
theorem startsWith_append_comma (e rest : Bytes) :
    startsWithIgnoreCase (ascii "chunked") (e ++ comma :: rest) =
      startsWithIgnoreCase (ascii "chunked") e := by
  have hlen : (ascii "chunked").length = 7 := by decide
  rw [startsWithIgnoreCase, startsWithIgnoreCase, hlen]
  by_cases hlong : 7 ≤ e.length
  · rw [List.take_append_of_le_length hlong]
  · have hshort : eqIgnoreCase (e.take 7) (ascii "chunked") = false := by
      rw [eqIgnoreCase, beq_eq_false_iff_ne]
      intro h
      have hl := congrArg List.length h
      rw [List.length_map, List.length_map, List.length_take, hlen] at hl
      omega
    have hcomma : comma ∈ (e ++ comma :: rest).take 7 := by
      rw [List.take_append, List.mem_append]
      obtain ⟨n, hn⟩ : ∃ n, 7 - e.length = n + 1 := ⟨6 - e.length, by omega⟩
      rw [hn, List.take_succ_cons]
      exact .inr List.mem_cons_self
    rw [hshort, eqIgnoreCase, beq_eq_false_iff_ne]
    intro h
    have hm : toLower comma ∈ (ascii "chunked").map toLower := h ▸ List.mem_map_of_mem hcomma
    revert hm
    decide +kernel

/-- The loop finds an element that begins with the word, in as many rounds as there are bytes at
most. -/
theorem chunkedInList_iff {n : Nat} {val : Bytes} (hn : val.length < n) :
    chunkedInList n val = true ↔ ∃ e ∈ val.splitOn comma, StartsChunked e := by
  induction n generalizing val with
  | zero => omega
  | succ n ih =>
    rw [chunkedInList, Bool.or_eq_true, ← any_splitOn_skip val]
    have hshort : (skipSpan (comma :: blanks) val).length ≤ val.length :=
      (List.dropWhile_sublist _).length_le
    have hhead := skipSpan_stop (comma :: blanks) val
    -- the loop is at a byte that is no comma and no blank
    generalize skipSpan (comma :: blanks) val = text at hshort hhead ⊢
    cases hsplit : splitAtByte comma text with
    | none =>
      have hstart : skipSpan blanks text = text :=
        skipSpan_eq fun b hb hm => hhead b hb (.tail _ hm)
      rw [List.splitOn_eq_singleton (not_mem_of_splitAtByte hsplit)]
      simp [StartsChunked, hstart]
    | some p =>
      obtain ⟨first, rest⟩ := p
      obtain ⟨hfirst, rfl⟩ := splitAtByte_eq hsplit
      have hne : first ≠ [] := by
        rintro rfl
        exact hhead comma rfl List.mem_cons_self
      have hstart : skipSpan blanks first = first := skipSpan_eq fun b hb hm =>
        hhead b (by rwa [List.head?_append_of_ne_nil _ hne]) (.tail _ hm)
      have hnext : (comma :: rest).length < n := by
        have hpos := List.length_pos_iff.mpr hne
        rw [List.length_append] at hshort
        omega
      rw [List.splitOn_append_cons_self_of_not_mem hfirst, List.exists_mem_cons_iff,
        startsWith_append_comma, StartsChunked, hstart]
      exact or_congr_right ((ih hnext).trans (any_splitOn_comma rest))

/-- The word itself begins with the word. -/
theorem IsChunkedWord.startsChunked {e : Bytes} (h : IsChunkedWord e) : StartsChunked e := by
  have hlower := eq_of_beq h
  have hlen : (stripBlanks e).length = (ascii "chunked").length := by
    rw [← List.length_map (f := toLower), hlower, List.length_map]
  obtain ⟨tail, htail⟩ : stripBlanks e <+: skipSpan blanks e := by
    have hsuffix := List.dropWhile_suffix (l := (skipSpan blanks e).reverse) (· ∈ blanks)
    have hbegin := List.reverse_prefix.mpr hsuffix
    rwa [List.reverse_reverse] at hbegin
  rw [StartsChunked, startsWithIgnoreCase, ← htail, ← hlen, List.take_left]
  exact h

end Elements

theorem reqhdrIsChunkedTransferEncoding_iff (req : RequestHeader) :
    reqhdrIsChunkedTransferEncoding req = true ↔ ∃ e ∈ codings req, StartsChunked e := by
  rw [reqhdrIsChunkedTransferEncoding, reqhdrGetHeaderVal, codings]
  cases req.headers.find? fun h => eqIgnoreCase h.1 (ascii "Transfer-Encoding") with
  | none => simp
  | some h =>
    show chunkedInList _ _ = true ↔ _
    rw [chunkedInList_iff (Nat.lt_succ_self _), ← any_splitOn_skip h.2,
      ← any_splitOn_skip (skipSpan blanks h.2), skipSpan_skipSpan]

end FilemanagerHttpd.Audit
