import Mathlib

/-!
# Readers of lines

A reader collects the bytes of a line and acts when the line is complete; one of the
lines ends its work. It may be given a text in pieces. Given bytes without a zero, what
it does depends on their sequence only and not on the pieces: it is the same as when it
gets them one by one.

The unfinished line is kept as a zero-terminated string, so what counts of it is the
part before its first zero.
-/

namespace FilemanagerHttpd.Library

variable {σ ε β : Type}

/-- Give a text to a machine element by element, until it says that it is done. The text
behind that point is left. -/
def feed (step : σ → β → Except ε (σ × Bool)) : σ → List β → Except ε (σ × Option (List β))
  | s, [] => .ok (s, none)
  | s, b :: rest =>
    match step s b with
    | .error e => .error e
    | .ok (s', true) => .ok (s', some rest)
    | .ok (s', false) => feed step s' rest

/-- A text in two parts: the second goes to the machine when the first has not ended it. -/
theorem feed_append (step : σ → β → Except ε (σ × Bool)) (s : σ) (t u : List β) :
    feed step s (t ++ u) =
      match feed step s t with
      | .error e => .error e
      | .ok (s', none) => feed step s' u
      | .ok (s', some rest) => .ok (s', some (rest ++ u)) := by
  induction t generalizing s with
  | nil => rfl
  | cons b t ih =>
    simp only [List.cons_append, feed]
    cases step s b with
    | error e => rfl
    | ok r =>
      obtain ⟨s', done⟩ := r
      cases done
      · exact ih s'
      · rfl

/-- What a machine leaves of a text is a suffix of it that lacks at least one element. -/
theorem feed_rest {step : σ → β → Except ε (σ × Bool)} {s s' : σ} {t rest : List β}
    (h : feed step s t = .ok (s', some rest)) : ∃ taken, taken ≠ [] ∧ t = taken ++ rest := by
  induction t generalizing s with
  | nil => simp [feed] at h
  | cons b t ih =>
    rw [feed] at h
    cases hs : step s b with
    | error e => rw [hs] at h; cases h
    | ok r =>
      obtain ⟨s₁, done⟩ := r
      rw [hs] at h
      cases done with
      | true =>
        simp only [Except.ok.injEq, Prod.mk.injEq, Option.some.injEq] at h
        exact ⟨[b], by simp, by simp [h.2]⟩
      | false =>
        obtain ⟨taken, -, ht⟩ := ih h
        exact ⟨b :: taken, by simp, by simp [ht]⟩

/-- The part of a line that counts. -/
def counted (line : List UInt8) : List UInt8 := line.takeWhile (· != 0)

theorem counted_append {line piece : List UInt8} (h : (0 : UInt8) ∉ piece) :
    counted (counted line ++ piece) = counted line ++ piece := by
  rw [counted, List.takeWhile_eq_self_iff]
  intro x hx
  rcases List.mem_append.mp hx with hx | hx
  · exact List.mem_takeWhile_imp (p := (· != 0)) hx
  · simpa using fun he : x = 0 => h (he ▸ hx)

theorem counted_zero (line x : List UInt8) : counted (counted line ++ 0 :: x) = counted line := by
  have hstop : (0 :: x).takeWhile (· != (0 : UInt8)) = [] := rfl
  rw [counted, counted, List.takeWhile_append_of_pos, hstop, List.append_nil]
  exact fun b hb => List.mem_takeWhile_imp (p := (· != 0)) hb

@[simp] theorem counted_counted (line : List UInt8) : counted (counted line) = counted line := by
  have h : counted (counted line ++ []) = counted line ++ [] := counted_append List.not_mem_nil
  simpa using h

/-- Call a machine with one piece of a text after the other until it says how much of the piece
it has taken: how much of the text that is, and whether it has said so. -/
def calls (append : σ → List β → Except ε (σ × Option Nat)) :
    σ → List (List β) → Except ε (σ × Nat × Bool)
  | s, [] => .ok (s, 0, false)
  | s, piece :: pieces =>
    match append s piece with
    | .error e => .error e
    | .ok (s', some count) => .ok (s', count, true)
    | .ok (s', none) =>
      (calls append s' pieces).map fun r => (r.1, piece.length + r.2.1, r.2.2)

/-- The lines of a piece that is read behind an unfinished line, each as long as it is when the
piece has been read. -/
def heldLines (line text : List UInt8) : List (List UInt8) :=
  (text.splitOn 10).modifyHead (counted line ++ ·)

theorem heldLines_line (line rest : List UInt8) {piece : List UInt8} (h : (10 : UInt8) ∉ piece) :
    heldLines line (piece ++ 10 :: rest) = (counted line ++ piece) :: heldLines [] rest := by
  have hrest : heldLines [] rest = rest.splitOn 10 := by
    rw [heldLines]
    cases rest.splitOn 10 <;> rfl
  rw [hrest, heldLines, List.splitOn_append_cons_self_of_not_mem h]
  rfl

theorem heldLines_open (line : List UInt8) {text : List UInt8} (h : (10 : UInt8) ∉ text) :
    heldLines line text = [counted line ++ text] := by
  rw [heldLines, List.splitOn_eq_singleton h]
  rfl

/-- The lines of pieces that are read one after the other. -/
def heldRun : List UInt8 → List (List UInt8) → List (List UInt8)
  | _, [] => []
  | line, piece :: pieces =>
    heldLines line piece ++ heldRun ((heldLines line piece).getLastD []) pieces

/-- The bytes behind the last line feed. -/
def openPart (text : List UInt8) : List UInt8 := (text.reverse.takeWhile (· != 10)).reverse

theorem openPart_line (piece rest : List UInt8) :
    openPart (piece ++ 10 :: rest) = openPart rest := by
  have hstop : (10 :: piece.reverse).takeWhile (· != (10 : UInt8)) = [] := rfl
  rw [openPart, openPart, List.reverse_append, List.reverse_cons, List.append_assoc,
    List.singleton_append, List.takeWhile_append, hstop, List.append_nil]
  split
  · rename_i hall
    rw [(List.takeWhile_sublist _).eq_of_length hall]
  · rfl

theorem openPart_eq_self {text : List UInt8} (h : (10 : UInt8) ∉ text) : openPart text = text := by
  rw [openPart, List.takeWhile_eq_self_iff.mpr, List.reverse_reverse]
  intro b hb
  simpa using fun he : b = 10 => h (he ▸ List.mem_reverse.mp hb)

/-- No call but the last is given a piece with a zero in the line that it leaves unfinished. -/
def CutsClean (append : σ → List UInt8 → Except ε (σ × Option Nat)) :
    σ → List (List UInt8) → Prop
  | _, [] => True
  | s, piece :: pieces => ∀ s', append s piece = .ok (s', none) → pieces ≠ [] →
      (0 : UInt8) ∉ openPart piece ∧ CutsClean append s' pieces

/-- A reader of lines over a state that holds the unfinished line. -/
structure LineReader (σ ε : Type) where
  line : σ → List UInt8
  setLine : σ → List UInt8 → σ
  /-- act on the complete line; whether it was the last -/
  complete : σ → Except ε (σ × Bool)
  /-- lines of this length are too long -/
  limit : Nat
  tooLong : ε
  line_setLine : ∀ s l, line (setLine s l) = l
  setLine_setLine : ∀ s l l', setLine (setLine s l) l' = setLine s l'

namespace LineReader

variable (R : LineReader σ ε)

/-- Add a piece to the unfinished line. -/
def extend (s : σ) (piece : List UInt8) : Except ε σ :=
  if (counted (R.line s)).length + piece.length < R.limit
  then .ok (R.setLine s (counted (R.line s) ++ piece)) else .error R.tooLong

/-- One byte: a line feed completes the line. -/
def byte (s : σ) (b : UInt8) : Except ε (σ × Bool) :=
  if b = 10 then
    match R.extend s [] with
    | .error e => .error e
    | .ok s' => R.complete s'
  else
    match R.extend s [b] with
    | .error e => .error e
    | .ok s' => .ok (s', false)

/-- Extending by one piece after the other. -/
theorem extend_extend {s s' : σ} {p q : List UInt8} (hp : (0 : UInt8) ∉ p)
    (h : R.extend s p = .ok s') : R.extend s' q = R.extend s (p ++ q) := by
  unfold extend at h ⊢
  split at h
  · injection h with h
    subst h
    rw [R.line_setLine, counted_append hp, R.setLine_setLine, List.length_append,
      List.length_append, List.append_assoc, Nat.add_assoc]
  · cases h

/-- A piece of a line is read like its bytes. -/
theorem feed_piece {s : σ} {piece : List UInt8} (hlf : (10 : UInt8) ∉ piece)
    (hnul : (0 : UInt8) ∉ piece) (rest : List UInt8) :
    feed R.byte s (piece ++ 10 :: rest) =
      match R.extend s piece with
      | .error e => .error e
      | .ok s' =>
        match R.complete s' with
        | .error e => .error e
        | .ok (s'', true) => .ok (s'', some rest)
        | .ok (s'', false) => feed R.byte s'' rest := by
  induction piece generalizing s with
  | nil =>
    simp only [List.nil_append, feed, byte, if_true]
    cases R.extend s [] <;> rfl
  | cons b piece ih =>
    have hb : ¬ b = 10 := fun h => hlf (by simp [h])
    have hb0 : (0 : UInt8) ∉ [b] := by
      simpa using fun h : 0 = b => hnul (by simp [h])
    have hpiece := ih (s := s) (fun h => hlf (by simp [h])) (fun h => hnul (by simp [h]))
    simp only [List.cons_append, feed, byte, if_neg hb]
    cases hx : R.extend s [b] with
    | error e =>
      -- the whole piece is too long then
      have hlong : R.extend s (b :: piece) = .error e := by
        unfold extend at hx ⊢
        split at hx
        · cases hx
        · rw [if_neg (by simp only [List.length_cons, List.length_nil] at *; omega)]
          exact hx
      rw [hlong]
    | ok s' =>
      have he := R.extend_extend (q := piece) hb0 hx
      rw [show b :: piece = [b] ++ piece from rfl, ← he]
      exact ih (fun h => hlf (by simp [h])) (fun h => hnul (by simp [h]))

/-- A piece without a line end is read like its bytes. -/
theorem feed_open {s : σ} {b : UInt8} {piece : List UInt8} (hlf : (10 : UInt8) ∉ b :: piece)
    (hnul : (0 : UInt8) ∉ b :: piece) :
    feed R.byte s (b :: piece) = (R.extend s (b :: piece)).map fun s' => (s', none) := by
  induction piece generalizing s b with
  | nil =>
    have hb : ¬ b = 10 := fun h => hlf (by simp [h])
    simp only [feed, byte, if_neg hb]
    cases R.extend s [b] <;> rfl
  | cons c piece ih =>
    have hb : ¬ b = 10 := fun h => hlf (by simp [h])
    have hb0 : (0 : UInt8) ∉ [b] := by
      simpa using fun h : 0 = b => hnul (by simp [h])
    rw [feed]
    simp only [byte, if_neg hb]
    cases hx : R.extend s [b] with
    | error e =>
      have hlong : R.extend s (b :: c :: piece) = .error e := by
        unfold extend at hx ⊢
        split at hx
        · cases hx
        · rw [if_neg (by simp only [List.length_cons, List.length_nil] at *; omega)]
          exact hx
      rw [hlong]; rfl
    | ok s' =>
      have he := R.extend_extend (q := c :: piece) hb0 hx
      rw [show b :: c :: piece = [b] ++ c :: piece from rfl, ← he]
      exact ih (fun h => hlf (List.mem_cons_of_mem _ h)) (fun h => hnul (List.mem_cons_of_mem _ h))

/-- Read a text line by line, at most `n` of them; `cut` finds the first line end. -/
def lines (cut : List UInt8 → Option (List UInt8 × List UInt8)) :
    Nat → σ → List UInt8 → Except ε (σ × Option (List UInt8))
  | 0, s, _ => .ok (s, none)
  | n + 1, s, text =>
    if text = [] then .ok (s, none)
    else
      match cut text with
      | none => (R.extend s text).map fun s' => (s', none)
      | some (piece, rest) =>
        match R.extend s piece with
        | .error e => .error e
        | .ok s' =>
          match R.complete s' with
          | .error e => .error e
          | .ok (s'', true) => .ok (s'', some rest)
          | .ok (s'', false) => lines cut n s'' rest

/-- `cut` finds the first line end. -/
def Cuts (cut : List UInt8 → Option (List UInt8 × List UInt8)) : Prop :=
  ∀ text, match cut text with
    | none => (10 : UInt8) ∉ text
    | some (piece, rest) => (10 : UInt8) ∉ piece ∧ text = piece ++ 10 :: rest

/-- An invariant of the state is kept by a whole text when each line keeps it. -/
theorem lines_keeps {cut : List UInt8 → Option (List UInt8 × List UInt8)} (hcut : Cuts cut)
    {I : σ → Prop}
    (hextend : ∀ s s' piece, (10 : UInt8) ∉ piece → I s → R.extend s piece = .ok s' → I s')
    (hcomplete : ∀ s s' last, I s → R.complete s = .ok (s', last) → I s')
    {n : Nat} {s s' : σ} {text : List UInt8} {left : Option (List UInt8)} (hs : I s)
    (h : R.lines cut n s text = .ok (s', left)) : I s' := by
  induction n generalizing s text with
  | zero => rwa [← (Prod.mk.inj (Except.ok.inj h)).1]
  | succ n ih =>
    rw [lines] at h
    split at h
    · rwa [← (Prod.mk.inj (Except.ok.inj h)).1]
    · have hc := hcut text
      cases hct : cut text with
      | none =>
        rw [hct] at h hc
        cases hx : R.extend s text with
        | error e => rw [hx] at h; cases h
        | ok s₁ =>
          rw [hx] at h
          rw [← (Prod.mk.inj (Except.ok.inj h)).1]
          exact hextend s s₁ text hc hs hx
      | some pr =>
        obtain ⟨piece, rest⟩ := pr
        rw [hct] at h hc
        simp only at h hc
        cases hx : R.extend s piece with
        | error e => rw [hx] at h; cases h
        | ok s₁ =>
          have h₁ := hextend s s₁ piece hc.1 hs hx
          rw [hx] at h
          simp only at h
          cases hl : R.complete s₁ with
          | error e => rw [hl] at h; cases h
          | ok r =>
            obtain ⟨s₂, last⟩ := r
            have h₂ := hcomplete s₁ s₂ last h₁ hl
            rw [hl] at h
            cases last with
            | true => rwa [← (Prod.mk.inj (Except.ok.inj h)).1]
            | false => exact ih h₂ h

/-- Line by line is byte by byte. -/
theorem lines_eq_feed {cut : List UInt8 → Option (List UInt8 × List UInt8)} (hcut : Cuts cut)
    {n : Nat} {s : σ} {text : List UInt8} (hn : text.length ≤ n) (hnul : (0 : UInt8) ∉ text) :
    R.lines cut n s text = feed R.byte s text := by
  induction n generalizing s text with
  | zero =>
    obtain rfl : text = [] := List.eq_nil_of_length_eq_zero (by omega)
    rfl
  | succ n ih =>
    rw [lines]
    by_cases hnil : text = []
    · simp [hnil, feed]
    · rw [if_neg hnil]
      have hc := hcut text
      cases hct : cut text with
      | none =>
        rw [hct] at hc
        obtain ⟨b, piece, rfl⟩ := List.exists_cons_of_ne_nil hnil
        exact (R.feed_open hc hnul).symm
      | some pr =>
        obtain ⟨piece, rest⟩ := pr
        rw [hct] at hc
        obtain ⟨hlf, rfl⟩ := hc
        have hp : (0 : UInt8) ∉ piece := fun h => hnul (by simp [h])
        have hr : (0 : UInt8) ∉ rest := fun h => hnul (by simp [h])
        rw [R.feed_piece hlf hp]
        simp only
        cases R.extend s piece with
        | error e => rfl
        | ok s' =>
          simp only
          cases R.complete s' with
          | error e => rfl
          | ok r =>
            obtain ⟨s'', done⟩ := r
            cases done with
            | true => rfl
            | false =>
              exact ih (by simp at hn; omega) hr

/-- There is one way to cut a text at the first of its line ends. -/
theorem cut_unique {a : UInt8} {p q r t : List UInt8} (hp : a ∉ p) (hq : a ∉ q)
    (h : p ++ a :: r = q ++ a :: t) : p = q ∧ r = t := by
  induction p generalizing q with
  | nil =>
    cases q with
    | nil => exact ⟨rfl, (List.cons.inj h).2⟩
    | cons b q =>
      obtain rfl : a = b := (List.cons.inj h).1
      exact absurd List.mem_cons_self hq
  | cons c p ih =>
    cases q with
    | nil =>
      obtain rfl : c = a := (List.cons.inj h).1
      exact absurd List.mem_cons_self hp
    | cons b q =>
      obtain ⟨rfl, htail⟩ := List.cons.inj h
      obtain ⟨rfl, hr⟩ := ih (fun hm => hp (.tail _ hm)) (fun hm => hq (.tail _ hm)) htail
      exact ⟨rfl, hr⟩

/-- The first line end of a longer text. -/
theorem cut_append {cut : List UInt8 → Option (List UInt8 × List UInt8)} (hcut : Cuts cut)
    {piece : List UInt8} (rest : List UInt8) (hlf : (10 : UInt8) ∉ piece) :
    cut (piece ++ 10 :: rest) = some (piece, rest) := by
  have hc := hcut (piece ++ 10 :: rest)
  cases hct : cut (piece ++ 10 :: rest) with
  | none =>
    rw [hct] at hc
    exact absurd (List.mem_append_right _ List.mem_cons_self) hc
  | some pr =>
    rw [hct] at hc
    obtain ⟨hlf', he⟩ := hc
    obtain ⟨h₁, h₂⟩ := cut_unique hlf hlf' he
    rw [h₁, h₂]

/-- What is too long stays too long. -/
theorem extend_error {s : σ} {p : List UInt8} {e : ε} (q : List UInt8)
    (h : R.extend s p = .error e) : R.extend s (p ++ q) = .error e := by
  unfold extend at h ⊢
  split at h
  · cases h
  · rw [if_neg (by rw [List.length_append]; omega)]
    exact h

/-- Bytes behind a text in which the reader has come to its end are not looked at. -/
theorem lines_append {cut : List UInt8 → Option (List UInt8 × List UInt8)} (hcut : Cuts cut)
    {n : Nat} {s : σ} {t u : List UInt8} (hn : (t ++ u).length ≤ n) (hnul : (0 : UInt8) ∉ t)
    (hend : ∀ s', feed R.byte s t ≠ .ok (s', none)) :
    R.lines cut n s (t ++ u) =
      (feed R.byte s t).map fun r => (r.1, r.2.map (· ++ u)) := by
  induction n generalizing s t with
  | zero =>
    obtain rfl : t = [] := by
      have hzero : t.length = 0 := by rw [List.length_append] at hn; omega
      exact List.eq_nil_of_length_eq_zero hzero
    exact absurd rfl (hend s)
  | succ n ih =>
    have hne : t ≠ [] := by
      rintro rfl
      exact hend s rfl
    rw [lines, if_neg fun h => hne (List.append_eq_nil_iff.mp h).1]
    by_cases hlf : (10 : UInt8) ∈ t
    · obtain ⟨piece, rest, hp, rfl⟩ : ∃ piece rest,
          (10 : UInt8) ∉ piece ∧ t = piece ++ 10 :: rest := by
        obtain ⟨piece, rest, he, hp⟩ := List.eq_append_cons_of_mem hlf
        exact ⟨piece, rest, hp, he⟩
      have hpn : (0 : UInt8) ∉ piece := fun h => hnul (by simp [h])
      have hrn : (0 : UInt8) ∉ rest := fun h => hnul (by simp [h])
      rw [List.append_assoc, List.cons_append, cut_append hcut _ hp, R.feed_piece hp hpn]
      rw [R.feed_piece hp hpn] at hend
      simp only at hend ⊢
      cases hx : R.extend s piece with
      | error e => rfl
      | ok s' =>
        rw [hx] at hend
        simp only at hend ⊢
        cases hc : R.complete s' with
        | error e => rfl
        | ok r =>
          obtain ⟨s'', done⟩ := r
          rw [hc] at hend
          cases done with
          | true => rfl
          | false => exact ih (by simp at hn ⊢; omega) hrn hend
    · -- the line is too long before the text ends
      obtain ⟨b, piece, rfl⟩ := List.exists_cons_of_ne_nil hne
      rw [R.feed_open hlf hnul] at hend ⊢
      cases hx : R.extend s (b :: piece) with
      | ok s' => rw [hx] at hend; exact absurd rfl (hend s')
      | error e =>
        cases hct : cut (b :: piece ++ u) with
        | none =>
          simp only [R.extend_error u hx]
          rfl
        | some pr =>
          obtain ⟨p, rest⟩ := pr
          have hc := hcut (b :: piece ++ u)
          rw [hct] at hc
          obtain ⟨q, hq⟩ : ∃ q, p = b :: piece ++ q := by
            rcases List.append_eq_append_iff.mp hc.2 with ⟨q, h, -⟩ | ⟨q, h, h'⟩
            · exact ⟨q, h⟩
            · cases q with
              | nil => exact ⟨[], by simpa using h.symm⟩
              | cons c q =>
                obtain rfl : 10 = c := (List.cons.inj h').1
                exact absurd (h ▸ List.mem_append_right _ List.mem_cons_self) hlf
          simp only [hq, R.extend_error q hx]
          rfl

section Cuts

variable {R} {cut : List UInt8 → Option (List UInt8 × List UInt8)}

/-- The bound on the number of lines does not matter as long as it is that of the bytes. -/
theorem lines_bound (hcut : Cuts cut) {n m : Nat} {s : σ} {text : List UInt8}
    (hn : text.length ≤ n) (hm : text.length ≤ m) :
    R.lines cut n s text = R.lines cut m s text := by
  induction n generalizing m s text with
  | zero =>
    obtain rfl : text = [] := List.eq_nil_of_length_eq_zero (by omega)
    cases m <;> rfl
  | succ n ih =>
    cases m with
    | zero =>
      obtain rfl : text = [] := List.eq_nil_of_length_eq_zero (by omega)
      rfl
    | succ m =>
      rw [lines, lines]
      by_cases hnil : text = []
      · rw [if_pos hnil, if_pos hnil]
      · rw [if_neg hnil, if_neg hnil]
        have hc := hcut text
        cases hct : cut text with
        | none => rfl
        | some pr =>
          obtain ⟨piece, rest⟩ := pr
          rw [hct] at hc
          obtain ⟨-, rfl⟩ := hc
          simp only [List.length_append, List.length_cons] at hn hm
          simp only
          cases R.extend s piece with
          | error e => rfl
          | ok s' =>
            simp only
            cases R.complete s' with
            | error e => rfl
            | ok r =>
              obtain ⟨s'', done⟩ := r
              cases done with
              | true => rfl
              | false => exact ih (by omega) (by omega)

theorem cut_eq_none (hcut : Cuts cut) {text : List UInt8} (h : (10 : UInt8) ∉ text) :
    cut text = none := by
  have hc := hcut text
  cases hct : cut text with
  | none => rfl
  | some pr =>
    rw [hct] at hc
    exact absurd (hc.2 ▸ List.mem_append_right _ List.mem_cons_self) h

/-- What is too long in front of the cut is too long. -/
theorem lines_tooLong (hcut : Cuts cut) {n : Nat} {s : σ} {t u : List UInt8} {e : ε} (hne : t ≠ [])
    (hlf : (10 : UInt8) ∉ t) (hx : R.extend s t = .error e) :
    R.lines cut (n + 1) s (t ++ u) = .error e := by
  rw [lines, if_neg fun h => hne (List.append_eq_nil_iff.mp h).1]
  have hc := hcut (t ++ u)
  cases hct : cut (t ++ u) with
  | none =>
    simp only [R.extend_error u hx]
    rfl
  | some pr =>
    obtain ⟨p, rest⟩ := pr
    rw [hct] at hc
    obtain ⟨q, hq⟩ : ∃ q, p = t ++ q := by
      rcases List.append_eq_append_iff.mp hc.2 with ⟨q, h, -⟩ | ⟨q, h, h'⟩
      · exact ⟨q, h⟩
      · cases q with
        | nil => exact ⟨[], by simpa using h.symm⟩
        | cons c q =>
          obtain rfl : 10 = c := (List.cons.inj h').1
          exact absurd (h ▸ List.mem_append_right _ List.mem_cons_self) hlf
    simp only [hq, R.extend_error q hx]

/-- A text that is cut in front of its rest, with no zero behind the last line end before the
cut. -/
theorem lines_split (hcut : Cuts cut) {n : Nat} {s : σ} {t u : List UInt8}
    (hn : (t ++ u).length ≤ n) (hopen : ∀ s', R.lines cut n s t = .ok (s', none) →
      (0 : UInt8) ∉ openPart t) :
    R.lines cut n s (t ++ u) =
      match R.lines cut n s t with
      | .error e => .error e
      | .ok (s', some rest) => .ok (s', some (rest ++ u))
      | .ok (s', none) => R.lines cut n s' u := by
  induction n generalizing s t with
  | zero =>
    have hnil : t ++ u = [] := List.eq_nil_of_length_eq_zero (by omega)
    obtain ⟨rfl, rfl⟩ := List.append_eq_nil_iff.mp hnil
    rfl
  | succ n ih =>
    by_cases hne : t = []
    · subst hne
      rfl
    by_cases hlf : (10 : UInt8) ∈ t
    · obtain ⟨piece, rest, he, hp⟩ := List.eq_append_cons_of_mem hlf
      subst he
      rw [openPart_line] at hopen
      have hcons : piece ++ 10 :: rest ++ u = piece ++ 10 :: (rest ++ u) := by
        rw [List.append_assoc, List.cons_append]
      have hlong : piece ++ 10 :: (rest ++ u) ≠ [] := by simp
      rw [lines, if_neg hne, cut_append hcut rest hp] at hopen
      rw [hcons, lines, lines, if_neg hne, if_neg hlong, cut_append hcut rest hp,
        cut_append hcut (rest ++ u) hp]
      simp only [List.length_append, List.length_cons] at hn
      dsimp only at hopen ⊢
      cases hx : R.extend s piece with
      | error e => rfl
      | ok s₁ =>
        rw [hx] at hopen
        simp only at hopen ⊢
        cases hl : R.complete s₁ with
        | error e => rfl
        | ok r =>
          obtain ⟨s₂, last⟩ := r
          rw [hl] at hopen
          cases last with
          | true => rfl
          | false =>
            simp only at hopen ⊢
            rw [ih (by rw [List.length_append]; omega) hopen]
            cases R.lines cut n s₂ rest with
            | error e => rfl
            | ok r =>
              obtain ⟨s₃, left⟩ := r
              cases left with
              | none => exact lines_bound hcut (by omega) (by omega)
              | some left => rfl
    · have hline : R.lines cut (n + 1) s t = (R.extend s t).map fun s' => (s', none) := by
        rw [lines, if_neg hne, cut_eq_none hcut hlf]
      cases hx : R.extend s t with
      | error e =>
        rw [lines_tooLong hcut hne hlf hx, hline, hx]
        rfl
      | ok s' =>
        rw [hline, hx] at hopen
        have hnul := hopen s' rfl
        rw [openPart_eq_self hlf] at hnul
        rw [hline, hx]
        show R.lines cut (n + 1) s (t ++ u) = R.lines cut (n + 1) s' u
        -- the rest goes on with the line of the text
        have hext : ∀ q, R.extend s (t ++ q) = R.extend s' q := fun q =>
          (R.extend_extend hnul hx).symm
        by_cases hu : u = []
        · subst hu
          rw [List.append_nil, hline, hx]
          rfl
        rw [lines, lines, if_neg hu, if_neg fun h => hne (List.append_eq_nil_iff.mp h).1]
        by_cases hlf' : (10 : UInt8) ∈ u
        · obtain ⟨piece, rest, he, hp⟩ := List.eq_append_cons_of_mem hlf'
          subst he
          have hpiece : (10 : UInt8) ∉ t ++ piece := fun h =>
            (List.mem_append.mp h).elim hlf hp
          rw [cut_append hcut rest hp, ← List.append_assoc, cut_append hcut rest hpiece]
          simp only [hext]
        · have hall : (10 : UInt8) ∉ t ++ u := fun h => (List.mem_append.mp h).elim hlf hlf'
          rw [cut_eq_none hcut hlf', cut_eq_none hcut hall]
          simp only [hext]

/-- What is left is a part of the text. -/
theorem lines_left (hcut : Cuts cut) {n : Nat} {s s' : σ} {text left : List UInt8}
    (h : R.lines cut n s text = .ok (s', some left)) : left.length ≤ text.length := by
  induction n generalizing s text with
  | zero => cases h
  | succ n ih =>
    rw [lines] at h
    split at h
    · cases h
    have hc := hcut text
    cases hct : cut text with
    | none =>
      rw [hct] at h
      simp only at h
      cases hx : R.extend s text with
      | error e => rw [hx] at h; cases h
      | ok s₁ => rw [hx] at h; cases h
    | some pr =>
      obtain ⟨piece, rest⟩ := pr
      rw [hct] at h hc
      simp only at h hc
      rw [hc.2, List.length_append, List.length_cons]
      cases hx : R.extend s piece with
      | error e => rw [hx] at h; cases h
      | ok s₁ =>
        rw [hx] at h
        simp only at h
        cases hl : R.complete s₁ with
        | error e => rw [hl] at h; cases h
        | ok r =>
          obtain ⟨s₂, last⟩ := r
          rw [hl] at h
          cases last with
          | true =>
            have hrest : rest = left := Option.some.inj (Prod.mk.inj (Except.ok.inj h)).2
            rw [hrest]
            omega
          | false =>
            have hleft := ih h
            omega

variable (R cut) in
/-- One call with a piece of the text. -/
def append (s : σ) (text : List UInt8) : Except ε (σ × Option Nat) :=
  (R.lines cut text.length s text).map fun r =>
    (r.1, r.2.map fun left => text.length - left.length)

/-- A call whose text has the end in it takes what comes before the end, byte by byte. -/
theorem append_front (hcut : Cuts cut) {s : σ} {t : List UInt8} (u : List UInt8)
    (hnul : (0 : UInt8) ∉ t) (hend : ∀ s', feed R.byte s t ≠ .ok (s', none)) :
    R.append cut s (t ++ u) = (feed R.byte s t).map
      fun r => (r.1, r.2.map fun rest => t.length - rest.length) := by
  rw [append, R.lines_append hcut (le_refl _) hnul hend]
  cases feed R.byte s t with
  | error e => rfl
  | ok r =>
    obtain ⟨s', rest⟩ := r
    cases rest with
    | none => rfl
    | some rest =>
      have hlen : (t ++ u).length - (rest ++ u).length = t.length - rest.length := by
        simp only [List.length_append]; omega
      show Except.ok (s', some ((t ++ u).length - (rest ++ u).length)) = _
      rw [hlen]
      rfl

variable (R cut) in
/-- What a line has and what it is given, each time that it grows. -/
def growths : Nat → σ → List UInt8 → List (Nat × Nat)
  | 0, _, _ => []
  | n + 1, s, text =>
    if text = [] then []
    else
      match cut text with
      | none => [((counted (R.line s)).length, text.length)]
      | some (piece, rest) =>
        ((counted (R.line s)).length, piece.length) ::
          match R.extend s piece with
          | .error _ => []
          | .ok s' =>
            match R.complete s' with
            | .ok (s'', false) => growths n s'' rest
            | _ => []

variable (R cut) in
/-- The growths of all calls, until one of them says that it is done. -/
def callGrowths : σ → List (List UInt8) → List (Nat × Nat)
  | _, [] => []
  | s, piece :: pieces =>
    R.growths cut piece.length s piece ++
      match R.append cut s piece with
      | .ok (s', none) => callGrowths s' pieces
      | _ => []

/-- A piece without a line end goes to the line as it is. -/
theorem append_open (hcut : Cuts cut) (s : σ) {text : List UInt8} (hnil : text ≠ [])
    (h : (10 : UInt8) ∉ text) :
    R.append cut s text = (R.extend s text).map fun s' => (s', none) := by
  obtain ⟨b, rest, rfl⟩ := List.exists_cons_of_ne_nil hnil
  rw [append, List.length_cons, lines, if_neg hnil, cut_eq_none hcut h]
  cases R.extend s (b :: rest) <;> rfl

theorem growths_open (hcut : Cuts cut) (s : σ) {text : List UInt8} (hnil : text ≠ [])
    (h : (10 : UInt8) ∉ text) :
    R.growths cut text.length s text = [((counted (R.line s)).length, text.length)] := by
  obtain ⟨b, rest, rfl⟩ := List.exists_cons_of_ne_nil hnil
  rw [List.length_cons, growths, if_neg hnil, cut_eq_none hcut h]
  rfl

/-- Each growth is that of a line of the text, and the line at its end is the one that the
reader has then. -/
theorem growths_held (hcut : Cuts cut) {I : σ → Prop}
    (hextend : ∀ s l, I s → I (R.setLine s l))
    (hcomplete : ∀ s s', I s → R.complete s = .ok (s', false) → I s' ∧ counted (R.line s') = [])
    {n : Nat} {s : σ} {line text : List UInt8} (hn : text.length ≤ n) (hs : I s)
    (hline : counted (R.line s) = counted line) :
    (∀ g ∈ R.growths cut n s text, ∃ held ∈ heldLines line text, held.length = g.1 + g.2) ∧
      ∀ s', R.lines cut n s text = .ok (s', none) →
        I s' ∧ counted (R.line s') = counted ((heldLines line text).getLastD []) := by
  induction n generalizing s line text with
  | zero =>
    obtain rfl : text = [] := List.eq_nil_of_length_eq_zero (by omega)
    refine ⟨fun g hg => (List.not_mem_nil hg).elim, fun s' h => ?_⟩
    rw [← (Prod.mk.inj (Except.ok.inj h)).1, heldLines_open line List.not_mem_nil, hline]
    simp [hs]
  | succ n ih =>
    have hextended : ∀ piece s₁, R.extend s piece = .ok s₁ →
        I s₁ ∧ R.line s₁ = counted line ++ piece := by
      intro piece s₁ h
      rw [extend] at h
      split at h
      · rw [← Except.ok.inj h, R.line_setLine, hline]
        exact ⟨hextend s _ hs, rfl⟩
      · cases h
    rw [growths, lines]
    by_cases hnil : text = []
    · subst hnil
      refine ⟨fun g hg => (List.not_mem_nil hg).elim, fun s' h => ?_⟩
      rw [← (Prod.mk.inj (Except.ok.inj h)).1, heldLines_open line List.not_mem_nil, hline]
      simp [hs]
    rw [if_neg hnil, if_neg hnil]
    have hc := hcut text
    cases hct : cut text with
    | none =>
      rw [hct] at hc
      rw [heldLines_open line hc]
      constructor
      · intro g hg
        refine ⟨_, List.mem_singleton_self _, ?_⟩
        rw [List.mem_singleton.mp hg, List.length_append, hline]
      · intro s' h
        cases hx : R.extend s text with
        | error e => rw [hx] at h; cases h
        | ok s₁ =>
          rw [hx] at h
          obtain ⟨hi, hl⟩ := hextended text s₁ hx
          rw [← (Prod.mk.inj (Except.ok.inj h)).1, hl]
          exact ⟨hi, rfl⟩
    | some pr =>
      obtain ⟨piece, rest⟩ := pr
      rw [hct] at hc
      obtain ⟨hlf, rfl⟩ := hc
      have hrest : rest.length ≤ n := by
        rw [List.length_append, List.length_cons] at hn
        omega
      rw [heldLines_line line rest hlf]
      have hfirst :
          (counted line ++ piece).length = (counted (R.line s)).length + piece.length := by
        rw [List.length_append, hline]
      simp only
      cases hx : R.extend s piece with
      | error e =>
        refine ⟨fun g hg => ⟨_, List.mem_cons_self, ?_⟩, fun s' h => by cases h⟩
        rw [List.mem_singleton.mp hg]
        exact hfirst
      | ok s₁ =>
        obtain ⟨hi, -⟩ := hextended piece s₁ hx
        simp only
        cases hl : R.complete s₁ with
        | error e =>
          refine ⟨fun g hg => ⟨_, List.mem_cons_self, ?_⟩, fun s' h => by cases h⟩
          rw [List.mem_singleton.mp hg]
          exact hfirst
        | ok r =>
          obtain ⟨s₂, last⟩ := r
          cases last with
          | true =>
            refine ⟨fun g hg => ⟨_, List.mem_cons_self, ?_⟩, fun s' h => by cases h⟩
            rw [List.mem_singleton.mp hg]
            exact hfirst
          | false =>
            obtain ⟨hi₂, hfresh⟩ : _ ∧ counted (R.line s₂) = counted [] := hcomplete s₁ s₂ hi hl
            obtain ⟨hgrowths, hlast⟩ := ih hrest hi₂ hfresh
            constructor
            · intro g hg
              rcases List.mem_cons.mp hg with rfl | hg
              · exact ⟨_, List.mem_cons_self, hfirst⟩
              · obtain ⟨held, hheld, hlen⟩ := hgrowths g hg
                exact ⟨held, List.mem_cons_of_mem _ hheld, hlen⟩
            · intro s' h
              have hne : heldLines [] rest ≠ [] := by
                rw [heldLines]
                cases hsplit : rest.splitOn 10 with
                | nil => exact absurd hsplit (List.splitOn_ne_nil 10 rest)
                | cons l ls => exact List.cons_ne_nil _ _
              obtain ⟨hi', hl'⟩ := hlast s' h
              refine ⟨hi', ?_⟩
              rw [hl']
              cases hheld : heldLines [] rest with
              | nil => exact absurd hheld hne
              | cons l ls => rfl

/-- Over all calls. -/
theorem callGrowths_held (hcut : Cuts cut) {I : σ → Prop}
    (hextend : ∀ s l, I s → I (R.setLine s l))
    (hcomplete : ∀ s s', I s → R.complete s = .ok (s', false) → I s' ∧ counted (R.line s') = [])
    {s : σ} {line : List UInt8} {pieces : List (List UInt8)} (hs : I s)
    (hline : counted (R.line s) = counted line) {g : Nat × Nat}
    (hg : g ∈ R.callGrowths cut s pieces) :
    ∃ held ∈ heldRun line pieces, held.length = g.1 + g.2 := by
  induction pieces generalizing s line with
  | nil => exact (List.not_mem_nil hg).elim
  | cons piece pieces ih =>
    obtain ⟨hgrowths, hlast⟩ := growths_held hcut hextend hcomplete (le_refl piece.length) hs hline
    rw [callGrowths] at hg
    rcases List.mem_append.mp hg with hg | hg
    · obtain ⟨held, hheld, hlen⟩ := hgrowths g hg
      exact ⟨held, List.mem_append_left _ hheld, hlen⟩
    · rw [append] at hg
      cases hl : R.lines cut piece.length s piece with
      | error e => rw [hl] at hg; exact (List.not_mem_nil hg).elim
      | ok r =>
        obtain ⟨s', left⟩ := r
        rw [hl] at hg
        cases left with
        | some left => exact (List.not_mem_nil hg).elim
        | none =>
          obtain ⟨hi, hl'⟩ := hlast s' hl
          obtain ⟨held, hheld, hlen⟩ := ih hi hl' hg
          exact ⟨held, List.mem_append_right _ hheld, hlen⟩

theorem append_split (hcut : Cuts cut) {s : σ} {t u : List UInt8}
    (hopen : ∀ s', R.append cut s t = .ok (s', none) → (0 : UInt8) ∉ openPart t) :
    R.append cut s (t ++ u) =
      match R.append cut s t with
      | .error e => .error e
      | .ok (s', some count) => .ok (s', some count)
      | .ok (s', none) => (R.append cut s' u).map fun r => (r.1, r.2.map (t.length + ·)) := by
  have hbound : ∀ s' (v : List UInt8), v.length ≤ (t ++ u).length →
      R.lines cut v.length s' v = R.lines cut (t ++ u).length s' v := fun s' v hv =>
    lines_bound hcut (le_refl _) hv
  have ht := hbound s t (by rw [List.length_append]; omega)
  have hu := fun s' => hbound s' u (by rw [List.length_append]; omega)
  unfold append at hopen ⊢
  rw [ht] at hopen ⊢
  rw [lines_split hcut (le_refl _) fun s' h => hopen s' (by rw [h]; rfl)]
  cases R.lines cut (t ++ u).length s t with
  | error e => rfl
  | ok r =>
    obtain ⟨s', left⟩ := r
    cases left with
    | some left =>
      have hlen : (t ++ u).length - (left ++ u).length = t.length - left.length := by
        simp only [List.length_append]; omega
      show Except.ok (s', some ((t ++ u).length - (left ++ u).length)) = _
      rw [hlen]
      rfl
    | none =>
      simp only [Except.map, Option.map_none, hu]
      cases hlu : R.lines cut (t ++ u).length s' u with
      | error e => rfl
      | ok r =>
        obtain ⟨s'', left⟩ := r
        cases left with
        | none => rfl
        | some left =>
          have hlen : (t ++ u).length - left.length = t.length + (u.length - left.length) := by
            have hleft := lines_left hcut hlu
            rw [List.length_append]
            omega
          show Except.ok (s'', some ((t ++ u).length - left.length)) = _
          rw [hlen]
          rfl

/-- Every clean cutting of a text comes to what the whole text does. -/
theorem calls_flatten (hcut : Cuts cut) {s : σ} {pieces : List (List UInt8)}
    (hclean : CutsClean (R.append cut) s pieces) :
    calls (R.append cut) s pieces = calls (R.append cut) s [pieces.flatten] := by
  induction pieces generalizing s with
  | nil => rfl
  | cons piece pieces ih =>
    by_cases hnil : pieces = []
    · subst hnil
      rw [List.flatten_cons, List.flatten_nil, List.append_nil]
    · rw [List.flatten_cons, calls, calls, append_split hcut fun s' h => (hclean s' h hnil).1]
      cases ha : R.append cut s piece with
      | error e => rfl
      | ok r =>
        obtain ⟨s', count⟩ := r
        cases count with
        | some count => rfl
        | none =>
          simp only
          rw [ih (hclean s' ha hnil).2, calls]
          cases R.append cut s' pieces.flatten with
          | error e => rfl
          | ok r =>
            obtain ⟨s'', count⟩ := r
            cases count with
            | some count => rfl
            | none => simp [Except.map, calls]

/-- A cut behind a zero: the line goes on without the bytes from the zero to the cut. -/
theorem calls_lost (hcut : Cuts cut) {s s' : σ} {p x q : List UInt8}
    (hp : (0 : UInt8) ∉ openPart p) (hx : (10 : UInt8) ∉ x) (hq : q ≠ [])
    (hcall : R.append cut s (p ++ 0 :: x) = .ok (s', none)) :
    calls (R.append cut) s [p ++ 0 :: x, q] =
      (calls (R.append cut) s [p ++ q]).map fun r => (r.1, x.length + 1 + r.2.1, r.2.2) := by
  have hopen : ∀ s', R.append cut s p = .ok (s', none) → (0 : UInt8) ∉ openPart p := fun _ _ => hp
  rw [append_split hcut hopen] at hcall
  rw [calls, calls, append_split hcut hopen, append_split hcut hopen]
  cases ha : R.append cut s p with
  | error e => rw [ha] at hcall; cases hcall
  | ok r =>
    obtain ⟨sₚ, count⟩ := r
    rw [ha] at hcall
    cases count with
    | some count => cases hcall
    | none =>
      simp only at hcall ⊢
      have hzero : (10 : UInt8) ∉ 0 :: x := by simpa using hx
      obtain ⟨s₁, hs₁, hrest⟩ : ∃ s₁, R.extend sₚ (0 :: x) = .ok s₁ ∧
          R.append cut sₚ (0 :: x) = .ok (s₁, none) := by
        have happend := append_open (R := R) hcut sₚ (List.cons_ne_nil 0 x) hzero
        rw [happend] at hcall ⊢
        cases hs₁ : R.extend sₚ (0 :: x) with
        | error e => rw [hs₁] at hcall; cases hcall
        | ok s₁ => exact ⟨s₁, rfl, rfl⟩
      rw [hrest] at hcall ⊢
      obtain rfl : s₁ = s' := (Prod.mk.inj (Except.ok.inj hcall)).1
      have hext : ∀ piece, R.extend s₁ piece = R.extend sₚ piece := by
        intro piece
        unfold extend at hs₁ ⊢
        split at hs₁
        · rw [← Except.ok.inj hs₁, R.line_setLine, counted_zero, R.setLine_setLine]
        · cases hs₁
      have hnext : R.append cut s₁ q = R.append cut sₚ q := by
        obtain ⟨b, tail, rfl⟩ := List.exists_cons_of_ne_nil hq
        simp only [append, List.length_cons, lines, if_neg (List.cons_ne_nil b tail), hext]
      have hlen : ∀ n, (p ++ 0 :: x).length + n = x.length + 1 + (p.length + n) := by
        intro n
        rw [List.length_append, List.length_cons]
        omega
      show (calls (R.append cut) s₁ [q]).map _ = _
      rw [calls, hnext]
      cases R.append cut sₚ q with
      | error e => rfl
      | ok r =>
        obtain ⟨s₂, count⟩ := r
        cases count with
        | none =>
          show Except.ok (s₂, (p ++ 0 :: x).length + q.length, false) =
            Except.ok (s₂, x.length + 1 + (p ++ q).length, false)
          rw [hlen, ← List.length_append]
        | some count => simp only [Except.map, hlen, Option.map_some]

end Cuts

end LineReader

end FilemanagerHttpd.Library
