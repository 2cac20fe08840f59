import FilemanagerHttpd.Library.Digits

/-!
# The chunked coding of a byte stream

A chunk is its size in hexadecimal, a line end, its bytes and another line end. A
chunk of size zero with an empty trailer ends the stream. The decoder knows nothing
of how the encoder cut the stream.
-/

namespace FilemanagerHttpd.Library.Chunked

def eol : List UInt8 := [13, 10]

def sizeLine (n : Nat) : List UInt8 := digits 16 n ++ eol

def chunk (data : List UInt8) : List UInt8 := sizeLine data.length ++ data ++ eol

/-- The chunk of size zero, with an empty trailer. -/
def last : List UInt8 := sizeLine 0 ++ eol

def chunks (cs : List (List UInt8)) : List UInt8 := cs.flatMap chunk

def encode (cs : List (List UInt8)) : List UInt8 := chunks cs ++ last

/-- Drop an expected prefix. -/
def expect (p s : List UInt8) : Option (List UInt8) :=
  if p.isPrefixOf s then some (s.drop p.length) else none

/-- Read chunks up to the last one, which must end the text. -/
def decodeUpTo : Nat → List UInt8 → Option (List UInt8)
  | 0, _ => none
  | fuel + 1, s =>
    let size := s.takeWhile (isDigit 16)
    if size = [] then none
    else do
      let s ← expect eol (s.dropWhile (isDigit 16))
      let n := digitsVal 16 size
      if n = 0 then if s = eol then some [] else none
      else if s.length < n then none
      else do
        let rest ← expect eol (s.drop n)
        let data ← decodeUpTo fuel rest
        return s.take n ++ data

/-- Each chunk takes at least one byte, so the length bounds their number. -/
def decode (s : List UInt8) : Option (List UInt8) := decodeUpTo (s.length + 1) s

@[simp] theorem expect_append (p s : List UInt8) : expect p (p ++ s) = some s := by
  simp [expect]

@[simp] theorem chunks_nil : chunks [] = [] := rfl

theorem chunks_snoc (cs : List (List UInt8)) (c : List UInt8) :
    chunks (cs ++ [c]) = chunks cs ++ chunk c := by
  simp [chunks]

theorem not_isDigit_cr : isDigit 16 13 = false := by decide

/-- What a size line leads with, and what follows it. -/
theorem read_sizeLine (n : Nat) (rest : List UInt8) :
    (sizeLine n ++ rest).takeWhile (isDigit 16) = digits 16 n ∧
      (sizeLine n ++ rest).dropWhile (isDigit 16) = eol ++ rest := by
  have h := takeWhile_digits (by decide) (by decide) n (10 :: rest) not_isDigit_cr
  simpa [sizeLine, eol] using h

theorem decodeUpTo_last (fuel : Nat) : decodeUpTo (fuel + 1) last = some [] := by
  obtain ⟨ht, hd⟩ := read_sizeLine 0 eol
  simp only [decodeUpTo, last, ht, hd, digits_ne_nil, if_false, expect_append,
    digitsVal_digits (by decide : 1 < 16) (le_refl 16), Option.bind_eq_bind, Option.bind_some,
    if_true]

theorem decodeUpTo_chunk (fuel : Nat) {c : List UInt8} (hc : c ≠ []) (rest : List UInt8) :
    decodeUpTo (fuel + 1) (chunk c ++ rest) = (decodeUpTo fuel rest).map (c ++ ·) := by
  have he : chunk c ++ rest = sizeLine c.length ++ (c ++ (eol ++ rest)) := by
    simp [chunk]
  obtain ⟨ht, hd⟩ := read_sizeLine c.length (c ++ (eol ++ rest))
  have hlen : ¬ (c ++ (eol ++ rest)).length < c.length := by simp
  have hne : ¬ c.length = 0 := by simpa using hc
  simp only [he, decodeUpTo, ht, hd, digits_ne_nil, if_false, expect_append,
    digitsVal_digits (by decide : 1 < 16) (le_refl 16), Option.bind_eq_bind, Option.bind_some,
    hne, hlen, List.drop_left, List.take_left]
  cases decodeUpTo fuel rest <;> rfl

theorem decodeUpTo_encode {cs : List (List UInt8)} (hcs : ∀ c ∈ cs, c ≠ []) {fuel : Nat}
    (hf : cs.length < fuel) : decodeUpTo fuel (encode cs) = some cs.flatten := by
  induction cs generalizing fuel with
  | nil =>
    obtain ⟨fuel, rfl⟩ : ∃ m, fuel = m + 1 := ⟨fuel - 1, by simp at hf; omega⟩
    exact decodeUpTo_last fuel
  | cons c cs ih =>
    obtain ⟨fuel, rfl⟩ : ∃ m, fuel = m + 1 := ⟨fuel - 1, by omega⟩
    have he : encode (c :: cs) = chunk c ++ encode cs := by simp [encode, chunks]
    rw [he, decodeUpTo_chunk fuel (hcs c (by simp)),
      ih (fun d hd => hcs d (by simp [hd])) (by simp at hf; omega)]
    rfl

theorem length_le_encode (cs : List (List UInt8)) : cs.length ≤ (encode cs).length := by
  induction cs with
  | nil => simp
  | cons c cs ih =>
    have he : encode (c :: cs) = chunk c ++ encode cs := by simp [encode, chunks]
    have hpos : 1 ≤ (chunk c).length := by simp [chunk, eol]; omega
    rw [he, List.length_append, List.length_cons]; omega

/-- Decoding undoes the coding, however the stream was cut into chunks. -/
theorem decode_encode {cs : List (List UInt8)} (hcs : ∀ c ∈ cs, c ≠ []) :
    decode (encode cs) = some cs.flatten :=
  decodeUpTo_encode hcs (by have := length_le_encode cs; omega)

end FilemanagerHttpd.Library.Chunked
