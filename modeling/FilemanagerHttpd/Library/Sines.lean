import Mathlib

/-!
# Sines of whole numbers

The sine and the cosine of 1 are enclosed by a partial sum of the exponential series, and those
of the following numbers by the addition theorems, all in whole multiples of a small unit.
-/

namespace FilemanagerHttpd.Library

open Complex

/-- `n!` times the first `n` terms of the exponential series at the imaginary unit, and the
`n`-th power of the unit. -/
def expPartial : Nat → (ℤ × ℤ) × (ℤ × ℤ)
  | 0 => ((0, 0), (1, 0))
  | n + 1 =>
    let r := expPartial n
    (((n + 1) * (r.1.1 + r.2.1), (n + 1) * (r.1.2 + r.2.2)), (-r.2.2, r.2.1))

theorem expPartial_power (n : Nat) :
    I ^ n = ((expPartial n).2.1 : ℂ) + (expPartial n).2.2 * I := by
  induction n with
  | zero => simp [expPartial]
  | succ n ih =>
    have hI : I * I = -1 := I_mul_I
    rw [pow_succ, ih, expPartial]
    push_cast
    linear_combination ((expPartial n).2.2 : ℂ) * hI

theorem expPartial_sum (n : Nat) :
    (n.factorial : ℂ) * ∑ m ∈ Finset.range n, I ^ m / m.factorial =
      ((expPartial n).1.1 : ℂ) + (expPartial n).1.2 * I := by
  induction n with
  | zero => simp [expPartial]
  | succ n ih =>
    have hne : (n.factorial : ℂ) ≠ 0 := by exact_mod_cast n.factorial_ne_zero
    have hterm : (n.factorial : ℂ) * (I ^ n / n.factorial) =
        ((expPartial n).2.1 : ℂ) + (expPartial n).2.2 * I := by
      rw [mul_div_cancel₀ _ hne, expPartial_power]
    rw [Finset.sum_range_succ, Nat.factorial_succ, expPartial]
    push_cast
    linear_combination ((n : ℂ) + 1) * (ih + hterm)

/-- The partial sum is close to the cosine and the sine of 1. -/
theorem expPartial_near {n : Nat} (hn : 0 < n) :
    |n.factorial * Real.cos 1 - (expPartial n).1.1| ≤ 2 ∧
      |n.factorial * Real.sin 1 - (expPartial n).1.2| ≤ 2 := by
  have hbound := exp_bound (x := I) (by simp) hn
  have hfact : (0 : ℝ) < n.factorial := by exact_mod_cast n.factorial_pos
  have hpos : (1 : ℝ) ≤ n := by exact_mod_cast hn
  have hle :
      ‖(n.factorial : ℂ) * exp I - (((expPartial n).1.1 : ℂ) + (expPartial n).1.2 * I)‖ ≤ 2 := by
    rw [← expPartial_sum, ← mul_sub, norm_mul, Complex.norm_natCast]
    calc (n.factorial : ℝ) * ‖exp I - ∑ m ∈ Finset.range n, I ^ m / m.factorial‖
        ≤ n.factorial * (‖I‖ ^ n * ((n.succ : ℝ) * (n.factorial * n : ℝ)⁻¹)) := by gcongr
      _ = (n + 1) / n := by
        rw [norm_I, one_pow, Nat.cast_succ]
        field_simp
      _ ≤ 2 := by
        rw [div_le_iff₀ (by linarith)]
        linarith
  have hunit : I = ((1 : ℝ) : ℂ) * I := by rw [ofReal_one, one_mul]
  have hre : (exp I).re = Real.cos 1 := by
    rw [hunit, exp_ofReal_mul_I_re]
  have him : (exp I).im = Real.sin 1 := by
    rw [hunit, exp_ofReal_mul_I_im]
  constructor
  · have h := (abs_re_le_norm _).trans hle
    simpa [hre] using h
  · have h := (abs_im_le_norm _).trans hle
    simpa [him] using h

/-- The cosine and the sine of a number in multiples of a unit, with an error. -/
structure Near (scale : ℕ) (c s e : ℤ) (x : ℝ) : Prop where
  cos : |scale * Real.cos x - c| ≤ e
  sin : |scale * Real.sin x - s| ≤ e

section Turns

variable {scale : ℕ} {c s e c₁ s₁ e₁ : ℤ} {x : ℝ}

/-- A product of two of them, in the same unit. -/
theorem near_product {a b : ℝ} {p q : ℤ} (hscale : 0 < scale) (ha : |a| ≤ 1) (hq : |q| ≤ scale)
    (hp : |scale * a - p| ≤ e) (hqb : |scale * b - q| ≤ e₁) :
    |scale * (a * b) - (p * q : ℤ) / (scale : ℝ)| ≤ e + e₁ := by
  have hpos : (0 : ℝ) < scale := by exact_mod_cast hscale
  have hq' : |(q : ℝ)| ≤ scale := by exact_mod_cast hq
  have hsplit : scale * (a * b) - (p * q : ℤ) / (scale : ℝ) =
      a * (scale * b - q) + (scale * a - p) * (q / scale) := by
    push_cast
    field_simp
    ring
  have hratio : |(q : ℝ) / scale| ≤ 1 := by
    rw [abs_div, Nat.abs_cast, div_le_one hpos]
    exact hq'
  calc |scale * (a * b) - (p * q : ℤ) / (scale : ℝ)|
      = |a * (scale * b - q) + (scale * a - p) * (q / scale)| := by rw [hsplit]
    _ ≤ |a| * |scale * b - q| + |scale * a - p| * |(q : ℝ) / scale| := by
      rw [← abs_mul, ← abs_mul]
      exact abs_add_le _ _
    _ ≤ 1 * e₁ + e * 1 := by
      gcongr
      exact (abs_nonneg _).trans hp
    _ = e + e₁ := by ring

/-- Division with a remainder loses less than a unit. -/
theorem near_floor (hscale : 0 < scale) (a : ℤ) : |(a : ℝ) / scale - (a / scale : ℤ)| ≤ 1 := by
  have hpos : (0 : ℝ) < scale := by exact_mod_cast hscale
  have hdiv : (scale : ℤ) * (a / scale) + a % scale = a := Int.mul_ediv_add_emod a scale
  have hnonneg : 0 ≤ a % scale := Int.emod_nonneg a (by omega)
  have hlt : a % scale < scale := Int.emod_lt_of_pos a (by omega)
  have hdiv' : (scale : ℝ) * ((a / scale : ℤ) : ℝ) + ((a % scale : ℤ) : ℝ) = a := by
    exact_mod_cast hdiv
  have hnonneg' : (0 : ℝ) ≤ ((a % scale : ℤ) : ℝ) := by exact_mod_cast hnonneg
  have hlt' : ((a % scale : ℤ) : ℝ) < scale := by exact_mod_cast hlt
  have hrest : (a : ℝ) / scale - ((a / scale : ℤ) : ℝ) = ((a % scale : ℤ) : ℝ) / scale := by
    rw [← hdiv']
    field_simp
    ring
  rw [hrest, abs_of_nonneg (by positivity), div_le_one hpos]
  exact hlt'.le

/-- From a number to the next one. -/
theorem near_succ (hscale : 0 < scale) (hc₁ : |c₁| ≤ scale) (hs₁ : |s₁| ≤ scale)
    (h : Near scale c s e x) (h₁ : Near scale c₁ s₁ e₁ 1) :
    Near scale ((c * c₁ - s * s₁) / scale) ((s * c₁ + c * s₁) / scale) (2 * (e + e₁) + 1)
      (x + 1) := by
  have hcc := near_product hscale (Real.abs_cos_le_one x) hc₁ h.cos h₁.cos
  have hss := near_product hscale (Real.abs_sin_le_one x) hs₁ h.sin h₁.sin
  have hsc := near_product hscale (Real.abs_sin_le_one x) hc₁ h.sin h₁.cos
  have hcs := near_product hscale (Real.abs_cos_le_one x) hs₁ h.cos h₁.sin
  constructor
  · have hfloor := near_floor hscale (c * c₁ - s * s₁)
    rw [Real.cos_add]
    push_cast at hfloor hcc hss ⊢
    rw [sub_div] at hfloor
    rw [abs_le] at *
    constructor <;> linarith [hcc.1, hcc.2, hss.1, hss.2, hfloor.1, hfloor.2]
  · have hfloor := near_floor hscale (s * c₁ + c * s₁)
    rw [Real.sin_add]
    push_cast at hfloor hsc hcs ⊢
    rw [add_div] at hfloor
    rw [abs_le] at *
    constructor <;> linarith [hsc.1, hsc.2, hcs.1, hcs.2, hfloor.1, hfloor.2]

end Turns

section Entries

/-- Cosine and sine of 1, 2, 3 and so on from those of 1, with the errors. -/
def turns (scale : ℕ) (c₁ s₁ e₁ : ℤ) : Nat → ℤ × ℤ × ℤ
  | 0 => (c₁, s₁, e₁)
  | n + 1 =>
    let r := turns scale c₁ s₁ e₁ n
    ((r.1 * c₁ - r.2.1 * s₁) / scale, (r.2.1 * c₁ + r.1 * s₁) / scale, 2 * (r.2.2 + e₁) + 1)

theorem turns_near {scale : ℕ} {c₁ s₁ e₁ : ℤ} (hscale : 0 < scale) (hc₁ : |c₁| ≤ scale)
    (hs₁ : |s₁| ≤ scale) (h₁ : Near scale c₁ s₁ e₁ 1) (n : Nat) :
    Near scale (turns scale c₁ s₁ e₁ n).1 (turns scale c₁ s₁ e₁ n).2.1
      (turns scale c₁ s₁ e₁ n).2.2 (n + 1 : ℕ) := by
  induction n with
  | zero => simpa [turns] using h₁
  | succ n ih =>
    rw [Nat.cast_add (n + 1) 1, Nat.cast_one]
    exact near_succ hscale hc₁ hs₁ ih h₁

/-- The whole part of a sine that lies between two bounds. -/
theorem floor_sine {k : ℕ} {c s e : ℤ} {x : ℝ} {t : ℕ} (h : Near (2 ^ (32 + k)) c s e x)
    (hlow : t * 2 ^ k + e ≤ |s|) (hhigh : |s| + e < (t + 1) * 2 ^ k) :
    ⌊2 ^ 32 * |Real.sin x|⌋₊ = t := by
  have hpos : (0 : ℝ) < 2 ^ k := by positivity
  have hdist : abs (2 ^ (32 + k) * |Real.sin x| - |(s : ℝ)|) ≤ e := by
    have hsin := h.sin
    push_cast at hsin
    have hscale : |(2 : ℝ) ^ (32 + k)| = 2 ^ (32 + k) := abs_of_pos (by positivity)
    calc abs (2 ^ (32 + k) * |Real.sin x| - |(s : ℝ)|)
        = abs (|2 ^ (32 + k) * Real.sin x| - |(s : ℝ)|) := by rw [abs_mul, hscale]
      _ ≤ |2 ^ (32 + k) * Real.sin x - s| := abs_abs_sub_abs_le _ _
      _ ≤ e := hsin
  have hlow' : (t : ℝ) * 2 ^ k + e ≤ |(s : ℝ)| := by exact_mod_cast hlow
  have hhigh' : |(s : ℝ)| + e < (t + 1) * 2 ^ k := by exact_mod_cast hhigh
  have hsplit : (2 : ℝ) ^ (32 + k) * |Real.sin x| = 2 ^ 32 * |Real.sin x| * 2 ^ k := by ring
  rw [hsplit, abs_le] at hdist
  rw [Nat.floor_eq_iff (by positivity)]
  constructor
  · refine le_of_mul_le_mul_right ?_ hpos
    linarith
  · refine lt_of_mul_lt_mul_right ?_ hpos.le
    linarith

/-- The unit is `2 ^ -200`. -/
def unitCos : ℤ := 2 ^ 200 * (expPartial 50).1.1 / (50 : ℕ).factorial

def unitSin : ℤ := 2 ^ 200 * (expPartial 50).1.2 / (50 : ℕ).factorial

theorem unit_near : Near (2 ^ 200) unitCos unitSin 2 1 := by
  have hfact : 0 < (50 : ℕ).factorial := Nat.factorial_pos 50
  have hpos : (0 : ℝ) < (50 : ℕ).factorial := by exact_mod_cast hfact
  have hlarge : (2 : ℝ) * 2 ^ 200 ≤ (50 : ℕ).factorial := by
    have h : 2 * 2 ^ 200 ≤ (50 : ℕ).factorial := by decide +kernel
    exact_mod_cast h
  -- from the partial sum to the unit, and to a whole number of units
  have hunit : ∀ (a : ℝ) (p : ℤ), |(50 : ℕ).factorial * a - p| ≤ 2 →
      |(2 ^ 200 : ℕ) * a - ((2 ^ 200 * p / (50 : ℕ).factorial : ℤ) : ℝ)| ≤ (2 : ℤ) := by
    intro a p ha
    have hfloor := near_floor hfact (2 ^ 200 * p)
    have hscaled : |2 ^ 200 * a - ((2 ^ 200 * p : ℤ) : ℝ) / (50 : ℕ).factorial| ≤ 1 := by
      have heq : 2 ^ 200 * a - ((2 ^ 200 * p : ℤ) : ℝ) / (50 : ℕ).factorial =
          2 ^ 200 / (50 : ℕ).factorial * ((50 : ℕ).factorial * a - p) := by
        push_cast
        field_simp
        ring
      rw [heq, abs_mul, abs_of_pos (by positivity)]
      calc (2 : ℝ) ^ 200 / (50 : ℕ).factorial * |(50 : ℕ).factorial * a - p|
          ≤ 2 ^ 200 / (50 : ℕ).factorial * 2 := by gcongr
        _ ≤ 1 := by
          rw [div_mul_eq_mul_div, div_le_one hpos]
          linarith
    have htriangle := abs_sub_le (2 ^ 200 * a) (((2 ^ 200 * p : ℤ) : ℝ) / (50 : ℕ).factorial)
      ((2 ^ 200 * p / (50 : ℕ).factorial : ℤ) : ℝ)
    push_cast at hfloor hscaled htriangle ⊢
    linarith
  obtain ⟨hcos, hsin⟩ := expPartial_near (n := 50) (by decide)
  exact ⟨hunit _ _ hcos, hunit _ _ hsin⟩

/-- Whether a number is the whole part of `2 ^ 32` times a sine, by the enclosure. -/
def sineChecked (n t : ℕ) : Bool :=
  let r := turns (2 ^ 200) unitCos unitSin 2 n
  t * 2 ^ 168 + r.2.2 ≤ |r.2.1| && |r.2.1| + r.2.2 < (t + 1) * 2 ^ 168

theorem floor_of_checked {n t : ℕ} (h : sineChecked n t = true) :
    ⌊2 ^ 32 * |Real.sin (n + 1 : ℕ)|⌋₊ = t := by
  simp only [sineChecked, Bool.and_eq_true, decide_eq_true_eq] at h
  have hnear := @turns_near (2 ^ 200) unitCos unitSin 2 (by positivity) (by decide +kernel)
    (by decide +kernel) unit_near n
  exact floor_sine (k := 168) hnear h.1 h.2

end Entries

end FilemanagerHttpd.Library
