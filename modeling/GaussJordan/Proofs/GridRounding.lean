import GaussJordan.Rounding
import Mathlib.Tactic.Linarith
import Mathlib.Tactic.Ring

/-!
# GaussJordan.Proofs.GridRounding

Rounding to a number `p` of significant bits as rounding to a grid: the whole numbers that fit in
`p` bits.

* `roundToBits_mono`: rounding keeps the order of quotients. So a quotient on one side of a point of
  the grid stays there (`le_roundToBits`, `roundToBits_le`).
* `roundToBits_near`: the rounded value is at most half a grid step away.
* `FitsBits.gap`, `FitsBits.next`: how far apart neighbours on the grid are.
* `eq_of_roundToBits_div`, `lt_roundToBits_square`, `roundToBits_square_lt`: a rounded quotient is
  one for equal numbers only, and a rounded square moves away from one. So the rounded inverse of a
  complex value is one only for one itself (`one_of_inverse_parts`).
-/

namespace GaussJordan

/-! ## Whole numbers -/

theorem roundHalfEven_of_tie {num den k : Nat} (hd : 0 < den) (h : 2 * num = (2 * k + 1) * den) :
    roundHalfEven num den = k + k % 2 := by
  have hsplit : (2 * k + 1) * den = 2 * (den * k) + den := by ring
  have hnum : num = den * k + den / 2 := by omega
  have hdiv : num / den = k := by
    rw [hnum, Nat.mul_add_div hd, Nat.div_eq_of_lt (by omega), Nat.add_zero]
  have hmod : num % den = den / 2 := by
    rw [hnum, Nat.mul_add_mod, Nat.mod_eq_of_lt (by omega)]
  simp only [roundHalfEven, hdiv, hmod]
  rw [if_neg (by omega), if_neg (by omega)]

/-- A quotient less than half a unit away from a whole number is rounded to it. -/
theorem roundHalfEven_of_near {num den k : Nat} (hlow : 2 * (den * k) < 2 * num + den)
    (hhigh : 2 * num < 2 * (den * k) + den) : roundHalfEven num den = k := by
  have hd : 0 < den := by omega
  have ⟨habove, hbelow⟩ := roundHalfEven_near num den hd
  generalize roundHalfEven num den = r at *
  have hkr : den * k < den * (r + 1) := by
    rw [Nat.mul_add]
    omega
  have hrk : den * r < den * (k + 1) := by
    rw [Nat.mul_add]
    omega
  have hk := Nat.lt_of_mul_lt_mul_left hkr
  have hr := Nat.lt_of_mul_lt_mul_left hrk
  omega

/-- Rounding keeps the order of quotients. -/
theorem roundHalfEven_mono {a b c d : Nat} (hb : 0 < b) (hd : 0 < d) (h : a * d ≤ c * b) :
    roundHalfEven a b ≤ roundHalfEven c d := by
  by_contra hlt
  have hlow := (roundHalfEven_near a b hb).2
  have hhigh := (roundHalfEven_near c d hd).1
  generalize hr : roundHalfEven a b = r at *
  generalize hs : roundHalfEven c d = s at *
  -- both quotients lie half a unit above `s`, and a half goes to one neighbour only
  have hrs : s + 1 ≤ r := by omega
  have hab : (2 * s + 1) * b ≤ 2 * a := by
    have hmul := Nat.mul_le_mul_left b hrs
    linarith
  have hcd : 2 * c ≤ (2 * s + 1) * d := by linarith
  have hab' : 2 * a = (2 * s + 1) * b := by
    refine le_antisymm ?_ hab
    have hle : 2 * a * d ≤ (2 * s + 1) * b * d := by
      have hmul := Nat.mul_le_mul_right b hcd
      linarith
    exact Nat.le_of_mul_le_mul_right hle hd
  have hcd' : 2 * c = (2 * s + 1) * d := by
    refine le_antisymm hcd ?_
    have hle : (2 * s + 1) * d * b ≤ 2 * c * b := by
      have hmul := Nat.mul_le_mul_right d hab
      linarith
    exact Nat.le_of_mul_le_mul_right hle hb
  rw [roundHalfEven_of_tie hb hab'] at hr
  rw [roundHalfEven_of_tie hd hcd'] at hs
  omega

/-! ## The grid -/

variable {p : Nat}

theorem two_pow_pred (hp : 0 < p) : Nat.pow 2 p = 2 * Nat.pow 2 (p - 1) := by
  obtain ⟨l, rfl⟩ := Nat.exists_eq_add_of_lt hp
  rw [Nat.zero_add, Nat.add_sub_cancel]
  exact Nat.mul_comm (Nat.pow 2 l) 2

theorem gridStep_pos (p q : Nat) : 0 < Nat.pow 2 (gridShift p q) := Nat.two_pow_pos _

theorem gridShift_mono {q r : Nat} (h : q ≤ r) : gridShift p q ≤ gridShift p r := by
  have hlog : q.log2 ≤ r.log2 := by
    by_cases hq : q = 0
    · simp [hq]
    · exact (Nat.le_log2 (by omega)).2 (Nat.le_trans (Nat.log2_self_le hq) h)
  simp only [gridShift]
  omega

theorem lt_gridStep_mul (p u : Nat) : u < Nat.pow 2 p * Nat.pow 2 (gridShift p u) :=
  (Nat.div_lt_iff_lt_mul (gridStep_pos p u)).1 (div_gridStep_lt p u)

/-- Where the grid is coarser than the whole numbers, its step has the size of the last bit. -/
theorem gridStep_eq {u : Nat} (h : gridShift p u ≠ 0) (hp : 0 < p) :
    Nat.pow 2 (p - 1) * Nat.pow 2 (gridShift p u) = Nat.pow 2 u.log2 := by
  have hexp : u.log2 = p - 1 + gridShift p u := by
    simp only [gridShift] at h ⊢
    omega
  have hpow := Nat.pow_add 2 (p - 1) (gridShift p u)
  rw [← hexp] at hpow
  exact hpow.symm

theorem gridStep_le {u : Nat} (h : gridShift p u ≠ 0) (hp : 0 < p) :
    Nat.pow 2 (p - 1) * Nat.pow 2 (gridShift p u) ≤ u := by
  rw [gridStep_eq h hp]
  refine Nat.log2_self_le ?_
  intro hu
  rw [hu, gridShift, Nat.log2_zero] at h
  omega

/-- A coarse point of the grid is a number of `p` bits times the step. -/
theorem FitsBits.exists_factor {u : Nat} (hu : FitsBits p u) (h : gridShift p u ≠ 0) (hp : 0 < p) :
    ∃ k, u = k * Nat.pow 2 (gridShift p u) ∧ Nat.pow 2 (p - 1) ≤ k ∧ k < Nat.pow 2 p := by
  have hlt := lt_gridStep_mul p u
  have hle := gridStep_le h hp
  have hpos := gridStep_pos p u
  obtain ⟨k, hk⟩ := hu
  generalize Nat.pow 2 (gridShift p u) = step at *
  rw [Nat.mul_comm] at hk
  rw [hk] at hlt hle
  exact ⟨k, hk, Nat.le_of_mul_le_mul_right hle hpos, Nat.lt_of_mul_lt_mul_right hlt⟩

theorem fitsBits_two_pow (k : Nat) (hp : 0 < p) : FitsBits p (Nat.pow 2 k) := by
  have h := fitsBits_mul_two_pow (p := p) (k := 1) k Nat.one_le_two_pow hp
  rwa [Nat.one_mul] at h

/-- From `2 ^ (p - 1 + k)` on, the points of the grid are multiples of `2 ^ k`. -/
theorem FitsBits.two_pow_dvd {u k : Nat} (hu : FitsBits p u) (hp : 0 < p)
    (h : Nat.pow 2 (p - 1 + k) ≤ u) : Nat.pow 2 k ∣ u := by
  have hpos : 0 < Nat.pow 2 (p - 1 + k) := Nat.two_pow_pos _
  have hlog : p - 1 + k ≤ u.log2 := (Nat.le_log2 (by omega)).mpr h
  refine Nat.dvd_trans (Nat.pow_dvd_pow 2 ?_) hu
  simp only [gridShift]
  omega

/-- Being on the grid does not depend on powers of two. -/
theorem fitsBits_mul_two_pow_iff {u : Nat} (s : Nat) (hp : 0 < p) :
    FitsBits p (u * Nat.pow 2 s) ↔ FitsBits p u := by
  have hs : 0 < Nat.pow 2 s := Nat.two_pow_pos s
  have hsplit : Nat.pow 2 (gridShift p u + s) = Nat.pow 2 (gridShift p u) * Nat.pow 2 s :=
    Nat.pow_add 2 _ s
  constructor
  · intro h
    by_cases h0 : gridShift p u = 0
    · rw [FitsBits, h0]
      exact Nat.one_dvd u
    · have hu : u ≠ 0 := by
        rintro rfl
        exact h0 (Nat.sub_eq_zero_of_le hp)
      have hlog : u.log2 + s ≤ (u * Nat.pow 2 s).log2 := by
        rw [Nat.le_log2 (Nat.mul_ne_zero hu hs.ne'), Nat.pow_add]
        exact Nat.mul_le_mul_right _ (Nat.log2_self_le hu)
      have hshift : gridShift p u + s ≤ gridShift p (u * Nat.pow 2 s) := by
        simp only [gridShift] at h0 ⊢
        omega
      have hdvd := Nat.dvd_trans (Nat.pow_dvd_pow 2 hshift) h
      exact Nat.dvd_of_mul_dvd_mul_right hs (hsplit ▸ hdvd)
  · rintro ⟨k, hk⟩
    have hlt := lt_gridStep_mul p u
    have hstep := gridStep_pos p u
    have hfactor : k < Nat.pow 2 p := by
      generalize Nat.pow 2 (gridShift p u) = step at *
      rw [hk, Nat.mul_comm] at hlt
      exact Nat.lt_of_mul_lt_mul_right hlt
    have hfits := fitsBits_mul_two_pow (gridShift p u + s) (Nat.le_of_lt hfactor) hp
    rw [hsplit, ← Nat.mul_assoc, Nat.mul_comm k, ← hk] at hfits
    exact hfits

/-- The difference of two points of the grid, times `2 ^ p`, is at least the larger one. -/
theorem FitsBits.gap {u v : Nat} (hu : FitsBits p u) (hv : FitsBits p v) (h : u < v) :
    v ≤ Nat.pow 2 p * (v - u) := by
  have hlt := lt_gridStep_mul p u
  have hdvd : Nat.pow 2 (gridShift p u) ∣ v :=
    Nat.dvd_trans (Nat.pow_dvd_pow 2 (gridShift_mono (Nat.le_of_lt h))) hv
  obtain ⟨a, ha⟩ := hu
  obtain ⟨b, hb⟩ := hdvd
  generalize Nat.pow 2 (gridShift p u) = step at *
  generalize Nat.pow 2 p = limit at *
  subst ha hb
  have hab : a < b := Nat.lt_of_mul_lt_mul_left h
  have ha : a < limit := by
    rw [Nat.mul_comm limit] at hlt
    exact Nat.lt_of_mul_lt_mul_left hlt
  have hb : b ≤ limit * (b - a) := by
    obtain ⟨d, rfl⟩ := Nat.exists_eq_add_of_lt hab
    rw [show a + d + 1 - a = d + 1 by omega]
    have hmul := Nat.mul_le_mul_right (d + 1) ha
    linarith [Nat.zero_le (a * d)]
  calc step * b ≤ step * (limit * (b - a)) := Nat.mul_le_mul_left step hb
    _ = limit * (step * b - step * a) := by
      rw [← Nat.mul_sub]
      ring

/-- The next point of the grid. -/
theorem FitsBits.next {u : Nat} (hp : 0 < p) (hu : FitsBits p u) :
    FitsBits p (u + Nat.pow 2 (gridShift p u)) := by
  have hlt := lt_gridStep_mul p u
  obtain ⟨a, ha⟩ := hu
  have hsum : u + Nat.pow 2 (gridShift p u) = (a + 1) * Nat.pow 2 (gridShift p u) := by
    rw [Nat.add_mul, Nat.one_mul, Nat.mul_comm a, ← ha]
  rw [hsum]
  refine fitsBits_mul_two_pow _ ?_ hp
  generalize Nat.pow 2 (gridShift p u) = step at *
  subst ha
  rw [Nat.mul_comm step] at hlt
  exact Nat.lt_of_mul_lt_mul_right hlt

/-! ## Rounding to the grid -/

/-- A point of the grid is its own rounding. -/
theorem roundToBits_of_mul {u den : Nat} (hd : 0 < den) (h : FitsBits p u) :
    roundToBits p (u * den) den = u := by
  obtain ⟨k, hk⟩ := h
  have hstep := gridStep_pos p u
  simp only [roundToBits, Nat.mul_div_cancel _ hd]
  generalize Nat.pow 2 (gridShift p u) = step at *
  have hsplit : u * den = k * (den * step) := by rw [hk]; ring
  rw [hsplit, roundHalfEven_of_mul k _ (Nat.mul_pos hd hstep), hk, Nat.mul_comm]

/-- The rounded value is at most half a grid step away from the quotient. -/
theorem roundToBits_near (p num den : Nat) (hd : 0 < den) :
    2 * num ≤ 2 * (den * roundToBits p num den) + den * Nat.pow 2 (gridShift p (num / den)) ∧
      2 * (den * roundToBits p num den) ≤
        2 * num + den * Nat.pow 2 (gridShift p (num / den)) := by
  have hnear := roundHalfEven_near num (den * Nat.pow 2 (gridShift p (num / den)))
    (Nat.mul_pos hd (gridStep_pos p _))
  have hassoc : ∀ a b : Nat, den * (a * b) = den * b * a := fun a b => by ring
  simp only [roundToBits, hassoc]
  exact hnear

/-- A quotient less than half a grid step away from a point of the grid is rounded to it. The point
is not a power of two, below which the grid would be finer. -/
theorem roundToBits_of_near {num den k s : Nat} (hp : 0 < p) (hk : Nat.pow 2 (p - 1) < k)
    (hk' : k < Nat.pow 2 p)
    (hlow : 2 * (den * Nat.pow 2 s * k) < 2 * num + den * Nat.pow 2 s)
    (hhigh : 2 * num < 2 * (den * Nat.pow 2 s * k) + den * Nat.pow 2 s) :
    roundToBits p num den = k * Nat.pow 2 s := by
  have hstep : 0 < den * Nat.pow 2 s := by omega
  have hd : 0 < den := Nat.pos_of_mul_pos_right hstep
  have hbelow : Nat.pow 2 (p - 1 + s) ≤ num / den := by
    have hsplit : Nat.pow 2 (p - 1 + s) = Nat.pow 2 (p - 1) * Nat.pow 2 s := Nat.pow_add 2 _ s
    have hmul := Nat.mul_le_mul_left (den * Nat.pow 2 s) hk
    rw [Nat.le_div_iff_mul_le hd, hsplit]
    linarith
  have habove : num / den < Nat.pow 2 (p - 1 + s + 1) := by
    have hsplit : Nat.pow 2 (p - 1 + s + 1) = Nat.pow 2 p * Nat.pow 2 s := by
      rw [show p - 1 + s + 1 = p + s by omega]
      exact Nat.pow_add 2 p s
    have hmul := Nat.mul_le_mul_left (den * Nat.pow 2 s) hk'
    rw [Nat.div_lt_iff_lt_mul hd, hsplit]
    linarith
  have hq : num / den ≠ 0 := by
    have hpos : 0 < Nat.pow 2 (p - 1 + s) := Nat.two_pow_pos _
    omega
  have hshift : gridShift p (num / den) = s := by
    rw [gridShift, (Nat.log2_eq_iff hq).mpr ⟨hbelow, habove⟩]
    omega
  rw [roundToBits, hshift]
  simp only [roundHalfEven_of_near hlow hhigh]

/-- The rounded value is not beyond the next power of two. -/
theorem roundToBits_le_two_pow (p num den : Nat) :
    roundToBits p num den ≤ Nat.pow 2 (max p ((num / den).log2 + 1)) := by
  have hq := div_gridStep_lt p (num / den)
  have hle := roundHalfEven_le num (den * Nat.pow 2 (gridShift p (num / den)))
  rw [← Nat.div_div_eq_div_mul] at hle
  have hexp : max p ((num / den).log2 + 1) = p + gridShift p (num / den) := by
    simp only [gridShift]
    omega
  have hadd : Nat.pow 2 (p + gridShift p (num / den)) =
      Nat.pow 2 p * Nat.pow 2 (gridShift p (num / den)) := Nat.pow_add 2 _ _
  rw [hexp, hadd, roundToBits]
  exact Nat.mul_le_mul_right _ (by omega)

/-- The rounded value is not below the last power of two. -/
theorem two_pow_le_roundToBits {num den : Nat} (hp : 0 < p) (hq : num / den ≠ 0) :
    Nat.pow 2 (num / den).log2 ≤ roundToBits p num den := by
  have hle := le_roundHalfEven num (den * Nat.pow 2 (gridShift p (num / den)))
  have hself : Nat.pow 2 (num / den).log2 ≤ num / den := Nat.log2_self_le hq
  rw [← Nat.div_div_eq_div_mul] at hle
  rw [roundToBits]
  generalize num / den = q at *
  have hshift : gridShift p q ≤ q.log2 := by
    simp only [gridShift]
    omega
  have hsplit : Nat.pow 2 (q.log2 - gridShift p q) * Nat.pow 2 (gridShift p q) =
      Nat.pow 2 q.log2 := by
    have h := Nat.pow_add 2 (q.log2 - gridShift p q) (gridShift p q)
    rw [Nat.sub_add_cancel hshift] at h
    exact h.symm
  rw [← hsplit] at hself ⊢
  exact Nat.mul_le_mul_right _
    (Nat.le_trans ((Nat.le_div_iff_mul_le (gridStep_pos p q)).2 hself) hle)

/-- Rounding keeps the order of quotients. -/
theorem roundToBits_mono {a b c d : Nat} (hp : 0 < p) (hb : 0 < b) (hd : 0 < d)
    (h : a * d ≤ c * b) : roundToBits p a b ≤ roundToBits p c d := by
  have hq : a / b ≤ c / d := by
    rw [Nat.le_div_iff_mul_le hd]
    have h₁ : a / b * b ≤ a := Nat.div_mul_le_self a b
    have h₂ : a / b * d * b ≤ c * b := by
      have hmul := Nat.mul_le_mul_right d h₁
      linarith
    exact Nat.le_of_mul_le_mul_right h₂ hb
  rcases Nat.eq_or_lt_of_le (gridShift_mono (p := p) hq) with he | hlt
  · simp only [roundToBits, he]
    refine Nat.mul_le_mul_right _ (roundHalfEven_mono ?_ ?_ ?_)
    · exact Nat.mul_pos hb (gridStep_pos p _)
    · exact Nat.mul_pos hd (gridStep_pos p _)
    · generalize Nat.pow 2 (gridShift p (c / d)) = step
      have hmul := Nat.mul_le_mul_right step h
      linarith
  · -- a power of two lies between the two quotients
    have hlog : (a / b).log2 + 1 ≤ (c / d).log2 ∧ p < (c / d).log2 + 1 := by
      simp only [gridShift] at hlt
      omega
    have hne : c / d ≠ 0 := by
      intro hz
      rw [hz, Nat.log2_zero] at hlog
      omega
    refine Nat.le_trans (roundToBits_le_two_pow p a b) ?_
    refine Nat.le_trans ?_ (two_pow_le_roundToBits hp hne)
    exact Nat.pow_le_pow_right (by decide) (by omega)

/-- A point of the grid below a quotient stays below the rounded value. -/
theorem le_roundToBits {u num den : Nat} (hp : 0 < p) (hd : 0 < den) (hu : FitsBits p u)
    (h : u * den ≤ num) : u ≤ roundToBits p num den := by
  rw [← roundToBits_of_mul hd hu]
  exact roundToBits_mono hp hd hd (Nat.mul_le_mul_right den h)

theorem roundToBits_le {u num den : Nat} (hp : 0 < p) (hd : 0 < den) (hu : FitsBits p u)
    (h : num ≤ u * den) : roundToBits p num den ≤ u := by
  rw [← roundToBits_of_mul hd hu]
  exact roundToBits_mono hp hd hd (Nat.mul_le_mul_right den h)

theorem two_pow_mul_le {l m : Nat} (h : p + l ≤ m) :
    Nat.pow 2 p * Nat.pow 2 l ≤ Nat.pow 2 m := by
  have hadd : Nat.pow 2 (p + l) = Nat.pow 2 p * Nat.pow 2 l := Nat.pow_add 2 p l
  rw [← hadd]
  exact Nat.pow_le_pow_right (by decide) h

section

variable {x q k : Nat} (hp : 0 < p) (hpk : p ≤ k) (hx : FitsBits p x) (hq : FitsBits p q)
  (hpos : 0 < q) (h : roundToBits p (x * Nat.pow 2 k) q = Nat.pow 2 k)
include hp hpk hx hq hpos h

/-- Below one the grid is too fine for a quotient to be rounded to one. -/
theorem le_of_roundToBits_div : q ≤ x := by
  by_contra hge
  have hlt : x < q := Nat.lt_of_not_le hge
  have hone : 0 < Nat.pow 2 k := Nat.two_pow_pos k
  have hlog : p + gridShift p (x * Nat.pow 2 k / q) ≤ k := by
    have hsmall : x * Nat.pow 2 k / q < Nat.pow 2 k :=
      Nat.div_lt_of_lt_mul (Nat.mul_lt_mul_of_pos_right hlt hone)
    by_cases hz : x * Nat.pow 2 k / q = 0
    · rw [hz, gridShift, Nat.log2_zero]
      omega
    · have := (Nat.log2_lt hz).2 hsmall
      simp only [gridShift]
      omega
  have hstep := two_pow_mul_le hlog
  have hgap := hx.gap hq hlt
  have hfar := (roundToBits_near p (x * Nat.pow 2 k) q hpos).2
  rw [h] at hfar
  obtain ⟨d, rfl⟩ := Nat.exists_eq_add_of_lt hlt
  rw [show x + d + 1 - x = d + 1 by omega] at hgap
  generalize Nat.pow 2 (gridShift p (x * Nat.pow 2 k / (x + d + 1))) = step at *
  generalize Nat.pow 2 p = limit at *
  generalize Nat.pow 2 k = one at *
  have h₁ : 2 * (d + 1) * one ≤ (x + d + 1) * step := by linarith
  have h₂ : limit * (2 * (d + 1) * one) ≤ (x + d + 1) * one := by
    calc limit * (2 * (d + 1) * one) ≤ limit * ((x + d + 1) * step) :=
          Nat.mul_le_mul_left limit h₁
      _ = (x + d + 1) * (limit * step) := by ring
      _ ≤ (x + d + 1) * one := Nat.mul_le_mul_left _ hstep
  have h₃ : limit * (2 * (d + 1)) ≤ x + d + 1 := by
    refine Nat.le_of_mul_le_mul_right ?_ hone
    linarith
  linarith

/-- From one on it is too fine as well. -/
theorem ge_of_roundToBits_div : x ≤ q := by
  by_contra hle
  have hgt : q < x := Nat.lt_of_not_le hle
  have hone : 0 < Nat.pow 2 k := Nat.two_pow_pos k
  have hlog : p + gridShift p (x * Nat.pow 2 k / q) ≤ k + 1 := by
    by_cases hz : x * Nat.pow 2 k / q = 0
    · rw [hz, gridShift, Nat.log2_zero]
      omega
    · have hquot := two_pow_le_roundToBits hp hz
      rw [h] at hquot
      have := (Nat.pow_le_pow_iff_right (by decide : 1 < 2)).1 hquot
      simp only [gridShift]
      omega
  have hstep := two_pow_mul_le hlog
  have hgap := hq.gap hx hgt
  have hfar := (roundToBits_near p (x * Nat.pow 2 k) q hpos).1
  rw [h] at hfar
  obtain ⟨d, rfl⟩ := Nat.exists_eq_add_of_lt hgt
  rw [show q + d + 1 - q = d + 1 by omega] at hgap
  have htwo : Nat.pow 2 (k + 1) = 2 * Nat.pow 2 k := two_pow_pred (Nat.succ_pos k)
  rw [htwo] at hstep
  generalize Nat.pow 2 (gridShift p ((q + d + 1) * Nat.pow 2 k / q)) = step at *
  generalize Nat.pow 2 p = limit at *
  generalize Nat.pow 2 k = one at *
  have h₁ : 2 * (d + 1) * one ≤ q * step := by linarith
  have h₂ : limit * (2 * (d + 1) * one) ≤ q * (2 * one) := by
    calc limit * (2 * (d + 1) * one) ≤ limit * (q * step) := Nat.mul_le_mul_left limit h₁
      _ = q * (limit * step) := by ring
      _ ≤ q * (2 * one) := Nat.mul_le_mul_left q hstep
  have h₃ : limit * (d + 1) ≤ q := by
    refine Nat.le_of_mul_le_mul_right ?_ (Nat.mul_pos two_pos hone)
    linarith
  omega

/-- If the quotient of two points of the grid is rounded to one, the two are equal. -/
theorem eq_of_roundToBits_div : x = q :=
  Nat.le_antisymm (ge_of_roundToBits_div hp hpk hx hq hpos h)
    (le_of_roundToBits_div hp hpk hx hq hpos h)

end

/-- The square of a point of the grid above one is rounded to a larger point: it reaches the next
one. -/
theorem lt_roundToBits_square {x k : Nat} (hp : 0 < p) (hpk : p ≤ k) (hx : FitsBits p x)
    (h : Nat.pow 2 k < x) : x < roundToBits p (x * x) (Nat.pow 2 k) := by
  have hone : 0 < Nat.pow 2 k := Nat.two_pow_pos k
  have hlog : (Nat.pow 2 k).log2 = k := Nat.log2_two_pow
  have hlog' : k ≤ x.log2 := (Nat.le_log2 (by omega)).2 (Nat.le_of_lt h)
  have hunit := gridStep_eq (p := p) (u := Nat.pow 2 k) (by rw [gridShift, hlog]; omega) hp
  rw [hlog] at hunit
  have hlow := gridStep_le (p := p) (u := x) (by rw [gridShift]; omega) hp
  have hle : Nat.pow 2 (gridShift p (Nat.pow 2 k)) ≤ x - Nat.pow 2 k := by
    refine Nat.le_of_dvd (by omega) (Nat.dvd_sub (Nat.dvd_trans ?_ hx) (fitsBits_two_pow k hp))
    exact Nat.pow_dvd_pow 2 (gridShift_mono (Nat.le_of_lt h))
  refine Nat.lt_of_lt_of_le (Nat.lt_add_of_pos_right (gridStep_pos p x))
    (le_roundToBits hp hone (hx.next hp) ?_)
  obtain ⟨e, rfl⟩ := Nat.exists_eq_add_of_lt h
  rw [show Nat.pow 2 k + e + 1 - Nat.pow 2 k = e + 1 by omega] at hle
  generalize Nat.pow 2 (gridShift p (Nat.pow 2 k + e + 1)) = step at *
  generalize Nat.pow 2 (gridShift p (Nat.pow 2 k)) = unit at *
  generalize Nat.pow 2 (p - 1) = half at *
  generalize Nat.pow 2 k = one at *
  have h₁ : step * one ≤ (one + e + 1) * (e + 1) := by
    calc step * one = half * step * unit := by rw [← hunit]; ring
      _ ≤ (one + e + 1) * (e + 1) := Nat.mul_le_mul hlow hle
  linarith

/-- A number below one whose square is rounded back to it is at most half a step above that
square. -/
theorem mul_gap_le_of_roundToBits_square {x d k : Nat} (hk : Nat.pow 2 k = x + d + 1)
    (h : roundToBits p (x * x) (Nat.pow 2 k) = x) :
    2 * (x * (d + 1)) ≤ (x + d + 1) * Nat.pow 2 (gridShift p x) := by
  have hone : 0 < Nat.pow 2 k := Nat.two_pow_pos k
  have hnear := (roundToBits_near p (x * x) (Nat.pow 2 k) hone).2
  have hquot : x * x / Nat.pow 2 k ≤ x :=
    Nat.div_le_of_le_mul (Nat.mul_le_mul_right x (by omega))
  have hstep : Nat.pow 2 (gridShift p (x * x / Nat.pow 2 k)) ≤ Nat.pow 2 (gridShift p x) :=
    Nat.pow_le_pow_right (by decide) (gridShift_mono hquot)
  rw [h] at hnear
  rw [hk] at hnear hstep
  have hmul := Nat.mul_le_mul_left (x + d + 1) hstep
  linarith

/-- The square of a point of the grid between zero and one is rounded to a smaller point. -/
theorem roundToBits_square_lt {x k : Nat} (hp : 1 < p) (hpk : p ≤ k) (hx : FitsBits p x)
    (hpos : 0 < x) (h : x < Nat.pow 2 k) : roundToBits p (x * x) (Nat.pow 2 k) < x := by
  refine Nat.lt_of_le_of_ne ?_ fun heq => ?_
  · have hone : 0 < Nat.pow 2 k := Nat.two_pow_pos k
    exact roundToBits_le (by omega) hone hx (Nat.mul_le_mul_left x (Nat.le_of_lt h))
  obtain ⟨d, hd⟩ := Nat.exists_eq_add_of_lt h
  have hfar := mul_gap_le_of_roundToBits_square hd heq
  have htwo : Nat.pow 2 p = 2 * Nat.pow 2 (p - 1) := two_pow_pred (by omega)
  have hhalf : Nat.pow 2 1 ≤ Nat.pow 2 (p - 1) := Nat.pow_le_pow_right (by decide) (by omega)
  change 2 ≤ Nat.pow 2 (p - 1) at hhalf
  have hlimit : Nat.pow 2 p ≤ Nat.pow 2 k := Nat.pow_le_pow_right (by decide) hpk
  rw [hd, htwo] at hlimit
  by_cases hshift : gridShift p x = 0
  · rw [hshift] at hfar
    change 2 * (x * (d + 1)) ≤ (x + d + 1) * 1 at hfar
    have hmul := Nat.mul_le_mul_right d hpos
    linarith
  · -- then the square lies halfway to the next lower point, and `x` is a power of two
    have hgap := hx.gap (fitsBits_two_pow k (by omega)) h
    rw [hd, show x + d + 1 - x = d + 1 by omega, htwo] at hgap
    have hdouble : Nat.pow 2 (x.log2 + 1) ≤ Nat.pow 2 k :=
      Nat.pow_le_pow_right (by decide) ((Nat.log2_lt (by omega)).2 h)
    have hsucc : Nat.pow 2 (x.log2 + 1) = 2 * Nat.pow 2 x.log2 :=
      two_pow_pred (Nat.succ_pos x.log2)
    rw [hsucc, hd, ← gridStep_eq hshift (by omega)] at hdouble
    have hlow := gridStep_le hshift (by omega)
    generalize Nat.pow 2 (gridShift p x) = grid at *
    generalize Nat.pow 2 (p - 1) = half at *
    have hscaled := Nat.mul_le_mul_left half hfar
    have h₁ : 2 * half * (d + 1) ≤ x + d + 1 := by
      have hmul := Nat.mul_le_mul_left (x + d + 1) hlow
      refine Nat.le_of_mul_le_mul_right ?_ hpos
      linarith
    have h₂ : x ≤ half * grid := by
      have hmul := Nat.mul_le_mul_right x hgap
      refine Nat.le_of_mul_le_mul_left ?_ (Nat.lt_of_lt_of_le hpos (by omega : x ≤ x + d + 1))
      linarith
    have h₃ : x ≤ d + 1 := by linarith
    have hmul := Nat.mul_le_mul_right (d + 1) hhalf
    linarith

/-- If both parts of the inverse of `x + y i` are rounded to those of one, `x` is one and `y` is
zero. Here `q` is the rounded sum of the rounded squares, by which the parts are divided. -/
theorem one_of_inverse_parts {x y q k : Nat} (hp : 1 < p) (hpk : p ≤ k) (hx : FitsBits p x)
    (hq : q = roundToBits p
      (roundToBits p (x * x) (Nat.pow 2 k) + roundToBits p (y * y) (Nat.pow 2 k)) 1)
    (hpos : 0 < q) (hre : roundToBits p (x * Nat.pow 2 k) q = Nat.pow 2 k)
    (him : 2 * (y * Nat.pow 2 k) ≤ q) : x = Nat.pow 2 k ∧ y = 0 := by
  have hp' : 0 < p := by omega
  have hone : 0 < Nat.pow 2 k := Nat.two_pow_pos k
  have hfits : FitsBits p q := by
    rw [hq]
    exact roundToBits_fits _ _ hp'
  obtain rfl := eq_of_roundToBits_div hp' hpk hx hfits hpos hre
  have hsquare : roundToBits p (x * x) (Nat.pow 2 k) ≤ x := by
    refine Nat.le_trans (le_roundToBits hp' Nat.one_pos (roundToBits_fits _ _ hp') ?_)
      (Nat.le_of_eq hq.symm)
    omega
  have hle : x ≤ Nat.pow 2 k := by
    refine Nat.le_of_not_lt fun hlt => ?_
    have hgrows := lt_roundToBits_square hp' hpk hx hlt
    omega
  have hy : y = 0 := by
    refine Nat.eq_zero_of_not_pos fun hy => ?_
    have hmul := Nat.mul_le_mul_right (Nat.pow 2 k) hy
    omega
  refine ⟨Nat.le_antisymm hle (Nat.le_of_not_lt fun hlt => ?_), hy⟩
  -- without an imaginary part the sum is the square alone, and that is too small
  have hshrinks := roundToBits_square_lt hp hpk hx hpos hlt
  have hzero : roundToBits p (0 * 0) (Nat.pow 2 k) = 0 := by
    have hexact := roundToBits_of_mul (p := p) (u := 0) hone ⟨0, rfl⟩
    rwa [Nat.zero_mul] at hexact
  rw [hy, hzero, Nat.add_zero, roundToBits_of_fits (roundToBits_fits _ _ hp')] at hq
  omega

end GaussJordan
