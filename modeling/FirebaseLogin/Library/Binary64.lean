import Mathlib.Tactic.Ring
import Mathlib.Tactic.Linarith
import Mathlib.Tactic.Positivity
import Mathlib.Tactic.NormNum
import Mathlib.Data.Nat.Log
import Mathlib.Algebra.Order.Ring.Int

/-!
Double-precision numbers as exact integers. A 64-bit word that is not a NaN
stands for a whole number of units of 2^-1074; an infinity gets the first number
of units that no finite word reaches. Casts from and to whole numbers are the
truncation and the rounding to nearest, ties to even; the exact cast exists where
a finite word equals the number, and is then the only such word of its sign.
-/

namespace Binary64

abbrev Word := BitVec 64

def exponent (d : Word) : Nat := d.toNat / 2 ^ 52 % 2 ^ 11

def fraction (d : Word) : Nat := d.toNat % 2 ^ 52

def significand (d : Word) : Nat :=
  if exponent d = 0 then fraction d else 2 ^ 52 + fraction d

def isNaN (d : Word) : Bool := exponent d == 2047 && fraction d != 0

/-- The number one has `2 ^ shift` units. -/
def shift : Nat := 1074

def unitsPerOne : Int := 2 ^ shift

def magnitude (d : Word) : Nat := significand d * 2 ^ (exponent d - 1)

def units (d : Word) : Int := if d.msb then -(magnitude d : Int) else magnitude d

/-- The number of units, none for a NaN. -/
def decode (d : Word) : Option Int := if isNaN d then none else some (units d)

def truncate (u : Int) : Int := u.tdiv unitsPerOne

/-- A whole number rounded to a significand of 53 bits. -/
def nearest (n : Nat) : Nat :=
  let unit := 2 ^ (n.log2 + 1 - 53)
  let q := n / unit
  let r := n % unit
  (if unit < 2 * r ∨ 2 * r = unit ∧ q % 2 = 1 then q + 1 else q) * unit

def ofInt (i : Int) : Int := if i < 0 then -(nearest i.natAbs : Int) else nearest i.natAbs

/-- The word with the given sign, biased exponent and fraction. -/
def word (negative : Bool) (e f : Nat) : Word :=
  BitVec.ofNat 64 ((if negative then 2 ^ 63 else 0) + e * 2 ^ 52 + f)

/-- The word of a whole number, none where no finite word equals it. -/
def exactly (i : Int) : Option Word :=
  let e := i.natAbs.log2
  if i = 0 then some 0
  else if e ≤ 1023 ∧ 2 ^ e ∣ i.natAbs * 2 ^ 52 then
    some (word (decide (i < 0)) (1023 + e) (i.natAbs * 2 ^ 52 / 2 ^ e - 2 ^ 52))
  else none

/-- The word is finite and equal to the whole number, zero with the positive sign. -/
def Represents (d : Word) (i : Int) : Prop :=
  exponent d < 2047 ∧ units d = i * unitsPerOne ∧ d.msb = decide (i < 0)

theorem unitsPerOne_pos : 0 < unitsPerOne := by
  unfold unitsPerOne
  positivity

theorem significand_lt (d : Word) : significand d < 2 ^ 53 := by
  have hfraction : fraction d < 2 ^ 52 := Nat.mod_lt _ (by norm_num)
  unfold significand
  split <;> omega

/-- What 53 bits hold is not changed by rounding. -/
theorem nearest_eq_self {m k : Nat} (h : m < 2 ^ 53) : nearest (m * 2 ^ k) = m * 2 ^ k := by
  have hdvd : 2 ^ ((m * 2 ^ k).log2 + 1 - 53) ∣ m * 2 ^ k := by
    have hlt : m * 2 ^ k < 2 ^ (53 + k) := by
      rw [Nat.pow_add]
      exact Nat.mul_lt_mul_of_pos_right h (by positivity)
    have hexp : (m * 2 ^ k).log2 + 1 - 53 ≤ k := by
      by_cases hzero : m * 2 ^ k = 0
      · simp [hzero]
      · have := (Nat.log2_lt hzero).mpr hlt
        omega
    exact (Nat.pow_dvd_pow 2 hexp).trans (Nat.dvd_mul_left _ _)
  have hunit : 0 < 2 ^ ((m * 2 ^ k).log2 + 1 - 53) := by positivity
  simp only [nearest, Nat.mod_eq_zero_of_dvd hdvd]
  rw [if_neg (by omega), Nat.div_mul_cancel hdvd]

theorem nearest_magnitude (d : Word) :
    nearest (magnitude d / 2 ^ shift) = magnitude d / 2 ^ shift := by
  have hsignificand := significand_lt d
  rw [magnitude]
  generalize exponent d - 1 = k
  by_cases hk : shift ≤ k
  · obtain ⟨j, rfl⟩ := Nat.exists_eq_add_of_le hk
    have hdiv : significand d * 2 ^ (shift + j) / 2 ^ shift = significand d * 2 ^ j := by
      rw [Nat.pow_add, show significand d * (2 ^ shift * 2 ^ j) =
        significand d * 2 ^ j * 2 ^ shift by ring]
      exact Nat.mul_div_cancel _ (by positivity)
    rw [hdiv]
    exact nearest_eq_self hsignificand
  · -- below one unit of the significand the whole part has at most 53 bits
    have hle : significand d * 2 ^ k / 2 ^ shift ≤ significand d := by
      refine Nat.div_le_of_le_mul ?_
      rw [Nat.mul_comm]
      exact Nat.mul_le_mul_right _ (Nat.pow_le_pow_right (by norm_num) (by omega))
    simpa using nearest_eq_self (k := 0) (lt_of_le_of_lt hle hsignificand)

theorem natAbs_units (d : Word) : (units d).natAbs = magnitude d := by
  unfold units
  split <;> simp

theorem natAbs_truncate (d : Word) : (truncate (units d)).natAbs = magnitude d / 2 ^ shift := by
  have htwo : (2 : Int).natAbs = 2 := rfl
  rw [truncate, Int.natAbs_tdiv, natAbs_units, unitsPerOne, Int.natAbs_pow, htwo]
  rfl

/-- The whole part of a double is itself a double. -/
theorem ofInt_truncate (d : Word) : ofInt (truncate (units d)) = truncate (units d) := by
  have hnearest : nearest (truncate (units d)).natAbs = (truncate (units d)).natAbs := by
    rw [natAbs_truncate, nearest_magnitude]
  unfold ofInt
  rw [hnearest]
  split <;> omega

theorem truncate_lt (u : Int) : u < (truncate u + 1) * unitsPerOne := by
  have hmod := Int.tmod_lt_of_pos u unitsPerOne_pos
  have hsum := Int.tdiv_mul_add_tmod u unitsPerOne
  rw [truncate, add_mul, one_mul]
  linarith

theorem lt_truncate (u : Int) : (truncate u - 1) * unitsPerOne < u := by
  have hmod : -unitsPerOne < u.tmod unitsPerOne := by
    have := Int.lt_tmod_of_pos u unitsPerOne_pos
    omega
  have hsum := Int.tdiv_mul_add_tmod u unitsPerOne
  rw [truncate, sub_mul, one_mul]
  linarith

section Word

variable {negative : Bool} {e f : Nat}

theorem toNat_word (he : e < 2 ^ 11) (hf : f < 2 ^ 52) :
    (word negative e f).toNat = (if negative then 2 ^ 63 else 0) + e * 2 ^ 52 + f := by
  rw [word, BitVec.toNat_ofNat, Nat.mod_eq_of_lt]
  split <;> omega

theorem exponent_word (he : e < 2 ^ 11) (hf : f < 2 ^ 52) : exponent (word negative e f) = e := by
  rw [exponent, toNat_word he hf]
  split <;> omega

theorem fraction_word (he : e < 2 ^ 11) (hf : f < 2 ^ 52) : fraction (word negative e f) = f := by
  rw [fraction, toNat_word he hf]
  split <;> omega

theorem msb_word (he : e < 2 ^ 11) (hf : f < 2 ^ 52) : (word negative e f).msb = negative := by
  rw [BitVec.msb_eq_decide, toNat_word he hf]
  cases negative <;> simp <;> omega

/-- A word is its sign, its exponent and its fraction. -/
theorem eq_of_fields {d d' : Word} (hsign : d.msb = d'.msb) (hexponent : exponent d = exponent d')
    (hfraction : fraction d = fraction d') : d = d' := by
  apply BitVec.eq_of_toNat_eq
  rw [BitVec.msb_eq_decide, BitVec.msb_eq_decide, decide_eq_decide] at hsign
  have hd := d.isLt
  have hd' := d'.isLt
  simp only [exponent, fraction] at hexponent hfraction
  norm_num at hsign
  omega

end Word

theorem magnitude_lt (d : Word) : magnitude d < 2 ^ 53 * 2 ^ (exponent d - 1) :=
  Nat.mul_lt_mul_of_pos_right (significand_lt d) (by positivity)

/-- A larger exponent is a larger number. -/
theorem magnitude_lt_of_exponent_lt {d d' : Word} (h : exponent d < exponent d') :
    magnitude d < magnitude d' := by
  have hnormal : 2 ^ 52 ≤ significand d' := by
    rw [significand, if_neg (by omega)]
    exact Nat.le_add_right _ _
  have hbelow : magnitude d < 2 ^ 52 * 2 ^ (exponent d' - 1) := by
    by_cases hzero : exponent d = 0
    · have hfraction : fraction d < 2 ^ 52 := Nat.mod_lt _ (by norm_num)
      calc magnitude d = fraction d := by simp [magnitude, significand, hzero]
        _ < 2 ^ 52 := hfraction
        _ ≤ 2 ^ 52 * 2 ^ (exponent d' - 1) := Nat.le_mul_of_pos_right _ (by positivity)
    · calc magnitude d < 2 ^ 53 * 2 ^ (exponent d - 1) := magnitude_lt d
        _ = 2 ^ 52 * 2 ^ (exponent d - 1 + 1) := by rw [Nat.pow_succ]; ring
        _ ≤ 2 ^ 52 * 2 ^ (exponent d' - 1) :=
            Nat.mul_le_mul_left _ (Nat.pow_le_pow_right (by norm_num) (by omega))
  exact hbelow.trans_le (Nat.mul_le_mul_right _ hnormal)

theorem eq_of_magnitude {d d' : Word} (hsign : d.msb = d'.msb)
    (h : magnitude d = magnitude d') : d = d' := by
  have hexponent : exponent d = exponent d' := by
    obtain hlt | heq | hgt := Nat.lt_trichotomy (exponent d) (exponent d')
    · exact absurd h (magnitude_lt_of_exponent_lt hlt).ne
    · exact heq
    · exact absurd h (magnitude_lt_of_exponent_lt hgt).ne'
  refine eq_of_fields hsign hexponent ?_
  have hsignificand : significand d = significand d' := by
    rw [magnitude, magnitude, hexponent] at h
    exact Nat.eq_of_mul_eq_mul_right (by positivity) h
  simp only [significand, hexponent] at hsignificand
  split at hsignificand
  · exact hsignificand
  · exact Nat.add_left_cancel hsignificand

section Represents

theorem shift_eq : shift = 52 + 1022 := rfl

variable {d d' : Word} {i : Int}

theorem Represents.magnitude_eq (h : Represents d i) : magnitude d = i.natAbs * 2 ^ shift := by
  have htwo : (2 : Int).natAbs = 2 := rfl
  rw [← natAbs_units, h.2.1, Int.natAbs_mul, unitsPerOne, Int.natAbs_pow, htwo]

theorem Represents.unique (h : Represents d i) (h' : Represents d' i) : d = d' :=
  eq_of_magnitude (h.2.2.trans h'.2.2.symm) (h.magnitude_eq.trans h'.magnitude_eq.symm)

/-- What one word has as its exponent, as far as the number it stands for decides it. -/
theorem Represents.log2_le (h : Represents d i) (hi : i ≠ 0) :
    i.natAbs.log2 ≤ 1023 ∧ i.natAbs.log2 + 1022 ≤ exponent d - 1 := by
  have hne : i.natAbs ≠ 0 := Int.natAbs_ne_zero.mpr hi
  have hlow : 2 ^ (i.natAbs.log2 + shift) < 2 ^ (53 + (exponent d - 1)) := by
    calc 2 ^ (i.natAbs.log2 + shift) = 2 ^ i.natAbs.log2 * 2 ^ shift := Nat.pow_add _ _ _
      _ ≤ i.natAbs * 2 ^ shift := Nat.mul_le_mul_right _ (Nat.log2_self_le hne)
      _ = magnitude d := h.magnitude_eq.symm
      _ < 2 ^ 53 * 2 ^ (exponent d - 1) := magnitude_lt d
      _ = 2 ^ (53 + (exponent d - 1)) := (Nat.pow_add _ _ _).symm
  have hexponents := (Nat.pow_lt_pow_iff_right (by norm_num)).mp hlow
  have hfinite := h.1
  rw [shift] at hexponents
  omega

theorem dvd_of_scaled {a b k n s m : Nat} (h : n * 2 ^ (b + m) = s * 2 ^ (a + m + k)) :
    2 ^ a ∣ n * 2 ^ b := by
  refine Nat.dvd_of_mul_dvd_mul_right (Nat.two_pow_pos m) ⟨s * 2 ^ k, ?_⟩
  rw [Nat.mul_assoc, ← Nat.pow_add, h, Nat.pow_add, Nat.pow_add, Nat.mul_left_comm]

theorem exactly_isSome (h : Represents d i) : (exactly i).isSome := by
  by_cases hi : i = 0
  · simp [exactly, hi]
  obtain ⟨hlog, hexponent⟩ := h.log2_le hi
  obtain ⟨k, hk⟩ := Nat.exists_eq_add_of_le hexponent
  have hdvd : 2 ^ i.natAbs.log2 ∣ i.natAbs * 2 ^ 52 :=
    dvd_of_scaled (by rw [← shift_eq, ← h.magnitude_eq, magnitude, hk])
  simp only [exactly, if_neg hi, if_pos (And.intro hlog hdvd), Option.isSome_some]

/-- A whole number scaled to 53 bits, the leading one among them. -/
theorem scaled_bounds {n s : Nat} (hn : n ≠ 0) (hs : s * 2 ^ n.log2 = n * 2 ^ 52) :
    2 ^ 52 ≤ s ∧ s < 2 ^ 53 := by
  have hpos : 0 < 2 ^ n.log2 := by positivity
  constructor
  · refine Nat.le_of_mul_le_mul_right ?_ hpos
    rw [hs, Nat.mul_comm]
    exact Nat.mul_le_mul_right _ (Nat.log2_self_le hn)
  · refine Nat.lt_of_mul_lt_mul_right (a := 2 ^ n.log2) ?_
    calc s * 2 ^ n.log2 = n * 2 ^ 52 := hs
      _ < 2 ^ (n.log2 + 1) * 2 ^ 52 := Nat.mul_lt_mul_of_pos_right Nat.lt_log2_self (by positivity)
      _ = 2 ^ 53 * 2 ^ n.log2 := by rw [Nat.pow_succ]; ring

theorem magnitude_word {negative : Bool} {n s : Nat} (hn : n ≠ 0) (hlog : n.log2 ≤ 1023)
    (hs : s * 2 ^ n.log2 = n * 2 ^ 52) :
    magnitude (word negative (1023 + n.log2) (s - 2 ^ 52)) = n * 2 ^ shift := by
  obtain ⟨hlow, hhigh⟩ := scaled_bounds hn hs
  have hsignificand : significand (word negative (1023 + n.log2) (s - 2 ^ 52)) = s := by
    rw [significand, exponent_word (by omega) (by omega), fraction_word (by omega) (by omega),
      if_neg (by omega)]
    omega
  rw [magnitude, hsignificand, exponent_word (by omega) (by omega),
    show 1023 + n.log2 - 1 = n.log2 + 1022 by omega, Nat.pow_add, ← Nat.mul_assoc, hs, shift_eq,
    Nat.pow_add, Nat.mul_assoc]

theorem represents_exactly (h : exactly i = some d) : Represents d i := by
  simp only [exactly] at h
  split at h
  · next hi =>
      obtain rfl := Option.some.inj h
      subst hi
      exact ⟨by decide, by simp [units, magnitude, significand, fraction, exponent], by decide⟩
  · next hi =>
      obtain ⟨⟨hlog, hdvd⟩, rfl⟩ := (Option.ite_none_right_eq_some.mp h).imp_right Option.some.inj
      have hn : i.natAbs ≠ 0 := Int.natAbs_ne_zero.mpr hi
      have hs := Nat.div_mul_cancel hdvd
      obtain ⟨hlow, hhigh⟩ := scaled_bounds hn hs
      have hmsb : ∀ negative, (word negative (1023 + i.natAbs.log2)
          (i.natAbs * 2 ^ 52 / 2 ^ i.natAbs.log2 - 2 ^ 52)).msb = negative :=
        fun _ => msb_word (by omega) (by omega)
      refine ⟨?_, ?_, hmsb _⟩
      · rw [exponent_word (by omega) (by omega)]
        omega
      · rw [units, hmsb, magnitude_word hn hlog hs, unitsPerOne]
        push_cast
        by_cases hsign : i < 0
        · rw [if_pos (by simpa using hsign), abs_of_neg hsign, neg_mul, neg_neg]
        · rw [if_neg (by simpa using hsign), abs_of_nonneg (by omega)]

theorem represents_iff : Represents d i ↔ exactly i = some d := by
  refine ⟨fun h => ?_, represents_exactly⟩
  obtain ⟨d', hd'⟩ := Option.isSome_iff_exists.mp (exactly_isSome h)
  rw [hd', h.unique (represents_exactly hd')]

end Represents

end Binary64
