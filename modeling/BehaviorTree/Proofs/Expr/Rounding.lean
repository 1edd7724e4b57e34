import BehaviorTree.Binary64
import Mathlib

/-!
The double nearest to an integer: which integer it stands for, and that doubles of integers compare as these integers
do. A double keeps 53 binary places; an integer with more loses the places in excess, a tie going to the even mantissa.
-/

namespace BehaviorTree
set_option autoImplicit false

namespace Binary64

/-! ### Rounding natural numbers -/

/-- The natural number nearest to `m / 2 ^ k`, a tie going to the even one. -/
def nearestQuotient (m k : Nat) : Nat :=
  if 2 * (m % 2 ^ k) < 2 ^ k then m / 2 ^ k
  else if 2 * (m % 2 ^ k) = 2 ^ k then m / 2 ^ k + m / 2 ^ k % 2
  else m / 2 ^ k + 1

/-- The number of binary places that a natural number has beyond the 53 of a mantissa. -/
def excess (m : Nat) : Nat := m.log2 - 52

def roundedNat (m : Nat) : Nat := nearestQuotient m (excess m) * 2 ^ excess m

/-- The integer that the double nearest to an integer stands for. -/
def rounded (n : Int) : Int := if n < 0 then -roundedNat n.natAbs else roundedNat n.natAbs

section Quotient

variable {m m' k : Nat}

theorem nearestQuotient_bounds (m k : Nat) :
    m / 2 ^ k ≤ nearestQuotient m k ∧ nearestQuotient m k ≤ m / 2 ^ k + 1 := by
  rw [nearestQuotient]
  split_ifs <;> omega

theorem nearestQuotient_mul (q k : Nat) : nearestQuotient (q * 2 ^ k) k = q := by
  have hk : 0 < 2 ^ k := Nat.two_pow_pos k
  rw [nearestQuotient, Nat.mul_mod_left, if_pos (by omega), Nat.mul_div_cancel _ hk]

theorem nearestQuotient_zero (m : Nat) : nearestQuotient m 0 = m := by
  simpa using nearestQuotient_mul m 0

theorem nearestQuotient_mono (k : Nat) (h : m ≤ m') : nearestQuotient m k ≤ nearestQuotient m' k := by
  have hq : m / 2 ^ k ≤ m' / 2 ^ k := Nat.div_le_div_right h
  rcases Nat.eq_or_lt_of_le hq with hq | hq
  · have hr : m % 2 ^ k ≤ m' % 2 ^ k := by
      have hm := Nat.div_add_mod m (2 ^ k)
      have hm' := Nat.div_add_mod m' (2 ^ k)
      rw [← hq] at hm'
      omega
    rw [nearestQuotient, nearestQuotient, ← hq]
    split_ifs <;> omega
  · have := (nearestQuotient_bounds m k).2
    have := (nearestQuotient_bounds m' k).1
    omega

theorem nearestQuotient_cases (m k : Nat) :
    (nearestQuotient m k = m / 2 ^ k ∧ 2 * (m % 2 ^ k) ≤ 2 ^ k ∧
        (2 * (m % 2 ^ k) = 2 ^ k → nearestQuotient m k % 2 = 0)) ∨
      (nearestQuotient m k = m / 2 ^ k + 1 ∧ 2 ^ k ≤ 2 * (m % 2 ^ k) ∧
        (2 * (m % 2 ^ k) = 2 ^ k → nearestQuotient m k % 2 = 0)) := by
  rw [nearestQuotient]
  split_ifs <;> omega

/-- No multiple of `2 ^ k` is nearer than the one rounded to, and if another one is as near, this one is even. -/
theorem nearestQuotient_nearest (m k q : Nat) :
    Nat.dist m (nearestQuotient m k * 2 ^ k) ≤ Nat.dist m (q * 2 ^ k) ∧
      (Nat.dist m (nearestQuotient m k * 2 ^ k) = Nat.dist m (q * 2 ^ k) → q ≠ nearestQuotient m k →
        nearestQuotient m k % 2 = 0) := by
  have hm : m / 2 ^ k * 2 ^ k + m % 2 ^ k = m := Nat.div_add_mod' m (2 ^ k)
  have hr : m % 2 ^ k < 2 ^ k := Nat.mod_lt _ (Nat.two_pow_pos k)
  have succ (n : Nat) : (n + 1) * 2 ^ k = n * 2 ^ k + 2 ^ k := Nat.succ_mul n (2 ^ k)
  -- A multiple that is not next to `m` on either side is farther away than the one that is.
  have side : q * 2 ^ k + 2 ^ k ≤ m / 2 ^ k * 2 ^ k ∨ q = m / 2 ^ k ∨ q = m / 2 ^ k + 1 ∨
      m / 2 ^ k * 2 ^ k + 2 ^ k + 2 ^ k ≤ q * 2 ^ k := by
    have sides : q + 1 ≤ m / 2 ^ k ∨ q = m / 2 ^ k ∨ q = m / 2 ^ k + 1 ∨ m / 2 ^ k + 1 + 1 ≤ q := by omega
    refine sides.imp (fun h => ?_) (Or.imp_right (Or.imp_right fun h => ?_))
    · exact succ q ▸ Nat.mul_le_mul_right _ h
    · exact succ _ ▸ succ _ ▸ Nat.mul_le_mul_right _ h
  simp only [Nat.dist]
  rcases nearestQuotient_cases m k with ⟨h, hlow, heven⟩ | ⟨h, hhigh, heven⟩ <;>
    rcases side with hq | rfl | rfl | hq <;> rw [h] at heven ⊢ <;> have := succ (m / 2 ^ k) <;> omega

end Quotient

/-! ### Naturals that are doubles -/

/-- A natural number that is a double has at most 53 binary places before its final zeros. -/
def Representable (m : Nat) : Prop := ∃ mantissa e, mantissa < 2 ^ 53 ∧ m = mantissa * 2 ^ e

section Naturals

variable {m m' d : Nat}

theorem lt_two_pow_excess (m : Nat) : m < 2 ^ 53 * 2 ^ excess m := by
  rw [← Nat.pow_add]
  exact Nat.lt_of_lt_of_le Nat.lt_log2_self (Nat.pow_le_pow_right (by decide) (by rw [excess]; omega))

theorem two_pow_excess_le (h : excess m ≠ 0) : 2 ^ 52 * 2 ^ excess m ≤ m := by
  have hm : m ≠ 0 := by
    rintro rfl
    exact h rfl
  have hlog : 52 + excess m = m.log2 := by rw [excess] at h ⊢; omega
  rw [← Nat.pow_add, hlog]
  exact Nat.log2_self_le hm

theorem nearestQuotient_excess_le (m : Nat) : nearestQuotient m (excess m) ≤ 2 ^ 53 := by
  have hq : m / 2 ^ excess m < 2 ^ 53 := (Nat.div_lt_iff_lt_mul (Nat.two_pow_pos _)).mpr (lt_two_pow_excess m)
  have := (nearestQuotient_bounds m (excess m)).2
  omega

theorem le_nearestQuotient_excess (h : excess m ≠ 0) : 2 ^ 52 ≤ nearestQuotient m (excess m) :=
  Nat.le_trans ((Nat.le_div_iff_mul_le (Nat.two_pow_pos _)).mpr (two_pow_excess_le h)) (nearestQuotient_bounds _ _).1

theorem roundedNat_of_representable (h : Representable m) : roundedNat m = m := by
  obtain ⟨mantissa, e, hlt, rfl⟩ := h
  have hle : excess (mantissa * 2 ^ e) ≤ e := by
    rcases Nat.eq_zero_or_pos mantissa with rfl | hpos
    · rw [Nat.zero_mul]
      exact Nat.zero_le e
    · have hne : mantissa * 2 ^ e ≠ 0 := Nat.mul_ne_zero hpos.ne' (Nat.two_pow_pos e).ne'
      have hlt : mantissa * 2 ^ e < 2 ^ (53 + e) := by
        rw [Nat.pow_add]
        exact Nat.mul_lt_mul_of_pos_right hlt (Nat.two_pow_pos e)
      have := (Nat.log2_lt hne).mpr hlt
      rw [excess]
      omega
  have hsplit : mantissa * 2 ^ e = mantissa * 2 ^ (e - excess (mantissa * 2 ^ e)) * 2 ^ excess (mantissa * 2 ^ e) := by
    rw [Nat.mul_assoc, ← Nat.pow_add, Nat.sub_add_cancel hle]
  have hq : nearestQuotient (mantissa * 2 ^ e) (excess (mantissa * 2 ^ e)) =
      mantissa * 2 ^ (e - excess (mantissa * 2 ^ e)) := by
    generalize excess (mantissa * 2 ^ e) = k at hsplit ⊢
    rw [hsplit]
    exact nearestQuotient_mul _ _
  rw [roundedNat, hq, ← hsplit]

theorem representable_of_le (h : m ≤ 2 ^ 53) : Representable m := by
  rcases Nat.eq_or_lt_of_le h with rfl | h
  · exact ⟨2 ^ 52, 1, by decide, by decide⟩
  · exact ⟨m, 0, h, (Nat.mul_one m).symm⟩

theorem representable_roundedNat (m : Nat) : Representable (roundedNat m) := by
  rcases Nat.eq_or_lt_of_le (nearestQuotient_excess_le m) with h | h
  · exact ⟨2 ^ 52, excess m + 1, by decide, by rw [roundedNat, h]; ring⟩
  · exact ⟨_, _, h, rfl⟩

theorem roundedNat_mono (h : m ≤ m') : roundedNat m ≤ roundedNat m' := by
  have hlog : m.log2 ≤ m'.log2 := by
    by_cases hm : m = 0
    · rw [hm]
      exact Nat.zero_le _
    · exact (Nat.le_log2 (by omega)).mpr (Nat.le_trans (Nat.log2_self_le hm) h)
  have hk : excess m ≤ excess m' := Nat.sub_le_sub_right hlog 52
  rcases Nat.eq_or_lt_of_le hk with hk | hk
  · rw [roundedNat, roundedNat, ← hk]
    exact Nat.mul_le_mul_right _ (nearestQuotient_mono _ h)
  · -- Between the two there is the least number that has the places of the greater one.
    calc roundedNat m ≤ 2 ^ 53 * 2 ^ excess m := Nat.mul_le_mul_right _ (nearestQuotient_excess_le m)
      _ = 2 ^ 52 * 2 ^ (excess m + 1) := by ring
      _ ≤ 2 ^ 52 * 2 ^ excess m' := Nat.mul_le_mul_left _ (Nat.pow_le_pow_right (by decide) hk)
      _ ≤ roundedNat m' := Nat.mul_le_mul_right _ (le_nearestQuotient_excess (by omega))

/-- A double with more places than a mantissa has before the point is a multiple of the last place. -/
theorem representable_cases (k : Nat) (h : Representable d) : d < 2 ^ 52 * 2 ^ k ∨ ∃ q, d = q * 2 ^ k := by
  obtain ⟨mantissa, e, hlt, rfl⟩ := h
  rcases Nat.lt_or_ge e k with he | he
  · left
    calc mantissa * 2 ^ e < 2 ^ 53 * 2 ^ e := Nat.mul_lt_mul_of_pos_right hlt (Nat.two_pow_pos e)
      _ = 2 ^ 52 * 2 ^ (e + 1) := by ring
      _ ≤ 2 ^ 52 * 2 ^ k := Nat.mul_le_mul_left _ (Nat.pow_le_pow_right (by decide) he)
  · exact .inr ⟨mantissa * 2 ^ (e - k), by rw [Nat.mul_assoc, ← Nat.pow_add, Nat.sub_add_cancel he]⟩

/-- No double is nearer than the one rounded to, and if another one is as near, this one has an even mantissa. -/
theorem roundedNat_nearest (m : Nat) (h : Representable d) :
    Nat.dist m (roundedNat m) ≤ Nat.dist m d ∧
      (Nat.dist m (roundedNat m) = Nat.dist m d → d ≠ roundedNat m → nearestQuotient m (excess m) % 2 = 0) := by
  rcases representable_cases (excess m) h with hd | ⟨q, rfl⟩
  · by_cases hk : excess m = 0
    · have hm : roundedNat m = m := by
        rw [roundedNat, hk, Nat.pow_zero, Nat.mul_one, nearestQuotient_zero]
      rw [hm, Nat.dist_self]
      refine ⟨Nat.zero_le _, fun heq hne => absurd (Nat.eq_of_dist_eq_zero heq.symm) (Ne.symm hne)⟩
    · have hle := two_pow_excess_le hk
      have hnear := (nearestQuotient_nearest m (excess m) (2 ^ 52)).1
      have : Nat.dist m (roundedNat m) < Nat.dist m d := by
        refine Nat.lt_of_le_of_lt hnear ?_
        simp only [Nat.dist]
        omega
      exact ⟨this.le, fun heq => absurd heq this.ne⟩
  · obtain ⟨hle, heven⟩ := nearestQuotient_nearest m (excess m) q
    refine ⟨hle, fun heq hne => heven heq fun hq => hne ?_⟩
    rw [hq, roundedNat]

end Naturals

/-! ### The integer that an unpacked double stands for -/

open Float.Model (Format UnpackedFloat)
open Float.Model.UnpackedFloat (Sign ExtendedMantissa)

/-- An unpacked double stands for an integer: it is a zero, or its mantissa has all 53 places and its exponent is that
of an integer. -/
def StandsFor : UnpackedFloat → Int → Prop
  | .zero _, n => n = 0
  | .finite s m e _, n =>
    2 ^ 52 ≤ m ∧ m < 2 ^ 53 ∧ ∃ k : Nat, e = k - 52 ∧ k ≤ 1023 ∧ n * 2 ^ 52 = s.apply (m * 2 ^ k : Nat)
  | _, _ => False

section Shift

/-- What is known of a mantissa after `k` places were dropped from it: the quotient, whether the rest is at least
half, and whether it is neither nothing nor exactly half. -/
def Dropped (m k : Nat) (em : ExtendedMantissa) : Prop :=
  em.mantissa = m / 2 ^ k ∧ (em.roundBit = true ↔ 2 ^ k ≤ 2 * (m % 2 ^ k)) ∧
    (em.stickyBit = true ↔ 2 * (m % 2 ^ k) ≠ 0 ∧ 2 * (m % 2 ^ k) ≠ 2 ^ k)

theorem dropped_shiftRight (m k : Nat) : Dropped m k (ExtendedMantissa.mk m false false >>> k) := by
  induction k with
  | zero =>
    change Dropped m 0 ⟨m, false, false⟩
    simp [Dropped, Nat.mod_one]
  | succ k ih =>
    change Dropped m (k + 1) (ExtendedMantissa.shiftRightOne (ExtendedMantissa.mk m false false >>> k))
    generalize ExtendedMantissa.mk m false false >>> k = em at ih ⊢
    obtain ⟨hm, hr, hs⟩ := ih
    have hlow : m % 2 ^ k < 2 ^ k := Nat.mod_lt _ (Nat.two_pow_pos k)
    have hmod : m % 2 ^ (k + 1) = m % 2 ^ k + 2 ^ k * (m / 2 ^ k % 2) := Nat.mod_pow_succ
    have hpow : 2 ^ (k + 1) = 2 * 2 ^ k := Nat.pow_succ'
    refine ⟨?_, ?_, ?_⟩
    · rw [ExtendedMantissa.shiftRightOne, hm, Nat.div_div_eq_div_mul, ← Nat.pow_succ]
    · rw [ExtendedMantissa.shiftRightOne, hm, hmod, hpow, bne_iff_ne]
      rcases Nat.mod_two_eq_zero_or_one (m / 2 ^ k) with h | h <;> rw [h] <;> omega
    · rw [ExtendedMantissa.shiftRightOne, Bool.or_eq_true, hr, hs, hmod, hpow]
      rcases Nat.mod_two_eq_zero_or_one (m / 2 ^ k) with h | h <;> rw [h] <;> omega

theorem roundedMantissa_shiftRight (m k : Nat) :
    (ExtendedMantissa.mk m false false >>> k).roundedMantissa = nearestQuotient m k := by
  have h := dropped_shiftRight m k
  generalize ExtendedMantissa.mk m false false >>> k = em at h ⊢
  obtain ⟨q, r, s⟩ := em
  obtain ⟨rfl, hr, hs⟩ := h
  rw [nearestQuotient]
  have hpos : 0 < 2 ^ k := Nat.two_pow_pos k
  cases r <;> cases s <;>
    simp only [ExtendedMantissa.roundedMantissa, ExtendedMantissa.accuracy,
      Float.Model.UnpackedFloat.Accuracy.roundToNearestEven, Bool.false_eq_true, false_iff, true_iff] at hr hs ⊢ <;>
    split_ifs <;> omega

end Shift

section Round

open Float.Model.UnpackedFloat

variable {s : Sign} {m : Nat} {e : Int}

theorem targetExponent_eq (h : -1022 ≤ m.log2 + e) :
    Format.binary64.targetExponent (Float.Model.totalExponent m e) = m.log2 + e - 52 := by
  simp only [Format.targetExponent, Float.Model.totalExponent, Format.mantissaBits, Format.minExponent]
  norm_num
  omega

theorem shiftToTargetExponent_eq {k : Nat} (h : -1022 ≤ m.log2 + e) (hk : m.log2 = 52 + k) :
    shiftToTargetExponent .binary64 m e .exact = (ExtendedMantissa.mk m false false >>> k, e + k) := by
  have hshift : (m.log2 + e - 52 - e).toNat = k := by omega
  rw [shiftToTargetExponent, targetExponent_eq h, shiftToExponent]
  simp only [hshift]
  rfl

theorem log2_mul_two_pow (hm : m ≠ 0) (j : Nat) : (m * 2 ^ j).log2 = m.log2 + j := by
  refine (Nat.log2_eq_iff (Nat.mul_ne_zero hm (Nat.two_pow_pos j).ne')).mpr ?_
  rw [Nat.add_right_comm, Nat.pow_add, Nat.pow_add]
  exact ⟨Nat.mul_le_mul_right _ (Nat.log2_self_le hm),
    Nat.mul_lt_mul_of_pos_right Nat.lt_log2_self (Nat.two_pow_pos j)⟩

/-- A mantissa of 53 places that is rounded up to the next power of two has one place more, a zero. -/
theorem carry_cases {r : Nat} (hlow : 2 ^ 52 ≤ r) (hhigh : r ≤ 2 ^ 53) :
    ∃ c, r.log2 = 52 + c ∧ c ≤ 1 ∧ r / 2 ^ c * 2 ^ c = r ∧ 2 ^ 52 ≤ r / 2 ^ c ∧ r / 2 ^ c < 2 ^ 53 := by
  rcases Nat.eq_or_lt_of_le hhigh with rfl | hlt
  · exact ⟨1, Nat.log2_two_pow, by decide⟩
  · refine ⟨0, (Nat.log2_eq_iff (by omega)).mpr ⟨hlow, hlt⟩, ?_⟩
    omega

theorem apply_mul (s : Sign) (n u : Nat) : s.apply n * u = s.apply (n * u : Nat) := by
  cases s <;> simp [Sign.apply]

theorem standsFor_roundWithAccuracy {k j n : Nat} (hk : m.log2 = 52 + k) (hlarge : k ≤ 960) (hj : j ≤ 52)
    (hn : n * 2 ^ 52 = nearestQuotient m k * 2 ^ (52 - j + k)) :
    StandsFor (roundWithAccuracy .binary64 s m (-j) .exact) (s.apply n) := by
  have hm : m ≠ 0 := fun h => by
    rw [h, Nat.log2_zero] at hk
    omega
  have hex : excess m = k := by rw [excess]; omega
  have hlow : 2 ^ 52 ≤ nearestQuotient m k := by
    refine Nat.le_trans ?_ (nearestQuotient_bounds m k).1
    rw [Nat.le_div_iff_mul_le (Nat.two_pow_pos k), ← Nat.pow_add, ← hk]
    exact Nat.log2_self_le hm
  obtain ⟨c, hc, hc1, hexact, hge, hlt⟩ := carry_cases hlow (hex ▸ nearestQuotient_excess_le m)
  rw [roundWithAccuracy, shiftToTargetExponent_eq (by omega) hk]
  simp only [roundedMantissa_shiftRight]
  simp only [shiftToTargetExponent_eq (e := -j + k) (by omega) hc, (dropped_shiftRight _ c).1]
  rw [dif_neg (by omega)]
  refine ⟨hge, hlt, 52 - j + k + c, by omega, by omega, ?_⟩
  rw [Nat.pow_add, Nat.mul_comm (2 ^ _) (2 ^ c), ← Nat.mul_assoc, hexact, ← hn]
  exact_mod_cast apply_mul s n (2 ^ 52)

theorem standsFor_round (hpos : 0 < m) (hlt : m < 2 ^ 64) :
    StandsFor (Float.Model.UnpackedFloat.round .binary64 s m 0) (s.apply (roundedNat m)) := by
  have hlog : m.log2 < 64 := (Nat.log2_lt hpos.ne').mpr hlt
  have hshift : (0 - ((m.log2 : Int) + 0 - 52)).toNat = 52 - m.log2 := by omega
  rw [Float.Model.UnpackedFloat.round, targetExponent_eq (by omega), decreaseExponent]
  simp only [hshift, Nat.shiftLeft_eq]
  rw [Int.zero_sub]
  -- One of the two shifts is none: a number has too few places for a mantissa, or too many.
  have hk : (m * 2 ^ (52 - m.log2)).log2 = 52 + excess m := by
    rw [log2_mul_two_pow hpos.ne', excess]
    omega
  refine standsFor_roundWithAccuracy hk (by rw [excess]; omega) (by omega) ?_
  rcases Nat.le_total m.log2 52 with h | h
  · have hex : excess m = 0 := Nat.sub_eq_zero_of_le h
    have hpow : 2 ^ (52 - m.log2) * 2 ^ m.log2 = 2 ^ 52 := by rw [← Nat.pow_add, Nat.sub_add_cancel h]
    rw [roundedNat, hex, nearestQuotient_zero, nearestQuotient_zero, Nat.sub_sub_self h, Nat.add_zero, Nat.mul_assoc m,
      Nat.mul_assoc m, hpow, Nat.pow_zero, Nat.one_mul]
  · rw [Nat.sub_eq_zero_of_le h, Nat.pow_zero, Nat.mul_one, Nat.sub_zero, roundedNat, Nat.pow_add]
    ring

end Round

section Packed

open Float.Model.UnpackedFloat

variable {u v : UnpackedFloat} {x y : Int}

theorem toNat_implicit_append {m : Nat} (hlow : 2 ^ 52 ≤ m) (hhigh : m < 2 ^ 53) :
    (1#1 ++ BitVec.ofNat 52 m).toNat = m := by
  rw [BitVec.toNat_append, ← Nat.shiftLeft_add_eq_or_of_lt (BitVec.ofNat 52 m).isLt, BitVec.toNat_ofNat,
    Nat.shiftLeft_eq]
  simp only [BitVec.toNat_ofNat]
  omega

theorem StandsFor.unpack_pack (h : StandsFor u x) : (Float.Model.pack u).unpack = u := by
  cases u with
  | infinity s => exact h.elim
  | notANumber => exact h.elim
  | zero s => cases s <;> rfl
  | finite s m e hm =>
    obtain ⟨hlow, hhigh, k, rfl, hk, -⟩ := h
    have hbias : Format.binary64.exponentBias = 1023 := rfl
    have hplaces : Format.binary64.mantissaBitsWithoutImplicit = 52 := rfl
    have hbiased : ((k : Int) - 52 + Format.binary64.exponentBias +
        Format.binary64.mantissaBitsWithoutImplicit).toNat = k + 1023 := by
      rw [hbias, hplaces]
      omega
    have hunbiased : ((k + 1023 : Nat) : Int) -
        (Format.binary64.exponentBias + Format.binary64.mantissaBitsWithoutImplicit) = k - 52 := by
      rw [hbias, hplaces]
      omega
    have hexponent : (BitVec.ofNat 11 (k + 1023)).toNat = k + 1023 := by
      rw [BitVec.toNat_ofNat, Nat.mod_eq_of_lt (by omega)]
    have hones : BitVec.ofNat 11 (k + 1023) ≠ -1#11 := fun h => by
      have := congrArg BitVec.toNat h
      rw [hexponent] at this
      simp at this
      omega
    have hzero : BitVec.ofNat 11 (k + 1023) ≠ 0#11 := fun h => by
      have := congrArg BitVec.toNat h
      rw [hexponent] at this
      simp at this
    change UnpackedFloat.unpack .binary64 (UnpackedFloat.pack .binary64 (.finite s m (k - 52) hm)) = _
    rw [UnpackedFloat.pack]
    simp only [hbiased, (Nat.log2_eq_iff hm.ne').mpr ⟨hlow, hhigh⟩]
    rw [if_neg (by omega), if_pos (by rfl), UnpackedFloat.unpack]
    simp only [unpackMantissa_packComponents, unpackExponent_packComponents, unpackSign_packComponents,
      Sign.ofBitVec_toBitVec]
    rw [if_neg hones, if_neg hzero]
    simp only [toNat_implicit_append hlow hhigh, hexponent]
    simp only [hunbiased]

theorem StandsFor.neg (h : StandsFor u x) : StandsFor u.neg (-x) := by
  cases u with
  | infinity s => exact h.elim
  | notANumber => exact h.elim
  | zero s =>
    obtain rfl : x = 0 := h
    rfl
  | finite s m e hm =>
    obtain ⟨hlow, hhigh, k, he, hk, hx⟩ := h
    refine ⟨hlow, hhigh, k, he, hk, ?_⟩
    rw [Int.neg_mul, hx]
    cases s
    · exact Int.neg_neg _
    · rfl

theorem compare_places {m m' : Nat} (k k' : Nat) (hlow : 2 ^ 52 ≤ m) (hhigh : m < 2 ^ 53) (hlow' : 2 ^ 52 ≤ m')
    (hhigh' : m' < 2 ^ 53) :
    (compare (k - 52 : Int) (k' - 52)).then (compare m m') = compare (m * 2 ^ k) (m' * 2 ^ k') := by
  have smaller {m m' k k' : Nat} (hhigh : m < 2 ^ 53) (hlow : 2 ^ 52 ≤ m') (h : k < k') : m * 2 ^ k < m' * 2 ^ k' :=
    calc m * 2 ^ k < 2 ^ 53 * 2 ^ k := Nat.mul_lt_mul_of_pos_right hhigh (Nat.two_pow_pos k)
      _ = 2 ^ 52 * 2 ^ (k + 1) := by ring
      _ ≤ 2 ^ 52 * 2 ^ k' := Nat.mul_le_mul_left _ (Nat.pow_le_pow_right (by decide) h)
      _ ≤ m' * 2 ^ k' := Nat.mul_le_mul_right _ hlow
  rcases Nat.lt_trichotomy k k' with h | rfl | h
  · have hk : compare (k - 52 : Int) (k' - 52) = .lt := compare_lt_iff_lt.mpr (by omega)
    rw [hk, compare_lt_iff_lt.mpr (smaller hhigh hlow' h)]
    rfl
  · have hk : compare (k - 52 : Int) (k - 52) = .eq := compare_eq_iff_eq.mpr rfl
    rw [hk]
    rcases Nat.lt_trichotomy m m' with h | rfl | h
    · rw [compare_lt_iff_lt.mpr h, compare_lt_iff_lt.mpr (Nat.mul_lt_mul_of_pos_right h (Nat.two_pow_pos k))]
      rfl
    · rw [compare_eq_iff_eq.mpr rfl, compare_eq_iff_eq.mpr rfl]
      rfl
    · rw [compare_gt_iff_gt.mpr h, compare_gt_iff_gt.mpr (Nat.mul_lt_mul_of_pos_right h (Nat.two_pow_pos k))]
      rfl
  · have hk : compare (k - 52 : Int) (k' - 52) = .gt := compare_gt_iff_gt.mpr (by omega)
    rw [hk, compare_gt_iff_gt.mpr (smaller hhigh' hlow h)]
    rfl

theorem compare_scaled (x y : Int) : compare x y = compare (x * 2 ^ 52) (y * 2 ^ 52) := by
  rcases Int.lt_trichotomy x y with h | rfl | h
  · rw [compare_lt_iff_lt.mpr h, compare_lt_iff_lt.mpr (by omega)]
  · rw [compare_eq_iff_eq.mpr rfl, compare_eq_iff_eq.mpr rfl]
  · rw [compare_gt_iff_gt.mpr h, compare_gt_iff_gt.mpr (by omega)]

theorem compare_natCast (a b : Nat) : compare (a : Int) b = compare a b := by
  rcases Nat.lt_trichotomy a b with h | rfl | h
  · rw [compare_lt_iff_lt.mpr h, compare_lt_iff_lt.mpr (Int.ofNat_lt.mpr h)]
  · rw [compare_eq_iff_eq.mpr rfl, compare_eq_iff_eq.mpr rfl]
  · rw [compare_gt_iff_gt.mpr h, compare_gt_iff_gt.mpr (Int.ofNat_lt.mpr h)]

theorem compare_neg_neg (x y : Int) : compare (-x) (-y) = (compare x y).swap := by
  rcases Int.lt_trichotomy x y with h | rfl | h
  · rw [compare_lt_iff_lt.mpr h, compare_gt_iff_gt.mpr (Int.neg_lt_neg h)]
    rfl
  · rw [compare_eq_iff_eq.mpr rfl, compare_eq_iff_eq.mpr rfl]
    rfl
  · rw [compare_gt_iff_gt.mpr h, compare_lt_iff_lt.mpr (Int.neg_lt_neg h)]
    rfl

theorem StandsFor.compare_eq (hu : StandsFor u x) (hv : StandsFor v y) : u.compare v = some (compare x y) := by
  rw [compare_scaled]
  have less {a b : Int} (h : a < b) : some Ordering.lt = some (compare a b) := by rw [compare_lt_iff_lt.mpr h]
  have greater {a b : Int} (h : b < a) : some Ordering.gt = some (compare a b) := by rw [compare_gt_iff_gt.mpr h]
  have positive {m : Nat} (hm : 0 < m) (k : Nat) : (0 : Int) < (m * 2 ^ k : Nat) :=
    Int.natCast_pos.mpr (Nat.mul_pos hm (Nat.two_pow_pos k))
  cases u with
  | infinity s => exact hu.elim
  | notANumber => exact hu.elim
  | zero s =>
    obtain rfl : x = 0 := hu
    cases v with
    | infinity s => exact hv.elim
    | notANumber => exact hv.elim
    | zero s =>
      obtain rfl : y = 0 := hv
      rfl
    | finite s m e hm =>
      obtain ⟨-, -, k, -, -, hy⟩ := hv
      have hpos := positive hm k
      rw [hy]
      cases s with
      | positive => exact less (by simpa [Sign.apply] using hpos)
      | negative => exact greater (by simpa [Sign.apply] using hpos)
  | finite s m e hm =>
    obtain ⟨hlow, hhigh, k, rfl, -, hx⟩ := hu
    have hpos := positive hm k
    rw [hx]
    cases v with
    | infinity s => exact hv.elim
    | notANumber => exact hv.elim
    | zero s' =>
      obtain rfl : y = 0 := hv
      cases s with
      | positive => exact greater (by simpa [Sign.apply] using hpos)
      | negative => exact less (by simpa [Sign.apply] using hpos)
    | finite s' m' e' hm' =>
      obtain ⟨hlow', hhigh', k', rfl, -, hy⟩ := hv
      have hpos' := positive hm' k'
      have hplaces := compare_places k k' hlow hhigh hlow' hhigh'
      rw [hy]
      cases s with
      | positive =>
        cases s' with
        | positive =>
          change some _ = some (compare ((m * 2 ^ k : Nat) : Int) (m' * 2 ^ k' : Nat))
          rw [compare_natCast, ← hplaces]
        | negative => exact greater (by simp only [Sign.apply]; omega)
      | negative =>
        cases s' with
        | positive => exact less (by simp only [Sign.apply]; omega)
        | negative =>
          change some _ = some (compare (-((m * 2 ^ k : Nat) : Int)) (-(m' * 2 ^ k' : Nat)))
          rw [compare_neg_neg, compare_natCast, ← hplaces]

end Packed

/-! ### Doubles of integers -/

section Integers

variable {x y : Int}

theorem standsFor_toFloat (n : UInt64) : StandsFor n.toFloat.toModel.unpack (roundedNat n.toNat) := by
  have hround : StandsFor (UnpackedFloat.ofUInt64 .binary64 n) (roundedNat n.toNat) := by
    rw [UnpackedFloat.ofUInt64, UnpackedFloat.ofNat, UnpackedFloat.ofInt, UnpackedFloat.normalize]
    rcases Nat.eq_zero_or_pos n.toNat with h | h
    · rw [h]
      rfl
    · rw [compare_gt_iff_gt.mpr (Int.natCast_pos.mpr h)]
      exact standsFor_round (s := .positive) h n.toNat_lt
  change StandsFor (Float.Model.pack (UnpackedFloat.ofUInt64 .binary64 n)).unpack _
  rwa [hround.unpack_pack]

/-- The double nearest to an integer stands for what the integer is rounded to. -/
theorem standsFor_nearestInt (hx : x.natAbs < 2 ^ 64) : StandsFor (nearestInt x).toModel.unpack (rounded x) := by
  have hnat : x.natAbs.toUInt64.toNat = x.natAbs := Nat.mod_eq_of_lt hx
  have hmag := standsFor_toFloat x.natAbs.toUInt64
  rw [hnat] at hmag
  rw [nearestInt, rounded]
  split
  · change StandsFor (Float.Model.pack x.natAbs.toUInt64.toFloat.toModel.unpack.neg).unpack _
    rw [hmag.neg.unpack_pack]
    exact hmag.neg
  · exact hmag

theorem compare_nearestInt (hx : x.natAbs < 2 ^ 64) (hy : y.natAbs < 2 ^ 64) :
    (nearestInt x).toModel.unpack.compare (nearestInt y).toModel.unpack = some (compare (rounded x) (rounded y)) :=
  (standsFor_nearestInt hx).compare_eq (standsFor_nearestInt hy)

theorem nearestInt_lt_iff (hx : x.natAbs < 2 ^ 64) (hy : y.natAbs < 2 ^ 64) :
    nearestInt x < nearestInt y ↔ rounded x < rounded y := by
  change decide ((UnpackedFloat.compare _ _ == some .lt) = true) = true ↔ _
  rw [decide_eq_true_iff, compare_nearestInt hx hy, beq_iff_eq, Option.some_inj, compare_lt_iff_lt]

theorem nearestInt_le_iff (hx : x.natAbs < 2 ^ 64) (hy : y.natAbs < 2 ^ 64) :
    nearestInt x ≤ nearestInt y ↔ rounded x ≤ rounded y := by
  change decide ((UnpackedFloat.compare _ _).any (·.isLE) = true) = true ↔ _
  rw [decide_eq_true_iff, compare_nearestInt hx hy, Option.any_some, Std.isLE_compare]

theorem nearestInt_beq (hx : x.natAbs < 2 ^ 64) (hy : y.natAbs < 2 ^ 64) :
    (nearestInt x == nearestInt y) = decide (rounded x = rounded y) := by
  rw [Bool.eq_iff_iff, decide_eq_true_iff]
  change (UnpackedFloat.compare _ _ == some .eq) = true ↔ _
  rw [compare_nearestInt hx hy, beq_iff_eq, Option.some_inj, compare_eq_iff_eq]

theorem rounded_mono (h : x ≤ y) : rounded x ≤ rounded y := by
  rw [rounded, rounded]
  split_ifs with hx hy hy
  · have : roundedNat y.natAbs ≤ roundedNat x.natAbs := roundedNat_mono (by omega)
    omega
  · omega
  · omega
  · have : roundedNat x.natAbs ≤ roundedNat y.natAbs := roundedNat_mono (by omega)
    omega

theorem rounded_of_natAbs_le (h : x.natAbs ≤ 2 ^ 53) : rounded x = x := by
  rw [rounded, roundedNat_of_representable (representable_of_le h)]
  split <;> omega

/-- An integer is rounded to a double. No double is nearer to it, and if another one is as near, the one rounded to has
an even mantissa. -/
theorem rounded_nearest (n : Int) :
    Representable (rounded n).natAbs ∧ ∀ d : Int, Representable d.natAbs →
      (n - rounded n).natAbs ≤ (n - d).natAbs ∧
        ((n - rounded n).natAbs = (n - d).natAbs → d ≠ rounded n →
          nearestQuotient n.natAbs (excess n.natAbs) % 2 = 0) := by
  refine ⟨?_, fun d hd => ?_⟩
  · have habs : (rounded n).natAbs = roundedNat n.natAbs := by
      rw [rounded]
      split_ifs <;> omega
    rw [habs]
    exact representable_roundedNat _
  · obtain ⟨hle, heven⟩ := roundedNat_nearest n.natAbs hd
    -- A number on the other side of zero is farther away than zero, which is a double itself.
    have hzero := (roundedNat_nearest n.natAbs (representable_of_le (m := 0) (by decide))).1
    simp only [Nat.dist] at hle heven hzero
    rw [rounded]
    split_ifs <;> omega

end Integers

end Binary64

end BehaviorTree
