import Mathlib.Tactic.FieldSimp
import Mathlib.Tactic.Positivity
import NanoLance.ExprValues

/-!
# Exact Comparisons

Integers, decimals and durations are compared as the numbers they denote. Words
of different signs are told apart before they are compared; decimals are brought
to one scale in 1024 bits; and durations of different units are compared by a
division, which cannot overflow where the product could.

Dates and timestamps are not. They are all turned into nanoseconds, and from the
year 2262 on (before 1677) a count of seconds has no such number in a word. They
are ordered as the instants they denote if and only if both have one, or denote
the same instant.

## Theorems

* `exact_comparisons`: Integers, decimals and durations.
* `temporal_order_iff`: Dates and timestamps.
-/

namespace NanoLance

namespace Expr

/-- The order of two numbers: -1, 0 or 1. -/
def wayOf {α : Type} [LinearOrder α] (x y : α) : Int :=
  if x < y then -1 else if y < x then 1 else 0

theorem threeWay_eq (a b : Int) : threeWay a b = wayOf a b := rfl

section Way

variable {α β : Type} [LinearOrder α] [LinearOrder β]

theorem wayOf_congr {x y : α} {x' y' : β} (hlt : x < y ↔ x' < y') (hgt : y < x ↔ y' < x') :
    wayOf x y = wayOf x' y' := by
  unfold wayOf
  simp only [hlt, hgt]

theorem wayOf_nonpos (x y : α) : wayOf x y ≤ 0 ↔ x ≤ y := by
  unfold wayOf
  by_cases hlt : x < y
  · grind
  · grind

theorem wayOf_swap (x y : α) : wayOf x y = -wayOf y x := by
  unfold wayOf
  grind

end Way

/-! ## Decimals -/

variable (l : Limbs256)

namespace Limbs256

def value (l : Limbs256) : Nat := Nat.ofDigits (2 ^ 64) l.toList

/-- The number in two's complement. -/
def toInt (l : Limbs256) : Int := if l.negative then (l.value : Int) - 2 ^ 256 else l.value

theorem small : Lib.Limbs.Small (2 ^ 64) l.toList := by
  intro x hx
  simp only [toList, List.mem_cons, List.not_mem_nil, or_false] at hx
  omega

theorem value_eq : l.value =
    l.l0.toNat + 2 ^ 64 * (l.l1.toNat + 2 ^ 64 * (l.l2.toNat + 2 ^ 64 * l.l3.toNat)) := by
  simp only [value, toList, Nat.ofDigits_cons, Nat.ofDigits_nil, Nat.mul_zero, Nat.add_zero]

theorem value_lt : l.value < 2 ^ 256 := by
  have h := Lib.Limbs.value_lt l.toList l.small
  rwa [show l.toList.length = 4 from rfl, ← Nat.pow_mul] at h

/-- The sign is that of the upper half of the values. -/
theorem negative_iff : l.negative = true ↔ 2 ^ 255 ≤ l.value := by
  have h0 := l.l0.isLt
  have h1 := l.l1.isLt
  have h2 := l.l2.isLt
  grind [negative, value_eq]

theorem toInt_neg_iff : l.negative = true ↔ l.toInt < 0 := by
  have hlt := l.value_lt
  grind [toInt]

end Limbs256

theorem length_limbsMagnitude : (limbsMagnitude l).length = 32 := by
  unfold limbsMagnitude
  rw [List.length_append, Lib.Limbs.length_halves, List.length_replicate]
  split
  · rw [Lib.Limbs.length_increment, Lib.Limbs.complement, List.length_map]
    rfl
  · rfl

theorem small_complement (l : List Nat) : Lib.Limbs.Small (2 ^ 64) (Lib.Limbs.complement (2 ^ 64) l)
    := by
  intro x hx
  rcases List.mem_map.mp hx with ⟨y, -, rfl⟩
  omega

theorem small_limbsMagnitude : Lib.Limbs.Small (2 ^ 32) (limbsMagnitude l) := by
  unfold limbsMagnitude
  refine Lib.Limbs.small_append (Lib.Limbs.small_halves _ ?_ (by decide)) ?_
  · split
    · exact Lib.Limbs.small_increment _ (small_complement _)
    · exact l.small
  · intro x hx
    rw [List.eq_of_mem_replicate hx]
    decide

theorem ofDigits_zeros (base n : Nat) (l : List Nat) :
    Nat.ofDigits base (l ++ List.replicate n 0) = Nat.ofDigits base l := by
  rw [Nat.ofDigits_append]
  simp

/-- **The magnitude is that of the number.** -/
theorem limbsMagnitude_value : Nat.ofDigits (2 ^ 32) (limbsMagnitude l) = l.toInt.natAbs := by
  unfold limbsMagnitude
  rw [ofDigits_zeros, Lib.Limbs.halves_value]
  change Nat.ofDigits (2 ^ 64) _ = _
  unfold Limbs256.toInt
  by_cases h : l.negative = true
  · rw [if_pos h, if_pos h, Lib.Limbs.increment_value _ (small_complement _)]
    have hcomp := Lib.Limbs.complement_value l.small
    have hlen : l.toList.length = 4 := rfl
    have hlen' : (Lib.Limbs.complement (2 ^ 64) l.toList).length = 4 := rfl
    rw [hlen] at hcomp
    rw [hlen']
    have hneg := l.negative_iff.mp h
    have hvalue : l.value = Nat.ofDigits (2 ^ 64) l.toList := rfl
    -- Two's complement: what is missing to 2 ^ 256.
    omega
  · rw [if_neg h, if_neg h]
    rfl

/-! ## Powers of ten -/

/-- 32 words of 32 bits. -/
structure Magnitude (m : List Nat) : Prop where
  length : m.length = 32
  small : Lib.Limbs.Small (2 ^ 32) m

variable {m : List Nat}

theorem magMulSmall_magnitude (h : Magnitude m) (f : Nat) :
    Magnitude (magMulSmall m f) :=
  ⟨(Lib.Limbs.length_mulSmall _ _ _ _).trans h.length, Lib.Limbs.small_mulSmall _ _ _ _ (by decide)⟩

def magValue (m : List Nat) : Nat := Nat.ofDigits (2 ^ 32) m

theorem magMulSmall_value (h : Magnitude m) {f : Nat} (hf : f < 2 ^ 32)
    (hfits : magValue m * f < 2 ^ 1024) : magValue (magMulSmall m f) = magValue m * f := by
  refine Lib.Limbs.mulSmall_value hf m h.small ?_
  rwa [h.length, ← Nat.pow_mul]

theorem magMul_iterate (h : Magnitude m) {f : Nat} (hf : f < 2 ^ 32) (hpos : 0 < f) {n : Nat}
    (hfits : magValue m * f ^ n < 2 ^ 1024) :
    Magnitude ((fun m => magMulSmall m f)^[n] m) ∧
      magValue ((fun m => magMulSmall m f)^[n] m) = magValue m * f ^ n := by
  induction n with
  | zero => exact ⟨h, (Nat.mul_one _).symm⟩
  | succ n ih =>
    rw [Nat.pow_succ, ← Nat.mul_assoc] at hfits
    have hless : magValue m * f ^ n < 2 ^ 1024 :=
      Nat.lt_of_le_of_lt (Nat.le_mul_of_pos_right _ hpos) hfits
    rcases ih hless with ⟨hmag, hvalue⟩
    rw [Function.iterate_succ_apply']
    refine ⟨magMulSmall_magnitude hmag f, ?_⟩
    rw [magMulSmall_value hmag hf (by rw [hvalue]; exact hfits), hvalue, Nat.pow_succ,
      Nat.mul_assoc]

theorem pow10Small_eq : ∀ k < 9, pow10Small k = 10 ^ k := by decide

/-- **The product with a power of ten, when it fits.** -/
theorem magMulPow10_value (h : Magnitude m) {k : Nat} (hfits : magValue m * 10 ^ k < 2 ^ 1024) :
    Magnitude (magMulPow10 m k) ∧ magValue (magMulPow10 m k) = magValue m * 10 ^ k := by
  have hsplit : 10 ^ k = 1000000000 ^ (k / 9) * 10 ^ (k % 9) := by
    rw [show (1000000000 : Nat) = 10 ^ 9 by norm_num, ← Nat.pow_mul, ← Nat.pow_add, Nat.div_add_mod]
  rw [hsplit, ← Nat.mul_assoc] at hfits ⊢
  have hpos : 0 < 10 ^ (k % 9) := Nat.pow_pos (by decide)
  rcases magMul_iterate h (by decide) (by decide)
    (Nat.lt_of_le_of_lt (Nat.le_mul_of_pos_right _ hpos) hfits) with ⟨hmag, hvalue⟩
  unfold magMulPow10
  by_cases hrest : 0 < k % 9
  · have hk : k % 9 < 9 := Nat.mod_lt _ (by decide)
    have hsmall : ∀ k < 9, 10 ^ k < 2 ^ 32 := by decide
    simp only [if_pos hrest]
    rw [pow10Small_eq _ hk]
    refine ⟨magMulSmall_magnitude hmag _, ?_⟩
    rw [magMulSmall_value hmag (hsmall _ hk) (by rw [hvalue]; exact hfits), hvalue]
  · simp only [if_neg hrest]
    rw [show k % 9 = 0 by omega, Nat.pow_zero, Nat.mul_one]
    exact ⟨hmag, hvalue⟩

theorem magCmp_eq {a b : List Nat} (ha : Magnitude a) (hb : Magnitude b) :
    magCmp a b = wayOf (magValue a) (magValue b) :=
  Lib.Limbs.cmpTop_eq a b (ha.length.trans hb.length.symm) ha.small hb.small

/-- The number of an unscaled value and a scale. -/
def decimalValue (l : Limbs256) (scale : Int) : ℚ := (l.toInt : ℚ) * (10 : ℚ) ^ (-scale)

/-- The two can be brought to one scale: the difference of the scales is an `int`
    and the products have 1024 bits. -/
structure ScaleFits (a : Limbs256) (sa : Int) (b : Limbs256) (sb : Int) : Prop where
  differenceA : max sa sb - sa < 2 ^ 31
  differenceB : max sa sb - sb < 2 ^ 31
  left : a.toInt.natAbs * 10 ^ (max sa sb - sa).toNat < 2 ^ 1024
  right : b.toInt.natAbs * 10 ^ (max sa sb - sb).toNat < 2 ^ 1024

/-- At one scale nothing is multiplied. -/
theorem scaleFits_self (a b : Limbs256) (s : Int) : ScaleFits a s b s := by
  have hlt : ∀ l : Limbs256, l.toInt.natAbs < 2 ^ 1024 := by
    intro l
    have hvalue := Lib.Limbs.value_lt _ (small_limbsMagnitude l)
    rw [length_limbsMagnitude, ← Nat.pow_mul] at hvalue
    exact limbsMagnitude_value l ▸ hvalue
  refine ⟨by omega, by omega, ?_, ?_⟩ <;> simpa using hlt _

/-- A number at a larger scale. -/
theorem rescaled (n : Nat) (s t : Int) (h : s ≤ t) :
    ((n * 10 ^ (t - s).toNat : Nat) : ℚ) = (n : ℚ) * (10 : ℚ) ^ (-s) * (10 : ℚ) ^ t := by
  have hcast : ((10 : ℚ) ^ (t - s).toNat) = (10 : ℚ) ^ (t - s) := by
    rw [← zpow_natCast, Int.toNat_of_nonneg (by omega)]
  rw [Nat.cast_mul, Nat.cast_pow, Nat.cast_ofNat, hcast, mul_assoc, ← zpow_add₀ (by norm_num)]
  congr 2
  omega

/-- **Decimals are compared as the numbers they are.** -/
theorem compareDecimal_eq {a : Limbs256} {sa : Int} {b : Limbs256} {sb : Int}
    (h : ScaleFits a sa b sb) :
    compareDecimal a sa b sb = wayOf (decimalValue a sa) (decimalValue b sb) := by
  have hpow : ∀ s : Int, (0 : ℚ) < (10 : ℚ) ^ s := fun s => zpow_pos (by norm_num) s
  unfold compareDecimal
  by_cases hsign : a.negative = b.negative
  · rw [if_neg (fun hc => hc hsign)]
    -- Equal signs: the magnitudes at the larger scale.
    have hmagA : Magnitude (limbsMagnitude a) := ⟨length_limbsMagnitude a, small_limbsMagnitude a⟩
    have hmagB : Magnitude (limbsMagnitude b) := ⟨length_limbsMagnitude b, small_limbsMagnitude b⟩
    have hvalueA : magValue (limbsMagnitude a) = a.toInt.natAbs := limbsMagnitude_value a
    have hvalueB : magValue (limbsMagnitude b) = b.toInt.natAbs := limbsMagnitude_value b
    rcases magMulPow10_value hmagA (by rw [hvalueA]; exact h.left) with ⟨hA, hvA⟩
    rcases magMulPow10_value hmagB (by rw [hvalueB]; exact h.right) with ⟨hB, hvB⟩
    simp only [magCmp_eq hA hB, hvA, hvB, hvalueA, hvalueB]
    have hscale : ∀ x y : Nat, (x : ℚ) < y ↔ x < y := fun x y => Nat.cast_lt
    have hA' := rescaled a.toInt.natAbs sa (max sa sb) (le_max_left _ _)
    have hB' := rescaled b.toInt.natAbs sb (max sa sb) (le_max_right _ _)
    have hcancel : ∀ x y : ℚ, x * (10 : ℚ) ^ (max sa sb) < y * (10 : ℚ) ^ (max sa sb) ↔ x < y :=
      fun x y => mul_lt_mul_iff_left₀ (hpow _)
    have hway : wayOf (a.toInt.natAbs * 10 ^ (max sa sb - sa).toNat)
        (b.toInt.natAbs * 10 ^ (max sa sb - sb).toNat) =
        wayOf ((a.toInt.natAbs : ℚ) * (10 : ℚ) ^ (-sa))
          ((b.toInt.natAbs : ℚ) * (10 : ℚ) ^ (-sb)) := by
      refine wayOf_congr ?_ ?_
      · rw [← hscale, hA', hB', hcancel]
      · rw [← hscale, hA', hB', hcancel]
    rw [hway]
    by_cases hneg : a.negative = true
    · have hnegA := a.toInt_neg_iff.mp hneg
      have hnegB := b.toInt_neg_iff.mp (hsign ▸ hneg)
      have habsA : (a.toInt.natAbs : ℚ) = -(a.toInt : ℚ) := by
        rw [← Int.cast_natCast, Int.ofNat_natAbs_of_nonpos (by omega), Int.cast_neg]
      have habsB : (b.toInt.natAbs : ℚ) = -(b.toInt : ℚ) := by
        rw [← Int.cast_natCast, Int.ofNat_natAbs_of_nonpos (by omega), Int.cast_neg]
      rw [if_pos hneg, habsA, habsB, ← wayOf_swap]
      refine wayOf_congr ?_ ?_
      · rw [neg_mul, neg_mul, neg_lt_neg_iff]
        rfl
      · rw [neg_mul, neg_mul, neg_lt_neg_iff]
        rfl
    · have hposA : ¬a.toInt < 0 := fun hc => hneg (a.toInt_neg_iff.mpr hc)
      have hposB : ¬b.toInt < 0 := fun hc => hneg (hsign ▸ b.toInt_neg_iff.mpr hc)
      have habsA : (a.toInt.natAbs : ℚ) = (a.toInt : ℚ) := by
        rw [← Int.cast_natCast, Int.natAbs_of_nonneg (by omega)]
      have habsB : (b.toInt.natAbs : ℚ) = (b.toInt : ℚ) := by
        rw [← Int.cast_natCast, Int.natAbs_of_nonneg (by omega)]
      rw [if_neg hneg, habsA, habsB]
      rfl
  · rw [if_pos hsign]
    unfold decimalValue
    by_cases hneg : a.negative = true
    · -- A negative number against one that is not.
      have hnegA : (a.toInt : ℚ) < 0 := Int.cast_lt_zero.mpr (a.toInt_neg_iff.mp hneg)
      have hposB : (0 : ℚ) ≤ b.toInt := by
        refine Int.cast_nonneg (Int.not_lt.mp (fun hc => hsign ?_))
        rw [hneg, b.toInt_neg_iff.mpr hc]
      have hlt : (a.toInt : ℚ) * (10 : ℚ) ^ (-sa) < (b.toInt : ℚ) * (10 : ℚ) ^ (-sb) :=
        lt_of_lt_of_le (mul_neg_of_neg_of_pos hnegA (hpow _)) (mul_nonneg hposB (le_of_lt (hpow _)))
      rw [if_pos hneg, wayOf, if_pos hlt]
    · have hnegB' : b.negative = true := by grind
      have hnegB : (b.toInt : ℚ) < 0 := Int.cast_lt_zero.mpr (b.toInt_neg_iff.mp hnegB')
      have hposA : (0 : ℚ) ≤ a.toInt :=
        Int.cast_nonneg (Int.not_lt.mp (fun hc => hneg (a.toInt_neg_iff.mpr hc)))
      have hlt : (b.toInt : ℚ) * (10 : ℚ) ^ (-sb) < (a.toInt : ℚ) * (10 : ℚ) ^ (-sa) :=
        lt_of_lt_of_le (mul_neg_of_neg_of_pos hnegB (hpow _)) (mul_nonneg hposA (le_of_lt (hpow _)))
      rw [if_neg hneg, wayOf, if_neg (not_lt.mpr (le_of_lt hlt)), if_pos hlt]

/-! ## Numbers -/

/-- The number an integer or decimal denotes. -/
def exactNumber : Value → Option ℚ
  | .int i => some i.toInt
  | .uint u => some u.toNat
  | .decimal dec scale => some (decimalValue dec scale)
  | _ => none

/-- Two values whose words can be brought to one scale. -/
def Rescales (a b : Value) : Prop :=
  ∀ x ∈ exactLimbs a, ∀ y ∈ exactLimbs b, ScaleFits x.1 x.2 y.1 y.2

/-- Two integers, signed or not, are at one scale. -/
theorem rescales_integers {a b : Value} (ha : ∃ i, a = .int i ∨ a = .uint i)
    (hb : ∃ i, b = .int i ∨ b = .uint i) : Rescales a b := by
  intro x hx y hy
  rcases ha with ⟨i, rfl | rfl⟩ <;> rcases hb with ⟨j, rfl | rfl⟩ <;> cases hx <;> cases hy <;>
    exact scaleFits_self _ _ _

/-- A signed word with its sign spread over the words above it. -/
theorem toInt_spread (i fill : BitVec 64)
    (hfill : fill = if i.toInt < 0 then BitVec.allOnes 64 else 0) :
    (⟨i, fill, fill, fill⟩ : Limbs256).toInt = i.toInt := by
  have hlt := i.isLt
  have hcond := BitVec.toInt_eq_toNat_cond i
  unfold Limbs256.toInt
  rw [Limbs256.value_eq]
  by_cases hneg : i.toInt < 0
  · grind [Limbs256.negative]
  · grind [Limbs256.negative]

theorem exactLimbs_number {v : Value} {x : ℚ} (h : exactNumber v = some x) :
    ∃ l s, exactLimbs v = some (l, s) ∧ decimalValue l s = x := by
  unfold exactNumber at h
  split at h
  · rename_i i
    refine ⟨_, 0, rfl, ?_⟩
    rw [← Option.some.inj h, decimalValue, toInt_spread i _ rfl, neg_zero, zpow_zero, mul_one]
  · rename_i u
    refine ⟨_, 0, rfl, ?_⟩
    rw [← Option.some.inj h, decimalValue, neg_zero, zpow_zero, mul_one, Limbs256.toInt,
      Limbs256.value_eq]
    simp [Limbs256.negative]
  · rename_i dec scale
    exact ⟨dec, scale, rfl, Option.some.inj h⟩
  · cases h

/-- A signed word against an unsigned one. -/
theorem mixedWay (x y : BitVec 64) :
    (if x.toInt < 0 then -1 else threeWay x.toNat y.toNat) = wayOf x.toInt y.toNat ∧
      (if x.toInt < 0 then 1 else threeWay y.toNat x.toNat) = wayOf (y.toNat : Int) x.toInt := by
  have hcond := BitVec.toInt_eq_toNat_cond x
  have hlt := x.isLt
  unfold threeWay wayOf
  constructor
  · grind
  · grind

/-- With a decimal on one side both sides are words and a scale. -/
theorem compare_limbs (m : Machine) {a b : Value} (hdec : (a.isDecimal || b.isDecimal) = true)
    {x y : Limbs256 × Int} (hx : exactLimbs a = some x) (hy : exactLimbs b = some y) :
    compare m a b = some (compareDecimal x.1 x.2 y.1 y.2) := by
  cases a <;> try cases hx
  all_goals
    cases b <;> try cases hy
    all_goals first | rfl | cases hdec

/-- **Integers and decimals are compared as the numbers they are.** -/
theorem compare_numbers (m : Machine) (a b : Value) (x y : ℚ) (hx : exactNumber a = some x)
    (hy : exactNumber b = some y) (h : Rescales a b) : compare m a b = some (wayOf x y) := by
  by_cases hdec : (a.isDecimal || b.isDecimal) = true
  · rcases exactLimbs_number hx with ⟨la, sa, hla, rfl⟩
    rcases exactLimbs_number hy with ⟨lb, sb, hlb, rfl⟩
    rw [compare_limbs m hdec hla hlb, compareDecimal_eq (h _ hla _ hlb)]
  · have hint : ∀ i j : Int, wayOf (i : ℚ) (j : ℚ) = wayOf i j := fun i j =>
      wayOf_congr Int.cast_lt Int.cast_lt
    have hnat : ∀ n : Nat, (n : ℚ) = ((n : Int) : ℚ) := fun n => (Int.cast_natCast n).symm
    -- Two words: unsigned ones are numbers, signed ones are told apart by their sign.
    cases a with
    | int i =>
      rw [← Option.some.inj hx]
      cases b with
      | int j => rw [← Option.some.inj hy, hint, ← threeWay_eq]; rfl
      | uint v => rw [← Option.some.inj hy, hnat, hint, ← (mixedWay i v).1]; rfl
      | decimal _ _ => exact absurd rfl hdec
      | _ => cases hy
    | uint u =>
      rw [← Option.some.inj hx, hnat]
      cases b with
      | int j => rw [← Option.some.inj hy, hint, ← (mixedWay j u).2]; rfl
      | uint v => rw [← Option.some.inj hy, hnat, hint, ← threeWay_eq]; rfl
      | decimal _ _ => exact absurd rfl hdec
      | _ => cases hy
    | decimal _ _ => exact absurd rfl hdec
    | _ => cases hx

/-! ## Durations -/

/-- The sign of a difference, by a division. -/
theorem compareScaled_eq (x : Int) {k : Int} (y : Int) (hk : 0 < k) :
    compareScaled x k y = wayOf (x * k) y := by
  have hdiv := Int.mul_tdiv_add_tmod y k
  have hlt := Int.tmod_lt_of_pos y hk
  have hgt := Int.lt_tmod_of_pos y hk
  -- The quotient rounded down and its remainder, which is not negative.
  have hround : ∀ q r : Int, k * q + r = y → 0 ≤ r → r < k →
      (if x > q then (1 : Int) else if x < q then -1 else if r > 0 then -1 else 0) =
        wayOf (x * k) y := by
    intro q r hy hr hrk
    unfold wayOf
    rcases lt_trichotomy x q with h | h | h
    · have hle : (x + 1) * k ≤ q * k := Int.mul_le_mul_of_nonneg_right h (le_of_lt hk)
      grind
    · grind
    · have hle : (q + 1) * k ≤ x * k := Int.mul_le_mul_of_nonneg_right h (le_of_lt hk)
      grind
  unfold compareScaled
  by_cases hneg : y.tmod k < 0
  · simp only [if_pos hneg]
    exact hround _ _ (by grind) (by omega) (by omega)
  · simp only [if_neg hneg]
    exact hround _ _ hdiv (by omega) hlt

/-- **Durations are compared as the times they are.** -/
theorem compareDuration_eq (a : Int) (u : TimeUnit) (b : Int) (v : TimeUnit) :
    compareDuration a u b v = wayOf (a * unitToNs u) (b * unitToNs v) := by
  have hpos : ∀ w, 0 < unitToNs w := by
    intro w
    cases w <;> decide
  have hscale : ∀ x y k : Int, 0 < k → wayOf (x * k) (y * k) = wayOf x y := fun x y k hk =>
    wayOf_congr (mul_lt_mul_iff_left₀ hk) (mul_lt_mul_iff_left₀ hk)
  have hdiv : ∀ u v, unitToNs v < unitToNs u →
      unitToNs u = (unitToNs u).tdiv (unitToNs v) * unitToNs v ∧
        0 < (unitToNs u).tdiv (unitToNs v) := by
    intro u v
    cases u <;> cases v <;> decide
  unfold compareDuration
  by_cases heq : unitToNs u = unitToNs v
  · grind [threeWay_eq]
  · simp only [if_neg heq]
    by_cases hgt : unitToNs u > unitToNs v
    · rcases hdiv u v hgt with ⟨hmul, hk⟩
      rw [if_pos hgt, compareScaled_eq _ _ hk, ← hscale _ _ _ (hpos v), mul_assoc, ← hmul]
    · rcases hdiv v u (by omega) with ⟨hmul, hk⟩
      rw [if_neg hgt, compareScaled_eq _ _ hk, ← hscale _ _ _ (hpos u), mul_assoc, ← hmul,
        ← wayOf_swap]

/-! ## The order -/

/-- `a` does not come after `b`. -/
def NotAfter (m : Machine) (a b : Value) : Prop := ∃ way, compare m a b = some way ∧ way ≤ 0

/-- The order of some values: each two have one, and it is transitive. -/
structure Preordered (m : Machine) (s : Set Value) : Prop where
  total : ∀ a ∈ s, ∀ b ∈ s, NotAfter m a b ∨ NotAfter m b a
  trans : ∀ a ∈ s, ∀ b ∈ s, ∀ c ∈ s, NotAfter m a b → NotAfter m b c → NotAfter m a c

/-- Values that are compared by a number of theirs are in order. -/
theorem preordered_of (m : Machine) (s : Set Value) {α : Type} [LinearOrder α] (f : Value → α)
    (h : ∀ a ∈ s, ∀ b ∈ s, compare m a b = some (wayOf (f a) (f b))) : Preordered m s := by
  have hiff : ∀ a ∈ s, ∀ b ∈ s, (NotAfter m a b ↔ f a ≤ f b) := by
    intro a ha b hb
    rw [← wayOf_nonpos, NotAfter, h a ha b hb]
    simp
  constructor
  · grind
  · grind

/-- A duration in nanoseconds. -/
def exactNanos : Value → Option Int
  | .duration count unit => some (count.toInt * unitToNs unit)
  | _ => none

theorem compare_durations (m : Machine) (a b : Value) (x y : Int) (hx : exactNanos a = some x)
    (hy : exactNanos b = some y) : compare m a b = some (wayOf x y) := by
  cases a with
  | duration c u =>
    cases b with
    | duration d v =>
      rw [← Option.some.inj hx, ← Option.some.inj hy, ← compareDuration_eq]
      rfl
    | _ => cases hy
  | _ => cases hx

/-- Values of one kind: numbers that can be brought to one scale, or durations. -/
def OneKind (s : Set Value) : Prop :=
  (∀ a ∈ s, (exactNumber a).isSome ∧ ∀ b ∈ s, Rescales a b) ∨ ∀ a ∈ s, (exactNanos a).isSome

/-- **Integers, decimals and durations are compared exactly.** Two numbers that can
    be brought to one scale and two durations in any units have the sign of the
    difference of what they denote, and so are in order. -/
theorem exact_comparisons (m : Machine) :
    (∀ a b x y, exactNumber a = some x → exactNumber b = some y → Rescales a b →
      compare m a b = some (wayOf x y)) ∧
    (∀ a b x y, exactNanos a = some x → exactNanos b = some y →
      compare m a b = some (wayOf x y)) ∧
    ∀ s, OneKind s → Preordered m s := by
  refine ⟨compare_numbers m, compare_durations m, ?_⟩
  intro s hs
  rcases hs with hs | hs
  · refine preordered_of m s (fun a => (exactNumber a).getD 0) (fun a ha b hb => ?_)
    rcases Option.isSome_iff_exists.mp (hs a ha).1 with ⟨x, hx⟩
    rcases Option.isSome_iff_exists.mp (hs b hb).1 with ⟨y, hy⟩
    simpa [hx, hy] using compare_numbers m a b x y hx hy ((hs a ha).2 b hb)
  · refine preordered_of m s (fun a => (exactNanos a).getD 0) (fun a ha b hb => ?_)
    rcases Option.isSome_iff_exists.mp (hs a ha) with ⟨x, hx⟩
    rcases Option.isSome_iff_exists.mp (hs b hb) with ⟨y, hy⟩
    simpa [hx, hy] using compare_durations m a b x y hx hy

/-- A machine whose words wrap. -/
def wrapping : Machine where
  overflow := BitVec.ofInt 64
  ofInt := fun _ => ⟨0⟩
  ofUInt := fun _ => ⟨0⟩
  ofDecimal := fun _ _ => ⟨0⟩

theorem exact_comparisons_mixed :
    compare wrapping (.decimal ⟨250, 0, 0, 0⟩ 2) (.int 2) = some 1 ∧
      compare wrapping (.duration (BitVec.intMax 64) .second) (.duration 1 .nano) = some 1 ∧
      Preordered wrapping {v | ∃ i, v = .int i ∨ v = .uint i} ∧
      Preordered wrapping {v | (exactNanos v).isSome} := by
  have hfits : Rescales (.decimal ⟨250, 0, 0, 0⟩ 2) (.int 2) := by
    intro x hx y hy
    cases hx
    cases hy
    exact ⟨by decide, by decide, by decide +kernel, by decide +kernel⟩
  have hfirst := (exact_comparisons wrapping).1 _ _ _ _ rfl rfl hfits
  have hsecond := (exact_comparisons wrapping).2.1 (.duration (BitVec.intMax 64) .second)
    (.duration 1 .nano) _ _ rfl rfl
  have hkind : OneKind {v | ∃ i, v = .int i ∨ v = .uint i} := by
    refine .inl (fun a ha => ⟨?_, fun b hb => rescales_integers ha hb⟩)
    rcases ha with ⟨i, rfl | rfl⟩ <;> rfl
  refine ⟨?_, ?_, (exact_comparisons wrapping).2.2 _ hkind,
    (exact_comparisons wrapping).2.2 _ (.inr (fun _ h => h))⟩
  · rw [hfirst, decimalValue, show (⟨250, 0, 0, 0⟩ : Limbs256).toInt = 250 by decide,
      show (2 : BitVec 64).toInt = 2 by decide]
    norm_num [wayOf]
  · rw [hsecond]
    decide

/-! ## Dates and timestamps -/

/-- A row of a date or timestamp column. -/
inductive Temporal where
  | date32 (days : BitVec 32)
  | date64 (millis : BitVec 64)
  | timestamp (count : BitVec 64) (unit : TimeUnit)
  deriving DecidableEq, Repr

namespace Temporal

def column : Temporal → ColumnType
  | .date32 _ => .date32
  | .date64 _ => .date64
  | .timestamp _ unit => .timestamp unit

def cell : (t : Temporal) → t.column.Cell
  | .date32 days => days
  | .date64 millis => millis
  | .timestamp count _ => count

/-- Nanoseconds since the epoch. -/
def instant : Temporal → Int
  | .date32 days => days.toInt * nsPerDay
  | .date64 millis => millis.toInt * 1000000
  | .timestamp count unit => count.toInt * unitToNs unit

def value (m : Machine) (t : Temporal) : Value := readScalar m t.column t.cell

end Temporal

/-- The word of a product. -/
def word (m : Machine) (n : Int) : BitVec 64 :=
  if Fits n then BitVec.ofInt 64 n else m.overflow n

theorem word_toInt (m : Machine) {n : Int} (h : Fits n) : (word m n).toInt = n := by
  rw [word, if_pos h]
  exact BitVec.toInt_ofInt_eq_self (by decide) h.1 h.2

theorem asNs_value (m : Machine) (t : Temporal) : (t.value m).asNs m = some (word m t.instant) := by
  cases t with
  | date64 millis => rfl
  | timestamp count unit => rfl
  | date32 days =>
    -- The seconds of 32 bits of days fit in a word.
    have hlow := BitVec.le_toInt days
    have hhigh := BitVec.toInt_lt (x := days)
    have hdays : (BitVec.signExtend 64 days).toInt = days.toInt :=
      BitVec.toInt_signExtend_of_le (by decide)
    have hseconds : Fits ((BitVec.signExtend 64 days).toInt * 86400) := by
      unfold Fits
      omega
    have hinner : (mul64 m (BitVec.signExtend 64 days) 86400).toInt = days.toInt * 86400 := by
      rw [← hdays]
      exact word_toInt m hseconds
    change some (word m ((mul64 m (BitVec.signExtend 64 days) 86400).toInt * 1000000000)) = _
    rw [hinner, mul_assoc]
    rfl

/-- Both ways of comparing look at the two words. -/
theorem temporal_words (m : Machine) (x y : Temporal) :
    compare m (x.value m) (y.value m) =
        some (wayOf (word m x.instant).toInt (word m y.instant).toInt) ∧
      compareCell m x.column x.cell (y.value m) =
        some (wayOf (word m x.instant).toInt (word m y.instant).toInt) := by
  have hx := asNs_value m x
  have hy := asNs_value m y
  have hcompare : compare m (x.value m) (y.value m) =
      ((x.value m).asNs m).bind (fun a =>
        ((y.value m).asNs m).map (fun b => threeWay a.toInt b.toInt)) := by
    cases x <;> cases y <;> rfl
  constructor
  · rw [hcompare, hx, hy]
    rfl
  · cases x with
    | date32 days =>
      change compareTemporal m (BitVec.signExtend 64 days) nsPerDay _ = _
      have hdays : (BitVec.signExtend 64 days).toInt = days.toInt :=
        BitVec.toInt_signExtend_of_le (by decide)
      rw [compareTemporal, hy, mul64, hdays]
      rfl
    | date64 millis =>
      change compareTemporal m millis 1000000 _ = _
      rw [compareTemporal, hy]
      rfl
    | timestamp count unit =>
      change compareTemporal m count (unitToNs unit) _ = _
      rw [compareTemporal, hy]
      rfl

/-- Products that do not fit can come out the wrong way round. -/
theorem exists_wrong {a b : Int} (hne : a ≠ b) (hfits : ¬(Fits a ∧ Fits b)) :
    ∃ m : Machine, wayOf (word m a).toInt (word m b).toInt ≠ wayOf a b := by
  -- The smaller product becomes the largest word, the larger one the smallest.
  let m : Machine := ⟨fun n => if n = min a b then BitVec.intMax 64 else BitVec.intMin 64,
    fun _ => ⟨0⟩, fun _ => ⟨0⟩, fun _ _ => ⟨0⟩⟩
  have hword : ∀ n, (word m n).toInt =
      if Fits n then n else if n = min a b then 2 ^ 63 - 1 else -2 ^ 63 := by
    intro n
    by_cases hn : Fits n
    · rw [if_pos hn, word_toInt m hn]
    · rw [if_neg hn, word, if_neg hn, apply_ite BitVec.toInt]
      rfl
  grind [wayOf, Fits]

/-- **Dates and timestamps are in the order of their instants if and only if the
    nanoseconds of both fit in a word, or they are one instant.** -/
theorem temporal_order_iff (x y : Temporal) :
    (∀ m : Machine,
      compare m (x.value m) (y.value m) = some (wayOf x.instant y.instant) ∧
        compareCell m x.column x.cell (y.value m) = some (wayOf x.instant y.instant)) ↔
      (Fits x.instant ∧ Fits y.instant) ∨ x.instant = y.instant := by
  constructor
  · intro h
    by_contra hnot
    rw [not_or] at hnot
    rcases exists_wrong hnot.2 hnot.1 with ⟨m, hm⟩
    have hwords := (temporal_words m x y).1
    grind
  · intro h m
    rw [(temporal_words m x y).1, (temporal_words m x y).2]
    rcases h with ⟨hx, hy⟩ | heq
    · rw [word_toInt m hx, word_toInt m hy]
      exact ⟨rfl, rfl⟩
    · rw [heq]
      simp [wayOf]

theorem temporal_order_iff_date :
    Fits (Temporal.date32 19000).instant ∧
      compare wrapping ((Temporal.date32 19000).value wrapping)
        ((Temporal.timestamp 1641600001 .second).value wrapping) = some (-1) := by
  have h := (temporal_order_iff (.date32 19000) (.timestamp 1641600001 .second)).mpr
    (.inl (by decide)) wrapping
  exact ⟨by decide, h.1.trans (by decide)⟩

/-- A time of the year 2262 is put before 1970. -/
theorem late_timestamp_first :
    compare wrapping ((Temporal.timestamp 9223372037 .second).value wrapping)
        ((Temporal.timestamp 0 .second).value wrapping) = some (-1) ∧
      compareCell wrapping (.timestamp .second) (9223372037 : BitVec 64)
        ((Temporal.timestamp 0 .second).value wrapping) = some (-1) ∧
      wayOf (Temporal.timestamp 9223372037 .second).instant
        (Temporal.timestamp 0 .second).instant = 1 := by
  decide

end Expr

end NanoLance
