import Mathlib.Data.Nat.Digits.Defs

/-!
# Numbers in Limbs

A number of several machine words, least significant first, and the loops over
its words: multiplying by a word, comparing from the top, and negating in two's
complement. The value of the words is `Nat.ofDigits`, and each loop is held to
what it does to the value.

## Theorems

* `cmpTop_eq`: The order of the values.
* `complement_value`, `increment_value`: Negation.
* `halves_value`: Cutting keeps the value.
* `value_cut`, `cut_value`: A number and its limbs.
-/

namespace NanoLance

namespace Lib

namespace Limbs

open List

/-- Every limb is below the base. -/
def Small (base : Nat) (l : List Nat) : Prop := ∀ x ∈ l, x < base

variable {base x factor : Nat} {l : List Nat}

theorem Small.tail (h : Small base (x :: l)) : Small base l :=
  fun y hy => h y (.tail _ hy)

theorem Small.head (h : Small base (x :: l)) : x < base :=
  h x (.head _)

theorem value_lt (l : List Nat) (h : Small base l) :
    Nat.ofDigits base l < base ^ l.length := by
  induction l with
  | nil => simp
  | cons x l ih =>
    have hx := h.head
    have hl := ih h.tail
    rw [Nat.ofDigits_cons, length_cons, Nat.pow_succ]
    have hstep : base * (Nat.ofDigits base l + 1) ≤ base * base ^ l.length :=
      Nat.mul_le_mul_left base hl
    grind

/-- Every limb multiplied by a word, the carry going up; words of twice the width in between. -/
def mulSmall (base factor : Nat) : Nat → List Nat → List Nat
  | _, [] => []
  | carry, limb :: rest =>
    let t := (limb * factor + carry) % (base * base)
    t % base :: mulSmall base factor (t / base) rest

@[simp] theorem length_mulSmall (base factor carry : Nat) (l : List Nat) :
    (mulSmall base factor carry l).length = l.length := by
  induction l generalizing carry with
  | nil => rfl
  | cons x l ih => rw [mulSmall, length_cons, length_cons, ih]

theorem small_mulSmall (base factor carry : Nat) (l : List Nat) (hbase : 0 < base) :
    Small base (mulSmall base factor carry l) := by
  induction l generalizing carry with
  | nil => exact nofun
  | cons limb l ih =>
    intro x hx
    rw [mulSmall] at hx
    rcases mem_cons.mp hx with rfl | hx
    · exact Nat.mod_lt _ hbase
    · exact ih _ x hx

/-- One step of the loop stays in two words. -/
theorem step_lt {limb carry : Nat} (hlimb : limb < base) (hfactor : factor < base)
    (hcarry : carry < base) : limb * factor + carry < base * base := by
  have h₁ : limb * factor ≤ (base - 1) * (base - 1) :=
    Nat.mul_le_mul (by omega) (by omega)
  obtain ⟨b, rfl⟩ : ∃ b, base = b + 1 := ⟨base - 1, by omega⟩
  grind

/-- **The product modulo what the limbs hold.** -/
theorem mulSmall_mod (hfactor : factor < base) (l : List Nat) (h : Small base l) (carry : Nat)
    (hcarry : carry < base) :
    Nat.ofDigits base (mulSmall base factor carry l) =
      (Nat.ofDigits base l * factor + carry) % base ^ l.length := by
  induction l generalizing carry with
  | nil => simp [mulSmall, Nat.mod_one]
  | cons limb l ih =>
    have hbase : 0 < base := Nat.lt_of_le_of_lt (Nat.zero_le _) hfactor
    have ht := step_lt h.head hfactor hcarry
    have hnext : (limb * factor + carry) / base < base :=
      Nat.div_lt_of_lt_mul ht
    rw [mulSmall, Nat.ofDigits_cons, Nat.mod_eq_of_lt ht, ih h.tail _ hnext, Nat.ofDigits_cons,
      length_cons, Nat.pow_succ, Nat.mul_comm (base ^ l.length) base]
    -- The lowest limb and the rest, taken apart by the base.
    have hsplit : (limb + base * Nat.ofDigits base l) * factor + carry =
        (limb * factor + carry) % base +
          base * (Nat.ofDigits base l * factor + (limb * factor + carry) / base) := by
      have hdiv := Nat.mod_add_div (limb * factor + carry) base
      grind
    rw [hsplit, Nat.mod_mul, Nat.add_mul_mod_self_left, Nat.mod_mod,
      Nat.add_mul_div_left _ _ hbase, Nat.div_eq_of_lt (Nat.mod_lt _ hbase), Nat.zero_add]

/-- **The product, when it fits.** -/
theorem mulSmall_value (hfactor : factor < base) (l : List Nat) (h : Small base l)
    (hfits : Nat.ofDigits base l * factor < base ^ l.length) :
    Nat.ofDigits base (mulSmall base factor 0 l) = Nat.ofDigits base l * factor := by
  rw [mulSmall_mod hfactor l h 0 (Nat.lt_of_le_of_lt (Nat.zero_le _) hfactor), Nat.add_zero,
    Nat.mod_eq_of_lt hfits]

/-- The order of two numbers, from the most significant limb down. -/
def cmpTop : List Nat → List Nat → Int
  | x :: a, y :: b =>
    let above := cmpTop a b
    if above ≠ 0 then above else if x < y then -1 else if y < x then 1 else 0
  | _, _ => 0

theorem cmpTop_eq (a b : List Nat) (hlen : a.length = b.length) (ha : Small base a)
    (hb : Small base b) : cmpTop a b =
      if Nat.ofDigits base a < Nat.ofDigits base b then -1
      else if Nat.ofDigits base b < Nat.ofDigits base a then 1 else 0 := by
  induction a generalizing b with
  | nil => grind [cmpTop]
  | cons x a ih =>
    cases b with
    | nil => cases hlen
    | cons y b =>
      have hx := ha.head
      have hy := hb.head
      have hab := ih b (by simpa using hlen) ha.tail hb.tail
      rw [cmpTop, Nat.ofDigits_cons, Nat.ofDigits_cons]
      simp only [hab]
      rcases Nat.lt_trichotomy (Nat.ofDigits base a) (Nat.ofDigits base b) with h | h | h
      · -- The upper limbs decide: the lower ones are less than one of theirs.
        have hstep : base * (Nat.ofDigits base a + 1) ≤ base * Nat.ofDigits base b :=
          Nat.mul_le_mul_left base h
        grind
      · simp [h]
      · have hstep : base * (Nat.ofDigits base b + 1) ≤ base * Nat.ofDigits base a :=
          Nat.mul_le_mul_left base h
        grind

/-- Every bit turned. -/
def complement (base : Nat) (l : List Nat) : List Nat := l.map (fun x => base - 1 - x)

theorem complement_value (h : Small base l) :
    Nat.ofDigits base (complement base l) + Nat.ofDigits base l + 1 = base ^ l.length := by
  induction l with
  | nil => simp [complement]
  | cons x l ih =>
    have hx := h.head
    have hl := ih h.tail
    unfold complement at hl
    rw [complement, map_cons, Nat.ofDigits_cons, Nat.ofDigits_cons, length_cons, Nat.pow_succ, ← hl]
    grind

/-- One more, the carry going up until a limb does not wrap. -/
def increment (base : Nat) : List Nat → List Nat
  | [] => []
  | x :: rest =>
    if (x + 1) % base ≠ 0 then (x + 1) % base :: rest else 0 :: increment base rest

@[simp] theorem length_increment (base : Nat) (l : List Nat) :
    (increment base l).length = l.length := by
  induction l with
  | nil => rfl
  | cons x l ih =>
    rw [increment]
    grind

theorem small_increment (l : List Nat) (h : Small base l) :
    Small base (increment base l) := by
  induction l with
  | nil => exact h
  | cons x l ih =>
    have hx := h.head
    intro y hy
    rw [increment] at hy
    split at hy
    · rcases mem_cons.mp hy with rfl | hy
      · exact Nat.mod_lt _ (by omega)
      · exact h.tail y hy
    · rcases mem_cons.mp hy with rfl | hy
      · omega
      · exact ih h.tail y hy

theorem increment_value (l : List Nat) (h : Small base l) :
    Nat.ofDigits base (increment base l) = (Nat.ofDigits base l + 1) % base ^ l.length := by
  induction l with
  | nil => simp [increment]
  | cons x l ih =>
    have hx := h.head
    have hlt := value_lt (x :: l) h
    rw [Nat.ofDigits_cons, length_cons, Nat.pow_succ] at hlt
    rw [increment, Nat.ofDigits_cons, length_cons, Nat.pow_succ]
    by_cases hwrap : (x + 1) % base = 0
    · -- The limb is the highest there is, and the carry goes up.
      have hxtop : x + 1 = base := by
        rcases Nat.lt_or_ge (x + 1) base with hlt | hge
        · rw [Nat.mod_eq_of_lt hlt] at hwrap
          omega
        · omega
      rw [if_neg (fun hc => hc hwrap), Nat.ofDigits_cons, ih h.tail, Nat.zero_add]
      have hsum : x + base * Nat.ofDigits base l + 1 = base * (Nat.ofDigits base l + 1) := by
        rw [Nat.mul_add]
        omega
      rw [hsum, Nat.mul_comm (base ^ l.length) base, Nat.mul_mod_mul_left]
    · have hxlt : x + 1 < base := by
        rcases Nat.lt_or_ge (x + 1) base with hlt | hge
        · exact hlt
        · exact absurd (by rw [show x + 1 = base by omega, Nat.mod_self]) hwrap
      rw [if_pos hwrap, Nat.ofDigits_cons, Nat.mod_eq_of_lt hxlt]
      have hbound : x + 1 + base * Nat.ofDigits base l < base ^ l.length * base := by
        have hl := value_lt l h.tail
        have hstep : base * (Nat.ofDigits base l + 1) ≤ base * base ^ l.length :=
          Nat.mul_le_mul_left base hl
        grind
      rw [show x + base * Nat.ofDigits base l + 1 = x + 1 + base * Nat.ofDigits base l by omega,
        Nat.mod_eq_of_lt hbound]

/-- Words cut into a lower and an upper half. -/
def halves (base : Nat) (l : List Nat) : List Nat :=
  l.flatMap (fun x => [x % base, x / base])

theorem length_halves (base : Nat) (l : List Nat) : (halves base l).length = 2 * l.length := by
  induction l with
  | nil => rfl
  | cons x l ih =>
    unfold halves at ih ⊢
    grind

theorem halves_value (base : Nat) (l : List Nat) :
    Nat.ofDigits base (halves base l) = Nat.ofDigits (base * base) l := by
  induction l with
  | nil => rfl
  | cons x l ih =>
    unfold halves at ih ⊢
    rw [flatMap_cons, cons_append, cons_append, nil_append,
      Nat.ofDigits_cons, Nat.ofDigits_cons, ih, Nat.ofDigits_cons, Nat.mul_add, ← Nat.add_assoc,
      Nat.mod_add_div]
    ring

theorem small_halves (l : List Nat) (h : Small (base * base) l) (hbase : 0 < base) :
    Small base (halves base l) := by
  intro y hy
  rcases mem_flatMap.mp hy with ⟨x, hx, hy⟩
  rcases mem_cons.mp hy with rfl | hy
  · exact Nat.mod_lt _ hbase
  · rw [mem_singleton.mp hy]
    exact Nat.div_lt_of_lt_mul (h x hx)

theorem small_append {a b : List Nat} (ha : Small base a) (hb : Small base b) :
    Small base (a ++ b) :=
  fun x hx => (mem_append.mp hx).elim (ha x) (hb x)

/-- The lowest `n` limbs of a number. -/
def cut (base : Nat) : Nat → Nat → List Nat
  | 0, _ => []
  | n + 1, v => v % base :: cut base n (v / base)

theorem length_cut (base n v : Nat) : (cut base n v).length = n := by
  induction n generalizing v with
  | zero => rfl
  | succ n ih => rw [cut, length_cons, ih]

theorem small_cut (hbase : 0 < base) (n v : Nat) : Small base (cut base n v) := by
  induction n generalizing v with
  | zero => simp [cut, Small]
  | succ n ih => exact forall_mem_cons.mpr ⟨Nat.mod_lt _ hbase, ih (v / base)⟩

theorem value_cut (base n v : Nat) (h : v < base ^ n) : Nat.ofDigits base (cut base n v) = v := by
  induction n generalizing v with
  | zero => exact (Nat.lt_one_iff.mp h).symm
  | succ n ih =>
    rw [Nat.pow_succ'] at h
    rw [cut, Nat.ofDigits_cons, ih _ (Nat.div_lt_of_lt_mul h)]
    exact Nat.mod_add_div v base

theorem cut_value (l : List Nat) (h : Small base l) :
    cut base l.length (Nat.ofDigits base l) = l := by
  induction l with
  | nil => rfl
  | cons x l ih =>
    have hx := h.head
    rw [Nat.ofDigits_cons, length_cons, cut, Nat.add_mul_mod_self_left, Nat.mod_eq_of_lt hx,
      Nat.add_mul_div_left _ _ (by omega), Nat.div_eq_of_lt hx, Nat.zero_add, ih h.tail]

end Limbs

end Lib

end NanoLance
