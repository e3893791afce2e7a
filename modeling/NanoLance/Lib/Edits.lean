import Mathlib.Algebra.Order.Ring.Int

/-!
# Edits of a List

`Edits n a b` says that `n` single edits, each anywhere in the list, turn `a` into `b`, so the
Levenshtein distance is the least such `n`. It is computed by `distance`, which compares the heads:
one edit moves the distance by one at most, and as many edits as the distance are enough. Reversing
both lists reverses the edits, so a comparison from the ends computes the same number.

## Theorems

* `distance_le_iff`: The distance is the least number of edits.
* `distance_reverse_le_iff`: The same from the ends of the lists.
-/

namespace NanoLance

namespace Lib

open List

variable {α : Type}

inductive Edit : List α → List α → Prop
  | substitute (p s : List α) (x y : α) : Edit (p ++ x :: s) (p ++ y :: s)
  | insert (p s : List α) (y : α) : Edit (p ++ s) (p ++ y :: s)
  | delete (p s : List α) (x : α) : Edit (p ++ x :: s) (p ++ s)

inductive Edits : Nat → List α → List α → Prop
  | refl (a : List α) : Edits 0 a a
  | step {n : Nat} {a b c : List α} : Edits n a b → Edit b c → Edits (n + 1) a c

def distance [DecidableEq α] : List α → List α → Nat
  | [], b => b.length
  | x :: a, [] => a.length + 1
  | x :: a, y :: b =>
    min (distance a b + if x = y then 0 else 1)
      (min (distance a (y :: b) + 1) (distance (x :: a) b + 1))

variable {n : Nat} {a b c : List α} {x y : α}

theorem Edit.cons (z : α) (h : Edit a b) : Edit (z :: a) (z :: b) := by
  cases h with
  | substitute p s x y => exact .substitute (z :: p) s x y
  | insert p s y => exact .insert (z :: p) s y
  | delete p s x => exact .delete (z :: p) s x

theorem Edit.reverse (h : Edit a b) : Edit a.reverse b.reverse := by
  cases h with
  | substitute p s x y => simpa using Edit.substitute s.reverse p.reverse x y
  | insert p s y => simpa using Edit.insert s.reverse p.reverse y
  | delete p s x => simpa using Edit.delete s.reverse p.reverse x

theorem Edits.cons (z : α) (h : Edits n a b) : Edits n (z :: a) (z :: b) := by
  induction h with
  | refl a => exact .refl _
  | step _ hedit ih => exact .step ih (hedit.cons z)

theorem Edits.reverse (h : Edits n a b) : Edits n a.reverse b.reverse := by
  induction h with
  | refl a => exact .refl _
  | step _ hedit ih => exact .step ih hedit.reverse

variable [DecidableEq α]

theorem distance_nil (a : List α) : distance a [] = a.length := by
  cases a <;> simp [distance]

theorem distance_self (a : List α) : distance a a = 0 := by
  induction a with
  | nil => simp [distance]
  | cons x a ih => simp [distance, ih]

theorem distance_insert (a b : List α) (y : α) : distance a (y :: b) ≤ distance a b + 1 := by
  cases a with
  | nil => simp [distance]
  | cons x a =>
    rw [distance]
    omega

theorem distance_cons (a b : List α) (x : α) : distance (x :: a) b ≤ distance a b + 1 := by
  cases b with
  | nil => simp [distance_nil]
  | cons y b =>
    rw [distance]
    omega

theorem length_le_distance (a b : List α) :
    a.length ≤ b.length + distance a b ∧ b.length ≤ a.length + distance a b := by
  induction a, b using distance.induct with
  | case1 b => simp [distance]
  | case2 x a => simp [distance]
  | case3 x a y b hboth hdelete hinsert =>
    simp only [distance, length_cons] at *
    omega

/-- An edit of the tails moves the distance of the whole lists no further. -/
theorem distance_under (z : α) (h : ∀ a, distance a c ≤ distance a b + 1) :
    ∀ a, distance a (z :: c) ≤ distance a (z :: b) + 1 := by
  intro a
  induction a with
  | nil => simpa [distance] using h []
  | cons x a ih =>
    have hboth := h a
    have hlonger := h (x :: a)
    simp only [distance]
    omega

/-- One edit moves the distance by one at most. -/
theorem Edit.distance_le (h : Edit b c) : ∀ a, distance a c ≤ distance a b + 1 := by
  cases h with
  | substitute p s x y =>
    induction p with
    | nil =>
      intro a
      induction a with
      | nil => simp [distance]
      | cons z a ih =>
        simp only [nil_append, distance] at ih ⊢
        split <;> omega
    | cons z p ih => exact distance_under z ih
  | insert p s y =>
    induction p with
    | nil => exact fun a => distance_insert a s y
    | cons z p ih => exact distance_under z ih
  | delete p s x =>
    induction p with
    | nil =>
      intro a
      induction a with
      | nil =>
        simp only [nil_append, distance, length_cons]
        omega
      | cons z a ih =>
        have hcons := distance_cons a s z
        simp only [nil_append, distance] at ih ⊢
        omega
    | cons z p ih => exact distance_under z ih

theorem Edits.distance_le (h : Edits n a b) : distance a b ≤ n := by
  induction h with
  | refl a => exact Nat.le_of_eq (distance_self a)
  | step _ hedit ih => exact Nat.le_trans (hedit.distance_le _) (Nat.succ_le_succ ih)

/-- As many edits as the distance are enough. -/
theorem edits_distance (a b : List α) : Edits (distance a b) a b := by
  induction a, b using distance.induct with
  | case1 b =>
    rw [distance]
    induction b with
    | nil => exact .refl _
    | cons y b ih => exact .step ih (.insert [] b y)
  | case2 x a =>
    rw [distance_nil]
    induction a generalizing x with
    | nil => exact .step (.refl _) (.delete [] [] x)
    | cons y a ih => exact .step ((ih y).cons x) (.delete [] [] x)
  | case3 x a y b hboth hdelete hinsert =>
    rw [distance]
    -- The least of the three numbers says how the heads are aligned.
    rcases min_choice (distance a b + if x = y then 0 else 1)
      (min (distance a (y :: b) + 1) (distance (x :: a) b + 1)) with h | h
    · rw [h]
      by_cases hxy : x = y
      · rw [if_pos hxy, ← hxy]
        exact hboth.cons x
      · rw [if_neg hxy]
        exact .step (hboth.cons x) (.substitute [] b x y)
    · rw [h]
      rcases min_choice (distance a (y :: b) + 1) (distance (x :: a) b + 1) with h | h
      · rw [h]
        exact .step (hdelete.cons x) (.delete [] (y :: b) x)
      · rw [h]
        exact .step hinsert (.insert [] b y)

theorem distance_le_iff (a b : List α) (k : Nat) : distance a b ≤ k ↔ ∃ n ≤ k, Edits n a b :=
  ⟨fun h => ⟨_, h, edits_distance a b⟩, fun ⟨_, hle, h⟩ => Nat.le_trans h.distance_le hle⟩

theorem distance_reverse_le_iff (a b : List α) (k : Nat) :
    distance a.reverse b.reverse ≤ k ↔ ∃ n ≤ k, Edits n a b := by
  rw [distance_le_iff]
  refine exists_congr fun n => and_congr_right fun _ => ⟨fun h => ?_, Edits.reverse⟩
  simpa using h.reverse

end Lib

end NanoLance
