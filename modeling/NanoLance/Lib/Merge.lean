import Mathlib.Algebra.Order.Ring.Int
import Mathlib.Data.List.TakeWhile

/-!
# Union and Intersection of Sorted Ranges

The two merges of the C++ standard library, as their loops run: the first range
is gone through, and the second is followed up to each element of it. An element
of both comes out once.

The union has every element of both whatever their order. The intersection needs
both ranges ascending, which is what the standard asks of its callers.

## Main definitions

* `setUnion`, `setIntersection`: The merges.

## Theorems

* `mem_setUnion`, `mem_setIntersection`: The elements of a merge.
* `setUnion_ascending`, `setIntersection_sublist`: Their order.
-/

namespace NanoLance

namespace Lib

open List

variable {α : Type} [LinearOrder α]

/-- The second range past the elements below `x`, and past `x`. -/
def skipEqual (x : α) : List α → List α
  | [] => []
  | y :: rest => if x < y then y :: rest else rest

def setUnion : List α → List α → List α
  | [], b => b
  | x :: a, b => b.takeWhile (· < x) ++ x :: setUnion a (skipEqual x (b.dropWhile (· < x)))

def setIntersection : List α → List α → List α
  | [], _ => []
  | x :: a, b =>
    match b.dropWhile (· < x) with
    | [] => []
    | y :: rest => if x < y then setIntersection a (y :: rest) else x :: setIntersection a rest

theorem dropWhile_head {x y : α} {b rest : List α} (h : b.dropWhile (· < x) = y :: rest) :
    x ≤ y := by
  have hhead := head?_dropWhile_not (fun z => decide (z < x)) b
  grind

variable (x z : α) (b : List α)

/-- Following an ascending range up to `x` passes nothing that is not below it. -/
theorem mem_dropWhile_lt (x z : α) (hz : x ≤ z) :
    z ∈ b.dropWhile (· < x) ↔ z ∈ b := by
  have hsplit : z ∈ b ↔ z ∈ b.takeWhile (· < x) ∨ z ∈ b.dropWhile (· < x) := by
    rw [← mem_append, takeWhile_append_dropWhile]
  rw [hsplit]
  refine ⟨.inr, fun h => h.elim (fun h => ?_) (fun h => h)⟩
  have := mem_takeWhile_imp h
  grind

/-- Where an ascending range stands after it was followed up to an element of it. -/
theorem head_dropWhile_lt (hb : b.Pairwise (· < ·)) (x : α) :
    (b.dropWhile (· < x)).head? = some x ↔ x ∈ b := by
  rw [← mem_dropWhile_lt b x x (le_refl x)]
  have hsorted : (b.dropWhile (· < x)).Pairwise (· < ·) := hb.sublist (dropWhile_sublist _)
  cases hdrop : b.dropWhile (· < x) with
  | nil => exact ⟨fun h => (by cases h), nofun⟩
  | cons y rest =>
    have hle := dropWhile_head hdrop
    rw [hdrop, pairwise_cons] at hsorted
    grind

/-- What is past `x` in the second range, with `x` itself, is what is not below it. -/
theorem mem_skipEqual :
    z = x ∨ z ∈ skipEqual x (b.dropWhile (· < x)) ↔ z = x ∨ z ∈ b.dropWhile (· < x) := by
  cases h : b.dropWhile (· < x) with
  | nil => rfl
  | cons y rest =>
    have hle := dropWhile_head h
    rw [skipEqual]
    grind

theorem mem_setUnion (a b : List α) : z ∈ setUnion a b ↔ z ∈ a ∨ z ∈ b := by
  induction a generalizing b with
  | nil => exact ⟨.inr, fun h => h.elim nofun (fun h => h)⟩
  | cons x a ih =>
    have hb : z ∈ b ↔ z ∈ b.takeWhile (· < x) ∨ z ∈ b.dropWhile (· < x) := by
      rw [← mem_append, takeWhile_append_dropWhile]
    have hskip := mem_skipEqual x z b
    rw [setUnion, mem_append, mem_cons, ih, mem_cons, hb]
    constructor
    · grind
    · grind

theorem skipEqual_sublist : List.Sublist (skipEqual x b) b := by
  cases b with
  | nil => exact List.Sublist.refl _
  | cons y rest => grind [skipEqual]

/-- What is past `x` is above it. -/
theorem lt_of_mem_skipEqual (hb : b.Pairwise (· < ·)) (h : z ∈ skipEqual x (b.dropWhile (· < x))) :
    x < z := by
  cases hdrop : b.dropWhile (· < x) with
  | nil =>
    rw [hdrop] at h
    nomatch h
  | cons y rest =>
    have hle := dropWhile_head hdrop
    have hsorted : (y :: rest).Pairwise (· < ·) := by
      rw [← hdrop]
      exact hb.sublist (dropWhile_sublist _)
    rw [hdrop, skipEqual] at h
    split at h
    · next hlt =>
      rcases mem_cons.mp h with rfl | hz
      · exact hlt
      · exact lt_trans hlt ((pairwise_cons.mp hsorted).1 z hz)
    · exact lt_of_le_of_lt hle ((pairwise_cons.mp hsorted).1 z h)

theorem setUnion_ascending (a b : List α) (ha : a.Pairwise (· < ·)) (hb : b.Pairwise (· < ·)) :
    (setUnion a b).Pairwise (· < ·) := by
  induction a generalizing b with
  | nil => exact hb
  | cons x a ih =>
    rcases pairwise_cons.mp ha with ⟨hx, ha'⟩
    have hrest : (skipEqual x (b.dropWhile (· < x))).Pairwise (· < ·) :=
      hb.sublist ((skipEqual_sublist x _).trans (dropWhile_sublist _))
    have habove : ∀ z ∈ setUnion a (skipEqual x (b.dropWhile (· < x))), x < z := by
      intro z hz
      rcases (mem_setUnion z _ _).mp hz with hz | hz
      · exact hx z hz
      · exact lt_of_mem_skipEqual x z b hb hz
    rw [setUnion, pairwise_append, pairwise_cons]
    refine ⟨hb.sublist (takeWhile_sublist _), ⟨habove, ih _ ha' hrest⟩, ?_⟩
    intro y hy z hz
    have hlt : y < x := by
      have := mem_takeWhile_imp hy
      rwa [decide_eq_true_eq] at this
    grind

theorem setIntersection_sublist (a b : List α) : List.Sublist (setIntersection a b) a := by
  induction a generalizing b with
  | nil => exact List.Sublist.refl _
  | cons x a ih => grind [setIntersection]

theorem mem_setIntersection (a b : List α) (ha : a.Pairwise (· < ·)) (hb : b.Pairwise (· < ·)) :
    z ∈ setIntersection a b ↔ z ∈ a ∧ z ∈ b := by
  induction a generalizing b with
  | nil => exact ⟨nofun, fun h => absurd h.1 not_mem_nil⟩
  | cons x a ih =>
    rcases pairwise_cons.mp ha with ⟨hx, ha'⟩
    have hbelow := fun z => mem_dropWhile_lt b x z
    have hdropped : (b.dropWhile (· < x)).Pairwise (· < ·) :=
      hb.sublist (dropWhile_sublist _)
    unfold setIntersection
    split
    · grind
    · next y rest hdrop =>
      have hle := dropWhile_head hdrop
      rw [hdrop] at hdropped
      rcases pairwise_cons.mp hdropped with ⟨hy, hrest⟩
      split
      · next hlt =>
        rw [ih (y :: rest) ha' hdropped]
        constructor
        · grind
        · rintro ⟨hz, hin⟩
          rcases mem_cons.mp hz with rfl | hz
          · grind
          · grind
      · next hnot =>
        have heq : y = x := le_antisymm (not_lt.mp hnot) hle
        subst heq
        rw [mem_cons, ih rest ha' hrest]
        constructor
        · grind
        · grind

end Lib

end NanoLance
