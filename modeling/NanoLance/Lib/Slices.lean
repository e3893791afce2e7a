import Mathlib.Algebra.Order.Ring.Int
import Mathlib.Data.List.Basic

/-!
# Slices of Lists

A slice is the part of a list between two positions, and nothing where the
second is not past the first. A range cut into tiles gives the slices of the
list between the cuts, and cutting every tile down to one window leaves the
window: `flatMap_tiles` says so for tiles whose ends are positions by way of a
monotone function, as rows are when some of them are skipped.

## Main definitions

* `slice`: The part of a list between two positions.

## Theorems

* `slice_append_slice`, `slice_append`: Slices next to each other, and the slice
  of two lists end to end.
-/

namespace NanoLance

namespace Lib

open List

variable {α β : Type}

def slice (l : List α) (lo hi : Nat) : List α := (l.drop lo).take (hi - lo)

variable (l : List α)

variable {hi lo a b : Nat} {tiles : List (Nat × Nat)}

theorem slice_of_le (h : hi ≤ lo) : slice l lo hi = [] := by
  rw [slice, Nat.sub_eq_zero_of_le h, take_zero]

theorem slice_zero (h : l.length ≤ hi) : slice l 0 hi = l := by
  rw [slice, drop_zero, Nat.sub_zero, take_of_length_le h]

theorem slice_map (f : α → β) (l : List α) (lo hi : Nat) :
    slice (l.map f) lo hi = (slice l lo hi).map f := by
  rw [slice, slice, map_take, map_drop]

/-- What is past the end does not count. -/
theorem slice_min (lo hi : Nat) : slice l lo (min hi l.length) = slice l lo hi := by
  unfold slice
  by_cases h : hi ≤ l.length
  · rw [Nat.min_eq_left h]
  · rw [Nat.min_eq_right (by omega), take_of_length_le (Nat.le_of_eq length_drop),
      take_of_length_le (by rw [length_drop]; omega)]

theorem slice_append_slice {mid : Nat} (h₁ : lo ≤ mid) (h₂ : mid ≤ hi) :
    slice l lo mid ++ slice l mid hi = slice l lo hi := by
  unfold slice
  have hdrop : l.drop mid = (l.drop lo).drop (mid - lo) := by
    rw [drop_drop]
    congr 1
    omega
  rw [hdrop, ← take_add]
  congr 1
  omega

/-- A slice of two lists end to end has a part in each. -/
theorem slice_append (l₁ l₂ : List α) (lo hi : Nat) :
    slice (l₁ ++ l₂) lo hi =
      slice l₁ lo hi ++ slice l₂ (lo - l₁.length) (hi - l₁.length) := by
  unfold slice
  rw [drop_append, take_append, length_drop]
  congr 2
  omega

/-- A slice of a slice. -/
theorem slice_slice (lo hi a b : Nat) (h : lo + b ≤ hi) :
    slice (slice l lo hi) a b = slice l (lo + a) (lo + b) := by
  unfold slice
  rw [drop_take, take_take, drop_drop]
  congr 1
  omega

/-- Ranges that follow each other from `a` to `b`. -/
def Tiles : Nat → Nat → List (Nat × Nat) → Prop
  | a, b, [] => a = b
  | a, b, t :: rest => t.1 = a ∧ a ≤ t.2 ∧ Tiles t.2 b rest

theorem Tiles.le (h : Tiles a b tiles) : a ≤ b := by
  induction tiles generalizing a with
  | nil => exact Nat.le_of_eq h
  | cons t rest ih => exact Nat.le_trans h.2.1 (ih h.2.2)

theorem Tiles.within (h : Tiles a b tiles) :
    ∀ t ∈ tiles, a ≤ t.1 ∧ t.1 ≤ t.2 ∧ t.2 ≤ b := by
  induction tiles generalizing a with
  | nil => exact nofun
  | cons t rest ih =>
    rcases h with ⟨hstart, hle, hrest⟩
    intro u hu
    rcases mem_cons.mp hu with rfl | hin
    · exact ⟨Nat.le_of_eq hstart.symm, by omega, hrest.le⟩
    · grind

/-- Two slices that meet, cut down to a window. -/
theorem slice_window {c : Nat} (h₁ : a ≤ b) (h₂ : b ≤ c) (lo hi : Nat) :
    slice l (max a lo) (min b hi) ++ slice l (max b lo) (min c hi) =
      slice l (max a lo) (min c hi) := by
  -- The window begins past the meeting point, or ends before it, or they meet in it.
  by_cases hlo : b ≤ lo
  · rw [slice_of_le l (show min b hi ≤ max a lo by omega), nil_append]
    congr 1
    omega
  · by_cases hhi : hi ≤ b
    · rw [slice_of_le l (show min c hi ≤ max b lo by omega), append_nil]
      congr 1
      omega
    · rw [Nat.min_eq_left (show b ≤ hi by omega), Nat.max_eq_left (show lo ≤ b by omega)]
      exact slice_append_slice l (by omega) (by omega)

/-- The tiles of a range, each cut down to a window, are the range cut down to it. -/
theorem flatMap_tiles {position : Nat → Nat} (hmono : ∀ a b, a ≤ b → position a ≤ position b)
    (lo hi : Nat) (h : Tiles a b tiles) :
    tiles.flatMap (fun t => slice l (max (position t.1) lo) (min (position t.2) hi)) =
      slice l (max (position a) lo) (min (position b) hi) := by
  induction tiles generalizing a with
  | nil =>
    rw [flatMap_nil, show a = b from h]
    exact (slice_of_le l (by omega)).symm
  | cons t rest ih =>
    rcases h with ⟨hstart, hle, hrest⟩
    rw [flatMap_cons, ih hrest, hstart]
    exact slice_window l (hmono _ _ hle) (hmono _ _ hrest.le) lo hi

end Lib

end NanoLance
