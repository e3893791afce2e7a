import Mathlib.Algebra.Order.Ring.Int
import Mathlib.Data.List.Sort

/-!
# Editing Lists in Place

The two list edits an imperative program makes through `std::find_if`: change
the first element that matches, and drop the elements that match. The second
is `List.filter`; the first is `modifyFirst`, defined here with the facts a
caller needs about what it leaves alone.

An edit usually keeps a key of the elements (an id, a uuid, a name), so the
lemmas about lookups are stated for a key that the edit preserves.

Two lists of one length also say where things went: what stands at a position
of the first is found at that position of the second. `transport` reads that
off, and it is a bijection when neither list repeats an element.

## Theorems

* `map_modifyFirst`: An edit that keeps a key keeps the list of keys.
* `mem_modifyFirst`: An element of the edited list is an old one or an edited
  old one.
* `mem_modifyFirst_of_not`: An element the edit does not match stays.
* `modifyFirst_append`: An edit of the last element alone.
* `key_of_find`, `find_key_iff`: What a key finds has it, and is what it finds
  where keys are distinct.
* `find_modifyFirst_self`: Looking up the edited key gives the edited element.
* `find_modifyFirst_other`: Looking up another key gives what was there.
* `find_map_key`: Looking up a key in a list mapped by a function that keeps
  it.
* `find_insertionSort`, `findLast_insertionSort`: So it keeps what a key finds,
  from either end.
* `forall₂_singleton_left`, `forall₂_append_left`: The lists related to one
  element, and to two lists end to end.
* `transport_mem`, `transport_surj`, `transport_inj`: Transport between lists of
  one length is a bijection.
-/

namespace NanoLance

namespace Lib

open List

variable {α β : Type}

/-- Apply `g` to the first element satisfying `p`, leaving the rest alone. -/
def modifyFirst (p : α → Bool) (g : α → α) : List α → List α
  | [] => []
  | x :: rest => if p x then g x :: rest else x :: modifyFirst p g rest

variable {key : α → β} {l : List α} {x y a : α} {k : β} {γ : Type} {R : α → β → Prop}

section

variable (p : α → Bool) (g : α → α)

theorem map_modifyFirst {key : α → β} (hkey : ∀ x, p x = true → key (g x) = key x) (l : List α) :
    (modifyFirst p g l).map key = l.map key := by
  induction l with
  | nil => rfl
  | cons x rest ih =>
    rw [modifyFirst]
    grind

/-- Only the first element is changed, so only its key has to stay. -/
theorem map_modifyFirst_find (hfind : l.find? p = some x) (hkey : key (g x) = key x) :
    (modifyFirst p g l).map key = l.map key := by
  induction l with
  | nil => rfl
  | cons y rest ih =>
    rw [modifyFirst]
    grind

theorem mem_modifyFirst (hy : y ∈ modifyFirst p g l) :
    y ∈ l ∨ ∃ x ∈ l, p x = true ∧ y = g x := by
  induction l with
  | nil => exact .inl hy
  | cons x rest ih =>
    rw [modifyFirst] at hy
    by_cases hx : p x = true
    · grind
    · grind

theorem mem_modifyFirst_of_not (hy : y ∈ l) (hp : p y = false) :
    y ∈ modifyFirst p g l := by
  induction l with
  | nil => nomatch hy
  | cons x rest ih =>
    rw [modifyFirst]
    by_cases hx : p x = true
    · grind
    · grind

theorem modifyFirst_append (l : List α) (hl : ∀ x ∈ l, p x = false) (hy : p y = true) :
    modifyFirst p g (l ++ [y]) = l ++ [g y] := by
  induction l with
  | nil => rw [nil_append, modifyFirst, if_pos hy, nil_append]
  | cons x rest ih =>
    rcases forall_mem_cons.mp hl with ⟨hx, hrest⟩
    rw [cons_append, modifyFirst, hx, if_neg Bool.false_ne_true, ih hrest, cons_append]

end

theorem key_of_find [DecidableEq β] (h : l.find? (fun x => key x = k) = some x) :
    key x = k := by grind

/-- Where keys are distinct, a key finds the element that has it. -/
theorem find_key_iff [DecidableEq β] (k : β) (h : (l.map key).Nodup) (x : α) :
    l.find? (fun y => key y = k) = some x ↔ x ∈ l ∧ key x = k := by
  constructor
  · exact fun hfind => ⟨mem_of_find?_eq_some hfind, key_of_find hfind⟩
  · rintro ⟨hx, rfl⟩
    cases hfind : l.find? (fun y => key y = key x) with
    | none => grind
    | some y =>
      rw [inj_on_of_nodup_map h (mem_of_find?_eq_some hfind) hx (key_of_find hfind)]

/-- A map of what a key finds depends on the keys and the images only. -/
theorem map_find_key [DecidableEq β] (key : α → β) (image : α → γ) (k : β) (l : List α) :
    (l.find? (fun x => key x = k)).map image =
      ((l.map (fun x => (key x, image x))).find? (fun y => y.1 = k)).map Prod.snd := by
  induction l with
  | nil => rfl
  | cons x rest ih => grind

/-- Where keys are distinct, only the element itself has its key. -/
theorem filter_key_eq [DecidableEq β] (h : (l.map key).Nodup) (hx : x ∈ l) :
    l.filter (fun y => key y = key x) = [x] := by
  induction l with
  | nil => nomatch hx
  | cons y rest ih =>
    rcases nodup_cons.mp h with ⟨hfresh, hrest⟩
    rcases mem_cons.mp hx with rfl | hin
    · have hnone : rest.filter (fun y => key y = key x) = [] := by
        refine filter_eq_nil_iff.mpr (fun z hz heq => ?_)
        grind
      simp [hnone]
    · grind

theorem find_modifyFirst_self [DecidableEq β] (key : α → β) (g : α → α) (k : β)
    (hkey : ∀ x, key x = k → key (g x) = k) (l : List α) :
    (modifyFirst (fun x => key x = k) g l).find? (fun x => key x = k)
      = (l.find? (fun x => key x = k)).map g := by
  induction l with
  | nil => rfl
  | cons x rest ih =>
    rw [modifyFirst]
    grind

theorem find_modifyFirst_other [DecidableEq β] {key : α → β} {g : α → α} {p : α → Bool} {k : β}
    (hp : ∀ x, p x = true → key x ≠ k ∧ key (g x) ≠ k) (l : List α) :
    (modifyFirst p g l).find? (fun x => key x = k) = l.find? (fun x => key x = k) := by
  induction l with
  | nil => rfl
  | cons x rest ih =>
    rw [modifyFirst]
    grind

/-- Edits of the elements of two keys may be made in either order. -/
theorem modifyFirst_comm [DecidableEq β] (key : α → β) {j : β} (hne : j ≠ k) (g h : α → α)
    (hg : ∀ x, key (g x) = key x) (hh : ∀ x, key (h x) = key x) (l : List α) :
    modifyFirst (fun x => key x = j) g (modifyFirst (fun x => key x = k) h l)
      = modifyFirst (fun x => key x = k) h (modifyFirst (fun x => key x = j) g l) := by
  induction l with
  | nil => rfl
  | cons x rest ih =>
    by_cases hj : key x = j
    · simp [modifyFirst, hj, hg, hne]
    · by_cases hk : key x = k
      · grind [modifyFirst]
      · simp [modifyFirst, hj, hk, ih]

/-- Two runs of steps, each of the one swapping with each of the other. -/
theorem foldl_comm {f : γ → α → γ} {xs ys : List α}
    (h : ∀ x ∈ xs, ∀ y ∈ ys, ∀ c, f (f c x) y = f (f c y) x) (c : γ) :
    ys.foldl f (xs.foldl f c) = xs.foldl f (ys.foldl f c) := by
  induction xs generalizing c with
  | nil => rfl
  | cons x rest ih =>
    rcases forall_mem_cons.mp h with ⟨hx, hrest⟩
    have hpast : ∀ (zs : List α), (∀ y ∈ zs, ∀ c, f (f c x) y = f (f c y) x) → ∀ c,
        zs.foldl f (f c x) = f (zs.foldl f c) x := by
      intro zs
      induction zs with
      | nil => exact fun _ c => rfl
      | cons y more ihz =>
        intro hz c
        rcases forall_mem_cons.mp hz with ⟨hy, hmore⟩
        rw [foldl_cons, foldl_cons, hy c, ihz hmore]
    rw [foldl_cons, ih hrest, foldl_cons, hpast ys hx]

theorem find_map_key [DecidableEq β] (key : α → β) (g : α → α)
    (hkey : ∀ x, key (g x) = key x) (k : β) (l : List α) :
    (l.map g).find? (fun x => key x = k) = (l.find? (fun x => key x = k)).map g := by
  induction l with
  | nil => rfl
  | cons x rest ih => grind

/-- Inserting in key order puts the new element before those of its own key, and moves no two
    elements of one key past each other. -/
theorem filter_orderedInsert (key : α → Nat) (k : Nat) (a : α) (l : List α) :
    (l.orderedInsert (fun a b => key a ≤ key b) a).filter (fun x => key x = k)
      = (a :: l).filter (fun x => key x = k) := by
  induction l with
  | nil => rfl
  | cons b rest ih =>
    rw [orderedInsert_cons]
    grind

/-- A stable sort keeps the elements of each key, in order. -/
theorem filter_insertionSort (key : α → Nat) (k : Nat) (l : List α) :
    (l.insertionSort (fun a b => key a ≤ key b)).filter (fun x => key x = k)
      = l.filter (fun x => key x = k) := by
  induction l with
  | nil => rfl
  | cons a rest ih =>
    rw [insertionSort_cons, filter_orderedInsert, filter_cons, filter_cons, ih]

theorem find_insertionSort (key : α → Nat) (k : Nat) (l : List α) :
    (l.insertionSort (fun a b => key a ≤ key b)).find? (fun x => key x = k)
      = l.find? (fun x => key x = k) := by
  rw [← head?_filter, filter_insertionSort, head?_filter]

theorem findLast_insertionSort (key : α → Nat) (k : Nat) (l : List α) :
    (l.insertionSort (fun a b => key a ≤ key b)).reverse.find? (fun x => key x = k)
      = l.reverse.find? (fun x => key x = k) := by
  rw [← head?_filter, filter_reverse, filter_insertionSort, ← filter_reverse, head?_filter]

/-- Dropping lists whose elements all fail a test changes nothing of those that pass it. -/
theorem filter_flatMap_filter (p : α → Bool) (f : α → List β) (q : β → Bool) (l : List α)
    (h : ∀ x, p x = false → ∀ y ∈ f x, q y = false) :
    ((l.filter p).flatMap f).filter q = (l.flatMap f).filter q := by
  induction l with
  | nil => rfl
  | cons x rest ih =>
    rw [flatMap_cons, filter_append, ← ih, filter_cons]
    by_cases hx : p x = true
    · rw [if_pos hx, flatMap_cons, filter_append]
    · have hnil : (f x).filter q = [] := by
        rw [filter_eq_nil_iff]
        grind
      rw [if_neg hx, hnil, nil_append]

/-- A running maximum is at least where it starts and at least every key. -/
theorem le_foldl_max (key : α → Nat) (l : List α) (a : Nat) :
    a ≤ l.foldl (fun top x => max top (key x)) a ∧
      ∀ x ∈ l, key x ≤ l.foldl (fun top x => max top (key x)) a := by
  induction l generalizing a with
  | nil => exact ⟨le_refl _, nofun⟩
  | cons y rest ih => grind

/-- A running maximum is where it starts, or one of the keys. -/
theorem foldl_max_mem (key : α → Nat) (l : List α) (a : Nat) :
    l.foldl (fun top x => max top (key x)) a = a ∨
      ∃ x ∈ l, key x = l.foldl (fun top x => max top (key x)) a := by
  induction l generalizing a with
  | nil => exact .inl rfl
  | cons y rest ih => grind

/-- Distinct numbers below `n` are all of them when there are `n`. -/
theorem le_length_iff_all {n : Nat} {l : List Nat} (hnodup : l.Nodup) (hlt : ∀ r ∈ l, r < n) :
    n ≤ l.length ↔ ∀ r < n, r ∈ l := by
  have hrange : (List.range n).length = n := length_range
  constructor
  · intro hle r hr
    have hsub : l.Subperm (List.range n) :=
      subperm_of_subset hnodup (fun r hr => mem_range.mpr (hlt r hr))
    exact (hsub.perm_of_length_le (hrange.le.trans hle)).mem_iff.mpr (mem_range.mpr hr)
  · intro hall
    have hsub : (List.range n).Subperm l :=
      subperm_of_subset nodup_range (fun r hr => hall r (mem_range.mp hr))
    exact hrange ▸ hsub.length_le

/-- Where pieces put end to end repeat nothing, a value tells its piece. -/
theorem eq_of_nodup_flatMap {f : α → List β} (h : (l.flatMap f).Nodup) (hx : x ∈ l) (hy : y ∈ l)
    {b : β} (hbx : b ∈ f x) (hby : b ∈ f y) : x = y := by
  induction l with
  | nil => nomatch hx
  | cons z rest ih =>
    rw [flatMap_cons] at h
    grind

/-- An element of either of two related lists has a partner in the other. -/
theorem forall₂_partner {k : List β} (h : List.Forall₂ R l k) :
    (∀ a ∈ l, ∃ b ∈ k, R a b) ∧ ∀ b ∈ k, ∃ a ∈ l, R a b := by
  induction h with
  | nil => exact ⟨nofun, nofun⟩
  | @cons a b l k hab _ ih =>
    refine ⟨fun x hx => ?_, fun y hy => ?_⟩
    · grind
    · grind

/-- Related lists whose partners give the same pieces give the same list. -/
theorem flatMap_eq_of_forall₂ {f : α → List γ} {g : β → List γ} {k : List β}
    (h : List.Forall₂ (fun a b => f a = g b) l k) : k.flatMap g = l.flatMap f := by
  induction h with
  | nil => rfl
  | cons hab _ ih => rw [flatMap_cons, flatMap_cons, ih, hab]

/-- Ascending lists with the same numbers are one list. -/
theorem eq_of_ascending {l₁ l₂ : List Nat} (h₁ : l₁.Pairwise (· < ·)) (h₂ : l₂.Pairwise (· < ·))
    (h : ∀ n, n ∈ l₁ ↔ n ∈ l₂) : l₁ = l₂ := by
  refine List.Perm.eq_of_pairwise (fun a b _ _ hab hba => by omega) h₁ h₂ ?_
  exact (perm_ext_iff_of_nodup (h₁.imp (fun h => Nat.ne_of_lt h))
    (h₂.imp (fun h => Nat.ne_of_lt h))).mpr h

/-- Take an element of `source` to what stands in its place in `target`. -/
def transport [DecidableEq α] (source target : List α) (a : α) : α :=
  (target[source.idxOf a]?).getD a

theorem transport_eq [DecidableEq α] {source target : List α} (h : source.idxOf a < target.length) :
    transport source target a = target[source.idxOf a] := by
  rw [transport, getElem?_eq_getElem h, Option.getD_some]

theorem forall₂_singleton_left (a : α) (l : List β) :
    List.Forall₂ R [a] l ↔ ∃ b, R a b ∧ l = [b] := by
  rw [forall₂_cons_left_iff]
  simp

theorem forall₂_append_left (l₁ l₂ : List α) (l : List β) (h : List.Forall₂ R (l₁ ++ l₂) l) :
    ∃ m₁ m₂, l = m₁ ++ m₂ ∧ List.Forall₂ R l₁ m₁ ∧ List.Forall₂ R l₂ m₂ := by
  induction l₁ generalizing l with
  | nil => exact ⟨[], l, rfl, List.Forall₂.nil, h⟩
  | cons a l₁ ih =>
    rcases forall₂_cons_left_iff.1 h with ⟨b, rest, hb, hrest, rfl⟩
    rcases ih rest hrest with ⟨m₁, m₂, rfl, h₁, h₂⟩
    exact ⟨b :: m₁, m₂, rfl, List.Forall₂.cons hb h₁, h₂⟩

section

variable [DecidableEq α] (source target : List α) (hlen : source.length = target.length)

include hlen

theorem transport_mem (a : α) (ha : a ∈ source) :
    transport source target a ∈ target := by
  have hlt : source.idxOf a < target.length := hlen ▸ idxOf_lt_length_iff.mpr ha
  rw [transport_eq hlt]
  exact getElem_mem hlt

theorem transport_surj (hsource : source.Nodup) (b : α) (hb : b ∈ target) :
    ∃ a ∈ source, transport source target a = b := by
  rcases mem_iff_getElem.mp hb with ⟨n, hn, rfl⟩
  have hn' : n < source.length := by omega
  refine ⟨source[n], getElem_mem hn', ?_⟩
  grind [transport]

theorem transport_inj (htarget : target.Nodup) {b : α} (ha : a ∈ source) (hb : b ∈ source)
    (h : transport source target a = transport source target b) : a = b := by
  have hla : source.idxOf a < target.length := hlen ▸ idxOf_lt_length_iff.mpr ha
  have hlb : source.idxOf b < target.length := hlen ▸ idxOf_lt_length_iff.mpr hb
  rw [transport_eq hla, transport_eq hlb] at h
  have hidx := (htarget.getElem_inj_iff).mp h
  exact (idxOf_inj ha).mp hidx

end

end Lib

end NanoLance
