import NanoLance.Lib.Edits

/-!
# Fuzzy Terms

Whether a term is within `k` edits of a query token. Two scratch rows hold the distances between
the code points of the token so far and the beginnings of the term. They keep what an earlier call
left in them, and change places after each code point. A row whose distances are all above `k` ends
the comparison, since no later row has a smaller one.

## Theorems

* `fillRow_spec`: The loop over the term fills a row with distances.
* `within_edits_iff`: The answer is whether `k` edits are enough.
-/

namespace NanoLance

namespace FuzzyTerms

open Lib

variable {α : Type} [DecidableEq α]

/-- A scratch row by position. It is resized to have every position used. -/
abbrev Row := Nat → Nat

/-- The loop over the term, at its code point `j`. -/
def fillRow (x : α) (prev : Row) : List α → Nat → Row → Nat → Row × Nat
  | [], _, cur, rowMin => (cur, rowMin)
  | y :: b, j, cur, rowMin =>
    let substitute := prev (j - 1) + if x = y then 0 else 1
    let cur := Function.update cur j (min substitute (min (prev j + 1) (cur (j - 1) + 1)))
    fillRow x prev b (j + 1) cur (min rowMin (cur j))

/-- The loop over the token, at its code point `i`. -/
def fillRows (b : List α) (k : Nat) : List α → Nat → Row → Row → Bool
  | [], _, prev, _ => prev b.length ≤ k
  | x :: a, i, prev, cur =>
    let row := fillRow x prev b 1 (Function.update cur 0 i) i
    if k < row.2 then false else fillRows b k a (i + 1) row.1 prev

def withinEdits (a b : List α) (k : Nat) (prev cur : Row) : Bool :=
  let n := a.length
  let m := b.length
  if k < (if m < n then n - m else m - n) then false
  else
    let prev := (List.range (m + 1)).foldl (fun prev j => Function.update prev j j) prev
    fillRows b k a 1 prev cur

/-- The distances of the beginnings of a term from a list, read backwards. -/
def rowOf (done term : List α) (t : Nat) : Nat :=
  distance done (term.take t).reverse

variable {done term : List α} {prev cur : Row} {x : α} {k : Nat}

theorem rowOf_zero (done term : List α) : rowOf done term 0 = done.length :=
  distance_nil done

theorem rowOf_succ {t : Nat} {y : α} {b : List α} (hdrop : term.drop t = y :: b) :
    rowOf (x :: done) term (t + 1) =
      min (rowOf done term t + if x = y then 0 else 1)
        (min (rowOf done term (t + 1) + 1) (rowOf (x :: done) term t + 1)) := by
  have hget : term[t]? = some y := by rw [← List.head?_drop, hdrop, List.head?_cons]
  have htake : (term.take (t + 1)).reverse = y :: (term.take t).reverse := by
    rw [List.take_add_one, hget, Option.toList_some, List.reverse_append, List.reverse_singleton,
      List.singleton_append]
  simp only [rowOf, htake, distance]

/-- The loop over the term fills a row with distances, and with `rowMin` none is smaller. -/
theorem fillRow_spec (x : α) (cur : Row) (b : List α) (t : Nat) (hdrop : term.drop t = b)
    (ht : t ≤ term.length) (hprev : ∀ s ≤ term.length, prev s = rowOf done term s) (rowMin : Nat)
    (hcur : ∀ s ≤ t, cur s = rowOf (x :: done) term s ∧ rowMin ≤ cur s) :
    let out := fillRow x prev b (t + 1) cur rowMin
    ∀ s ≤ term.length, out.1 s = rowOf (x :: done) term s ∧ out.2 ≤ out.1 s := by
  induction b generalizing t cur rowMin with
  | nil => exact fun s hs => hcur s (hs.trans (List.drop_eq_nil_iff.mp hdrop))
  | cons y b ih =>
    have hlt : t < term.length := by
      by_contra hge
      rw [List.drop_eq_nil_of_le (Nat.le_of_not_lt hge)] at hdrop
      cases hdrop
    refine ih _ (t + 1) (by rw [← List.tail_drop, hdrop, List.tail_cons]) hlt _ fun s hs => ?_
    by_cases hlast : s = t + 1
    · subst hlast
      rw [Function.update_self, Nat.add_sub_cancel, hprev t ht, hprev (t + 1) hlt,
        (hcur t (Nat.le_refl t)).1]
      exact ⟨(rowOf_succ hdrop).symm, Nat.min_le_right _ _⟩
    · rw [Function.update_of_ne hlast]
      have hs := hcur s (by omega)
      exact ⟨hs.1, (Nat.min_le_left _ _).trans hs.2⟩

/-- A row that is above `k` everywhere has only such rows after it. -/
theorem rows_above (a : List α) (h : ∀ t ≤ term.length, k < rowOf done term t) :
    ∀ t ≤ term.length, k < rowOf (a.reverse ++ done) term t := by
  induction a generalizing done with
  | nil => exact h
  | cons x a ih =>
    rw [List.reverse_cons, List.append_assoc, List.singleton_append]
    refine ih fun t => ?_
    induction t with
    | zero =>
      have hzero := h 0 (Nat.zero_le _)
      rw [rowOf_zero] at hzero ⊢
      exact fun _ => Nat.lt_succ_of_lt hzero
    | succ t iht =>
      intro ht
      rw [rowOf_succ (List.drop_eq_getElem_cons ht)]
      have hboth := h t (Nat.le_of_lt ht)
      have habove := h (t + 1) ht
      have hleft := iht (Nat.le_of_lt ht)
      omega

theorem fillRows_iff (done a : List α) (hprev : ∀ s ≤ term.length, prev s = rowOf done term s) :
    fillRows term k a (done.length + 1) prev cur = true ↔
      rowOf (a.reverse ++ done) term term.length ≤ k := by
  induction a generalizing done prev cur with
  | nil => simp [fillRows, hprev]
  | cons x a ih =>
    have hfilled := fillRow_spec x (Function.update cur 0 (done.length + 1)) term 0 rfl
      (Nat.zero_le _) hprev (done.length + 1) fun s hs => by
        rw [Nat.le_zero.mp hs, Function.update_self, rowOf_zero]
        exact ⟨rfl, Nat.le_refl _⟩
    rw [fillRows, List.reverse_cons, List.append_assoc, List.singleton_append]
    split
    · next habove =>
      have hrow : ∀ t ≤ term.length, k < rowOf (x :: done) term t := fun t ht =>
        (hfilled t ht).1 ▸ lt_of_lt_of_le habove (hfilled t ht).2
      exact iff_of_false Bool.false_ne_true (Nat.not_le.mpr (rows_above a hrow _ le_rfl))
    · exact ih _ fun s hs => (hfilled s hs).1

theorem firstRow_eq (n : Nat) {s : Nat} (hs : s < n) :
    (List.range n).foldl (fun prev j => Function.update prev j j) prev s = s := by
  induction n with
  | zero => exact absurd hs (Nat.not_lt_zero s)
  | succ n ih =>
    rw [List.range_succ, List.foldl_append, List.foldl_cons, List.foldl_nil]
    by_cases hlast : s = n
    · rw [hlast, Function.update_self]
    · rw [Function.update_of_ne hlast]
      exact ih (by omega)

/-- A term is within `k` edits of a token exactly when `k` insertions, deletions and substitutions
    are enough to turn one into the other, whatever the scratch rows hold. -/
theorem within_edits_iff (a b : List α) (k : Nat) (prev cur : Row) :
    withinEdits a b k prev cur = true ↔ ∃ n ≤ k, Edits n a b := by
  rw [← distance_reverse_le_iff]
  unfold withinEdits
  by_cases hfar : k < if b.length < a.length then a.length - b.length else b.length - a.length
  · have hlengths := length_le_distance a.reverse b.reverse
    rw [List.length_reverse, List.length_reverse] at hlengths
    rw [if_pos hfar]
    refine iff_of_false Bool.false_ne_true (Nat.not_le.mpr ?_)
    split at hfar <;> omega
  · rw [if_neg hfar]
    refine (fillRows_iff [] a fun s hs => ?_).trans ?_
    · rw [firstRow_eq _ (Nat.lt_succ_of_le hs), rowOf, distance, List.length_reverse,
        List.length_take_of_le hs]
    · rw [List.append_nil, rowOf, List.take_length]

end FuzzyTerms

end NanoLance
