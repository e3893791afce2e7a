import Mathlib.Algebra.Order.Ring.Int
import Mathlib.Data.List.Basic

/-!
# Matching Wildcards

A pattern of literals, single wildcards and runs, and the usual way to match it:
from left to right, with one place to go back to, the last run met. Going back to
an earlier run is never needed: what stands between two runs has a fixed length,
so whatever a longer earlier run could leave over, the later one can take.

## Main definitions

* `Tok`, `Matches`: Patterns and what they match.
-/

namespace NanoLance

namespace Lib

namespace Glob

inductive Tok (α : Type) where
  /-- Any run of characters. -/
  | any
  /-- Any character. -/
  | one
  | lit (c : α)

variable {α β : Type}

/-- The text can be split as the pattern says. -/
inductive Matches (eq : α → β → Bool) : List (Tok α) → List β → Prop where
  | nil : Matches eq [] []
  | any (run : List β) (ts : List (Tok α)) (s : List β) :
      Matches eq ts s → Matches eq (.any :: ts) (run ++ s)
  | one (c : β) (ts : List (Tok α)) (s : List β) :
      Matches eq ts s → Matches eq (.one :: ts) (c :: s)
  | lit (a : α) (c : β) (ts : List (Tok α)) (s : List β) :
      eq a c = true → Matches eq ts s → Matches eq (.lit a :: ts) (c :: s)

def Tok.isAny : Tok α → Bool
  | .any => true
  | _ => false

/-- The pattern after the last run, and the text at the end of that run. -/
abbrev Resume (α β : Type) := Option (List (Tok α) × List β)

/-- Both lists from left to right; at a mismatch the last run takes one more. -/
def scan (eq : α → β → Bool) : List (Tok α) → List β → Resume α β → Bool
  | ts, [], _ => ts.all Tok.isAny
  | .any :: ts, c :: s, _ => scan eq ts (c :: s) (some (ts, c :: s))
  | .one :: ts, _ :: s, r => scan eq ts s r
  | .lit a :: ts, c :: s, r =>
    if eq a c then scan eq ts s r
    else
      match r with
      | some (rest, _ :: m) => scan eq rest m (some (rest, m))
      | _ => false
  | [], _ :: _, r =>
    match r with
    | some (rest, _ :: m) => scan eq rest m (some (rest, m))
    | _ => false
  termination_by ts s r => (max s.length (r.elim 0 (fun x => x.2.length)), ts.length)
  decreasing_by all_goals (simp [Prod.lex_def]; try omega)

variable {r : Resume α β} {s : List β} {ts : List (Tok α)}

/-- A match is one under another equality of the characters it compares. -/
theorem Matches.imp {eq eq' : α → β → Bool} (h : Matches eq ts s)
    (himp : ∀ a c, Tok.lit a ∈ ts → c ∈ s → eq a c = true → eq' a c = true) :
    Matches eq' ts s := by
  induction h with
  | nil => exact .nil
  | any run ts s _ ih =>
    exact .any run ts s (ih (fun a c ha hc => himp a c (.tail _ ha) (List.mem_append_right _ hc)))
  | one c ts s _ ih => exact .one c ts s (ih (fun a d ha hd => himp a d (.tail _ ha) (.tail _ hd)))
  | lit a c ts s heq _ ih =>
    exact .lit a c ts s (himp a c (.head _) (.head _) heq)
      (ih (fun b d hb hd => himp b d (.tail _ hb) (.tail _ hd)))

section

variable (eq : α → β → Bool)

theorem matches_any (ts : List (Tok α)) (s : List β) :
    Matches eq (.any :: ts) s ↔ ∃ k, k ≤ s.length ∧ Matches eq ts (s.drop k) := by
  constructor
  · intro h
    cases h with
    | any run _ s h => exact ⟨run.length, by simp, by simpa using h⟩
  · rintro ⟨k, -, h⟩
    have hany := Matches.any (s.take k) ts _ h
    rwa [List.take_append_drop] at hany

/-- A run takes what stands before a match as well. -/
theorem Matches.before (n : Nat) (h : Matches eq (.any :: ts) (s.drop n)) :
    Matches eq (.any :: ts) s := by
  rcases (matches_any eq ts _).mp h with ⟨k, hk, h⟩
  rw [List.drop_drop] at h
  rw [List.length_drop] at hk
  refine (matches_any eq ts s).mpr ?_
  by_cases hle : n + k ≤ s.length
  · exact ⟨n + k, hle, h⟩
  · refine ⟨s.length, Nat.le_refl _, ?_⟩
    rwa [List.drop_eq_nil_of_le (by omega)] at h ⊢

/-- Tokens that are no runs take one character each. -/
theorem Matches.split {pre : List (Tok α)} (hpre : ∀ t ∈ pre, t.isAny = false)
    (h : Matches eq (pre ++ ts) s) : pre.length ≤ s.length ∧ Matches eq ts (s.drop pre.length) := by
  induction pre generalizing s with
  | nil => exact ⟨Nat.zero_le _, h⟩
  | cons t pre ih =>
    have hrest : ∀ t ∈ pre, t.isAny = false := fun t ht => hpre t (.tail _ ht)
    cases h with
    | any run _ s h => exact absurd (hpre .any (.head _)) (by simp [Tok.isAny])
    | one c _ s h => simpa using ih hrest h
    | lit a c _ s heq h => simpa using ih hrest h

theorem matches_nil (ts : List (Tok α)) : Matches eq ts [] ↔ ts.all Tok.isAny = true := by
  induction ts with
  | nil => exact ⟨fun _ => rfl, fun _ => Matches.nil⟩
  | cons t ts ih =>
    cases t with
    | any => simp [matches_any, Tok.isAny, ih]
    | one =>
      constructor
      · intro h
        cases h
      · intro h
        simp [Tok.isAny] at h
    | lit a =>
      constructor
      · intro h
        cases h
      · intro h
        simp [Tok.isAny] at h

/-- How a scan stands to the place it would go back to: it has come past tokens that are no runs. -/
def Since (ts : List (Tok α)) (s : List β) (r : Resume α β) : Prop :=
  ∀ rest m, r = some (rest, m) → ∃ pre : List (Tok α), (∀ t ∈ pre, t.isAny = false) ∧
    rest = pre ++ ts ∧ s = m.drop pre.length ∧ pre.length ≤ m.length

theorem Since.next {t : Tok α} {c : β} (h : Since (t :: ts) (c :: s) r) (ht : t.isAny = false) :
    Since ts s r := by
  intro rest m hr
  rcases h rest m hr with ⟨pre, hpre, rfl, hs, hle⟩
  have hlen := congrArg List.length hs
  refine ⟨pre ++ [t], ?_, by simp, ?_, ?_⟩
  · grind
  · rw [List.length_append, List.length_singleton, ← List.drop_drop, ← hs]
    rfl
  · grind

theorem since_self (ts : List (Tok α)) (s : List β) : Since ts s (some (ts, s)) := by
  intro rest m h
  cases h
  exact ⟨[], by simp, rfl, rfl, Nat.zero_le _⟩

/-- What is left to try when the pattern does not match here. -/
def Later (r : Resume α β) : Prop :=
  ∃ rest m, r = some (rest, m) ∧ ∃ k, 1 ≤ k ∧ k ≤ m.length ∧ Matches eq rest (m.drop k)

theorem later_cons (rest : List (Tok α)) (c : β) (m : List β) :
    Later eq (some (rest, c :: m)) ↔ Matches eq rest m ∨ Later eq (some (rest, m)) := by
  constructor
  · rintro ⟨_, _, heq, k, hk, hle, h⟩
    cases heq
    rcases Nat.lt_or_ge 1 k with hlt | hge
    · refine .inr ⟨_, _, rfl, k - 1, by omega, by simp at hle; omega, ?_⟩
      rwa [show k = k - 1 + 1 by omega, List.drop_succ_cons] at h
    · rw [show k = 1 by omega] at h
      exact .inl h
  · rintro (h | ⟨_, _, heq, k, hk, hle, h⟩)
    · exact ⟨_, _, rfl, 1, Nat.le_refl 1, by simp, h⟩
    · cases heq
      exact ⟨_, _, rfl, k + 1, by omega, by simp; omega, h⟩

theorem not_later (h : ∀ rest c m, r = some (rest, c :: m) → False) :
    ¬Later eq r := by
  rintro ⟨rest, m, hr, k, hk, hle, -⟩
  cases m with
  | nil =>
    rw [List.length_nil] at hle
    omega
  | cons c m => exact h rest c m hr

/-- A run gives everything that could be tried later: what came before it has a fixed length. -/
theorem later_any (h : Since (.any :: ts) s r) (hlater : Later eq r) :
    Matches eq (.any :: ts) s := by
  rcases hlater with ⟨rest, m, hr, k, -, -, hmatch⟩
  rcases h rest m hr with ⟨pre, hpre, rfl, rfl, -⟩
  have hsplit := (hmatch.split eq hpre).2
  rw [List.drop_drop, Nat.add_comm, ← List.drop_drop] at hsplit
  exact hsplit.before

/-- At the end of the text there is nothing later to try. -/
theorem later_end (h : Since ts [] r) : ¬Later eq r := by
  rintro ⟨rest, m, hr, k, hk, hle, hmatch⟩
  rcases h rest m hr with ⟨pre, hpre, rfl, hs, hpm⟩
  have hlen := (hmatch.split eq hpre).1
  have hend := congrArg List.length hs
  grind

/-- A scan finds a match here or later. -/
theorem scan_later (h : Since ts s r) : scan eq ts s r = true ↔ Matches eq ts s ∨ Later eq r := by
  -- By the recursion of the scan, with the pattern come past since the last run.
  induction ts, s, r using scan.induct eq with
  | case1 ts r => rw [scan, matches_nil, or_iff_left (later_end eq h)]
  | case2 ts c s r ih =>
    rw [scan, ih (since_self _ _), or_iff_left_of_imp (later_any eq h), matches_any]
    constructor
    · rintro (hhere | ⟨_, _, heq, k, -, hle, hk⟩)
      · exact ⟨0, Nat.zero_le _, hhere⟩
      · cases heq
        exact ⟨k, hle, hk⟩
    · rintro ⟨k, hle, hk⟩
      rcases Nat.eq_zero_or_pos k with rfl | hpos
      · exact .inl hk
      · exact .inr ⟨_, _, rfl, k, hpos, hle, hk⟩
  | case3 ts c s r ih =>
    rw [scan, ih (h.next rfl)]
    refine or_congr ⟨Matches.one c ts s, fun hm => ?_⟩ Iff.rfl
    cases hm
    assumption
  | case4 a ts c s r heq ih =>
    rw [scan.eq_def]
    simp only [heq, if_true]
    rw [ih (h.next rfl)]
    refine or_congr ⟨Matches.lit a c ts s heq, fun hm => ?_⟩ Iff.rfl
    cases hm
    assumption
  | case5 a ts c s hne rest d m ih =>
    simp only [scan, hne, Bool.false_eq_true, if_false]
    rw [ih (since_self _ _), ← later_cons, or_iff_right]
    intro hm
    cases hm
    contradiction
  | case6 a ts c s r hne hr =>
    have hnot : ¬Matches eq (.lit a :: ts) (c :: s) := by
      intro hm
      cases hm
      contradiction
    simp [scan, hne, hnot, not_later eq hr]
  | case7 c s rest d m ih =>
    rw [scan, ih (since_self _ _), ← later_cons, or_iff_right]
    exact fun hm => by cases hm
  | case8 c s r hr =>
    have hnot : ¬Matches eq ([] : List (Tok α)) (c :: s) := fun hm => by cases hm
    simp [scan, hnot, not_later eq hr]

/-- **The scan finds a match if and only if there is one.** -/
theorem scan_iff (ts : List (Tok α)) (s : List β) : scan eq ts s none = true ↔ Matches eq ts s := by
  rw [scan_later eq (fun _ _ h => by cases h)]
  exact or_iff_left (not_later eq (fun _ _ _ h => by cases h))

end

end Glob

end Lib

end NanoLance
