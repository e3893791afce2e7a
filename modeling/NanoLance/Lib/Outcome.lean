import Mathlib.Algebra.Order.Ring.Int
import Mathlib.Data.List.Forall2

/-!
# Fallible Computations

A computation that ends in a value or in an error, written in `Except`. A
guard is `ensure`, so that a function made of guards and calls is a plain
chain of binds, and `bind_eq_ok` takes such a chain apart one call at a time.

## Theorems

* `ensure_eq_ok`: A guard passes exactly when its condition holds.
* `bind_eq_ok`: A chain succeeds when each of its parts does.
* `inContext_eq_ok`: The context of an error does not matter to a success.
-/

namespace NanoLance

namespace Lib

variable {ε α β : Type}

/-- Fail with `e` unless `c` holds. -/
def ensure (c : Bool) (e : ε) : Except ε Unit :=
  if c then .ok () else .error e

@[simp] theorem ensure_eq_ok (c : Bool) (e : ε) (u : Unit) :
    ensure c e = .ok u ↔ c = true := by simp [ensure]

@[simp] theorem bind_eq_ok (x : Except ε α) (f : α → Except ε β) (b : β) :
    (x >>= f) = .ok b ↔ ∃ a, x = .ok a ∧ f a = .ok b := by
  cases x with
  | error e => simp only [bind, Except.bind, reduceCtorEq, false_and, exists_false]
  | ok a => simp only [bind, Except.bind, Except.ok.injEq, exists_eq_left']

@[simp] theorem pure_eq_ok (a b : α) : (pure a : Except ε α) = .ok b ↔ a = b := by
  simp only [pure, Except.pure, Except.ok.injEq]

/-- A chain fails where one of its parts does. -/
@[simp] theorem bind_eq_error (x : Except ε α) (f : α → Except ε β) (e : ε) :
    (x >>= f) = .error e ↔ x = .error e ∨ ∃ a, x = .ok a ∧ f a = .error e := by
  cases x with
  | error e' => simp only [bind, Except.bind, Except.error.injEq, reduceCtorEq, false_and,
      exists_false, or_false]
  | ok a => simp only [bind, Except.bind, reduceCtorEq, Except.ok.injEq, exists_eq_left', false_or]

@[simp] theorem pure_ne_error (a : α) (e : ε) : (pure a : Except ε α) ≠ .error e := by
  simp only [pure, Except.pure, ne_eq, reduceCtorEq, not_false_eq_true]

@[simp] theorem ensure_eq_error (c : Bool) (e e' : ε) :
    ensure c e = .error e' ↔ c = false ∧ e = e' := by grind [ensure]

variable (f : α → Except ε β)

/-- A loop over a list that succeeds has succeeded on each element. -/
theorem mapM_eq_ok (l : List α) (r : List β) :
    l.mapM f = .ok r ↔ List.Forall₂ (fun a b => f a = .ok b) l r := by
  induction l generalizing r with
  | nil => simp
  | cons a l ih =>
    rw [List.mapM_cons, bind_eq_ok, List.forall₂_cons_left_iff]
    constructor
    · rintro ⟨b, hb, hrest⟩
      rcases (bind_eq_ok _ _ _).1 hrest with ⟨bs, hbs, hr⟩
      exact ⟨b, bs, hb, (ih bs).1 hbs, ((pure_eq_ok _ _).1 hr).symm⟩
    · rintro ⟨b, bs, hb, hbs, rfl⟩
      exact ⟨b, hb, (bind_eq_ok _ _ _).2 ⟨bs, (ih bs).2 hbs, rfl⟩⟩

/-- A loop whose rounds all succeed. -/
theorem mapM_ok {g : α → β} {l : List α} (h : ∀ a ∈ l, f a = .ok (g a)) :
    l.mapM f = .ok (l.map g) := by
  rw [mapM_eq_ok, List.forall₂_map_right_iff, List.forall₂_same]
  exact h

/-- A loop whose rounds all succeed, with what each gives. -/
theorem mapM_exists (Q : α → β → Prop) (l : List α) (h : ∀ a ∈ l, ∃ b, f a = .ok b ∧ Q a b) :
    ∃ r, l.mapM f = .ok r ∧ List.Forall₂ Q l r := by
  induction l with
  | nil => exact ⟨[], rfl, List.Forall₂.nil⟩
  | cons a l ih =>
    rcases h a List.mem_cons_self with ⟨b, hb, hq⟩
    rcases ih (fun x hx => h x (List.mem_cons_of_mem a hx)) with ⟨r, hr, hall⟩
    refine ⟨b :: r, ?_, List.Forall₂.cons hq hall⟩
    rw [mapM_eq_ok] at hr ⊢
    exact List.Forall₂.cons hb hr

/-- A computation whose error begins with `context`. -/
def inContext (context : String) : Except String α → Except String α
  | .ok a => .ok a
  | .error e => .error (context ++ e)

@[simp] theorem inContext_eq_ok (context : String) (x : Except String α) (a : α) :
    inContext context x = .ok a ↔ x = .ok a := by
  cases x with
  | error e => simp only [inContext, reduceCtorEq]
  | ok b => simp only [inContext]

end Lib

end NanoLance
