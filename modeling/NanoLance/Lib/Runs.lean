import Mathlib.Algebra.Order.Ring.Int
import Mathlib.Data.List.Basic

/-!
# Runs of a Fallible Step

A program that takes requests one after another, each of which may fail. A
failed request leaves the state as it was; a successful one moves to a new
state and puts out what the caller observes. A run collects the outputs.

The rule of this module is the induction every safety result over runs needs,
done once. `EveryCommit` says that each request of a run that succeeds meets a
condition on the state it is made in, which is how a hypothesis about the steps
of a run is stated without naming the intermediate states.
-/

namespace NanoLance

namespace Lib

variable {σ α β ε : Type}

/-- The state and the outputs after a list of requests, a failed request
    leaving the state as it was. -/
def runLog (step : σ → α → Except ε (σ × List β)) (s : σ) : List α → σ × List β
  | [] => (s, [])
  | a :: rest =>
    match step s a with
    | .error _ => runLog step s rest
    | .ok (s', out) => ((runLog step s' rest).1, out ++ (runLog step s' rest).2)

/-- Each request that succeeds meets `good` in the state it is made in. -/
def EveryCommit (step : σ → α → Except ε (σ × List β)) (good : σ → α → Prop) (s : σ) :
    List α → Prop
  | [] => True
  | a :: rest =>
    match step s a with
    | .error _ => EveryCommit step good s rest
    | .ok (s', _) => good s a ∧ EveryCommit step good s' rest

instance EveryCommit.decidable (step : σ → α → Except ε (σ × List β)) (good : σ → α → Prop)
    [∀ s a, Decidable (good s a)] :
    ∀ (requests : List α) (s : σ), Decidable (EveryCommit step good s requests)
  | [], _ => inferInstanceAs (Decidable True)
  | a :: rest, s =>
    show Decidable (match step s a with
      | .error _ => EveryCommit step good s rest
      | .ok (s', _) => good s a ∧ EveryCommit step good s' rest) from
    match step s a with
    | .error _ => EveryCommit.decidable step good rest s
    | .ok (s', _) =>
      have : Decidable (EveryCommit step good s' rest) := EveryCommit.decidable step good rest s'
      inferInstanceAs (Decidable (good s a ∧ EveryCommit step good s' rest))

variable {Inv : σ → Prop} {step : σ → α → Except ε (σ × List β)}

variable {good : σ → α → Prop} {P : β → Prop}

/-- What one good step preserves and promises of its outputs, a run of good
    steps preserves and promises of all of them. -/
theorem runLog_safe
    (hstep : ∀ s a s' out, Inv s → good s a → step s a = .ok (s', out) → Inv s' ∧ ∀ b ∈ out, P b) :
    ∀ (requests : List α) (s : σ), Inv s → EveryCommit step good s requests →
      Inv (runLog step s requests).1 ∧ ∀ b ∈ (runLog step s requests).2, P b := by
  intro requests
  induction requests with
  | nil =>
    intro s hs _
    exact ⟨hs, nofun⟩
  | cons a rest ih =>
    intro s hs hgood
    rw [EveryCommit] at hgood
    cases hres : step s a with
    | error e => grind [runLog]
    | ok r =>
      rcases r with ⟨s', out⟩
      rw [hres] at hgood
      grind [runLog]

/-- A condition that a step's outputs decide, and that carries the invariant on
    when it holds, holds at every step of a run exactly when all outputs are as
    promised: after the first step that breaks it nothing need be known. -/
theorem runLog_iff {fits : σ → α → Prop}
    (hstep : ∀ s a s' out, Inv s → fits s a → step s a = .ok (s', out) → ((∀ b ∈ out, P b) ↔
      good s a) ∧ (good s a → Inv s')) :
    ∀ (requests : List α) (s : σ), Inv s → EveryCommit step fits s requests →
      ((∀ b ∈ (runLog step s requests).2, P b) ↔ EveryCommit step good s requests) := by
  intro requests
  induction requests with
  | nil => simp [runLog, EveryCommit, implies_true]
  | cons a rest ih =>
    intro s hs hfits
    rw [EveryCommit] at hfits
    cases hres : step s a with
    | error e => grind [runLog, EveryCommit]
    | ok r => grind [runLog, EveryCommit]

end Lib

end NanoLance
