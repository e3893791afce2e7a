import NanoLance.IndexCandidates

/-!
# Row Sets Put Together

What the operations on row sets do to the offsets of one fragment. The maps of
the source are lists of pairs here, so the first lemmas say what changing one
entry, building a map over some fragments and moving rows one by one leave of
each fragment.

`Holds` is what an answer promises of the rows that pass: none of a fragment it
speaks for is missing, and when it is exact no other live row is there. AND, OR
and a side without an answer keep the promise, each for the rows its own
condition passes.

## Theorems

* `offsets_modify`, `offsets_rowsOver`, `mem_moveRows`: The offsets of one
  fragment.
-/

namespace NanoLance

namespace IndexAnswers

open List Lib

/-! ## The offsets of a fragment -/

variable {place : Nat → Option Nat} {steps : List RemapStep} {rows : Rows} (f : Nat)

theorem find_map_same (change : Nat × List Nat → Nat × List Nat) (hkey : ∀ e, (change e).1 = e.1)
    (g : Nat) :
    (rows.map change).find? (fun e => e.1 = g) = (rows.find? (fun e => e.1 = g)).map change := by
  rw [find?_map]
  congr 1
  refine congrFun (congrArg List.find? (funext fun e => ?_)) rows
  rw [Function.comp_apply, hkey]

variable {e : Nat × List Nat}

theorem find_key {rows : Rows} {g : Nat} (h : rows.find? (fun e => e.1 = g) = some e) :
    e.1 = g := by grind

theorem offsets_modify (change : List Nat → List Nat) (g : Nat) :
    (rows.modify f change).offsets g =
      if g = f then change (rows.offsets f) else rows.offsets g := by
  unfold Rows.modify Rows.offsets
  by_cases hany : rows.any (fun e => decide (e.1 = f)) = true
  · rw [if_pos hany, find_map_same _ (fun e => by split <;> rfl)]
    cases hfind : rows.find? (fun e => decide (e.1 = g)) with
    | none => grind
    | some e =>
      have hkey := find_key hfind
      by_cases hg : g = f
      · subst hg
        simp [hfind, hkey]
      · grind
  · have hnone : rows.find? (fun e => decide (e.1 = f)) = none := by grind
    rw [if_neg hany, find?_append]
    by_cases hg : g = f
    · grind
    · grind

theorem offsets_push (offsets : List Nat) (g : Nat) :
    (rows.push f offsets).offsets g =
      if g = f then rows.offsets f ++ offsets else rows.offsets g := offsets_modify f _ g

theorem offsets_map {change : List Nat → List Nat} (hnil : change [] = []) (g : Nat) :
    Rows.offsets (rows.map (fun e => (e.1, change e.2))) g =
      change (rows.offsets g) := by
  unfold Rows.offsets
  rw [find_map_same (fun e => (e.1, change e.2)) (fun e => rfl)]
  cases rows.find? (fun e => decide (e.1 = g)) with
  | none => exact hnil.symm
  | some e => rfl

theorem offsets_rowsOver (fragments : List Nat) (rows : Nat → List Nat) (f : Nat) :
    (rowsOver fragments rows).offsets f = if f ∈ fragments then rows f else [] := by
  unfold rowsOver Rows.offsets
  induction fragments with
  | nil => rfl
  | cons g fragments ih =>
    rw [filterMap_cons]
    by_cases hempty : (rows g).isEmpty = true
    · grind
    · rw [if_neg hempty]
      grind

/-! ## Keys -/

/-- Every fragment is listed once. -/
def Rows.Keyed (rows : Rows) : Prop := (rows.map Prod.fst).Nodup

/-- Fragments listed once, offsets ascending and of 32 bits. -/
structure Rows.Ok (rows : Rows) : Prop where
  keyed : rows.Keyed
  ascending : ∀ e ∈ rows, e.2.Pairwise (· < ·)
  small : ∀ e ∈ rows, ∀ o ∈ e.2, o < 2 ^ 32

theorem Rows.Keyed.modify {rows : Rows} (h : rows.Keyed) (f : Nat)
    (change : List Nat → List Nat) : (rows.modify f change).Keyed := by
  unfold Rows.Keyed Rows.modify
  by_cases hany : rows.any (fun e => decide (e.1 = f)) = true
  · rw [if_pos hany, map_map]
    have hkeys : (Prod.fst ∘ fun e : Nat × List Nat => if e.1 = f then (e.1, change e.2) else e) =
        Prod.fst := by grind
    rw [hkeys]
    exact h
  · rw [if_neg hany, map_append, map_singleton]
    refine List.Nodup.append h (nodup_singleton f) ?_
    intro x hx hf
    grind

theorem Rows.Keyed.offsets_eq {rows : Rows} (h : rows.Keyed) (he : e ∈ rows) :
    rows.offsets e.1 = e.2 := by
  unfold Rows.offsets
  cases hfind : rows.find? (fun x => decide (x.1 = e.1)) with
  | none => exact absurd (decide_eq_true rfl) (find?_eq_none.mp hfind e he)
  | some x =>
    have hx := inj_on_of_nodup_map h (mem_of_find?_eq_some hfind) he (find_key hfind)
    rw [hx]
    rfl

theorem mem_offsets {rows : Rows} {f o : Nat} (h : o ∈ rows.offsets f) :
    ∃ e ∈ rows, e.1 = f ∧ o ∈ e.2 := by
  unfold Rows.offsets at h
  cases hfind : rows.find? (fun e => decide (e.1 = f)) with
  | none => grind
  | some e => grind

theorem mem_addresses (rows : Rows) (a : Nat) :
    a ∈ rows.addresses ↔ ∃ e ∈ rows, ∃ o ∈ e.2, rowAddress e.1 o = a := by simp [Rows.addresses]

/-- A row of the map, as an address and by its fragment. -/
theorem Rows.Ok.mem_iff {rows : Rows} (h : rows.Ok) (f o : Nat) (ho : o < 2 ^ 32) :
    rowAddress f o ∈ rows.addresses ↔ o ∈ rows.offsets f := by
  rw [mem_addresses]
  constructor
  · rintro ⟨e, he, o', ho', haddress⟩
    have hsmall := h.small e he o' ho'
    have hf : e.1 = f := by
      rw [← fragmentOf_rowAddress e.1 o' hsmall, haddress, fragmentOf_rowAddress f o ho]
    have hsame : o' = o := by
      rw [← offsetOf_rowAddress e.1 o' hsmall, haddress, offsetOf_rowAddress f o ho]
    rw [← hf, h.keyed.offsets_eq he, ← hsame]
    exact ho'
  · intro hin
    rcases mem_offsets hin with ⟨e, he, rfl, hoe⟩
    exact ⟨e, he, o, hoe, rfl⟩

/-! ## Moving rows -/

theorem Rows.Keyed.moveRows (place : Nat → Option Nat) (addresses : List Nat) {moved : Rows}
    (h : moved.Keyed) : (moveRows place moved addresses).Keyed := by
  unfold IndexAnswers.moveRows
  induction addresses generalizing moved with
  | nil => exact h
  | cons a addresses ih =>
    rw [foldl_cons]
    refine ih ?_
    unfold moveRow
    split
    · exact h.modify _ _
    · exact h

/-- The offset a row is placed at, if it is placed in the fragment. -/
def placedIn (place : Nat → Option Nat) (f a : Nat) : Option Nat :=
  (place a).bind (fun b => if fragmentOf b = f then some (offsetOf b) else none)

theorem placedIn_eq_some (a o : Nat) :
    placedIn place f a = some o ↔ ∃ b, place a = some b ∧ fragmentOf b = f ∧ offsetOf b = o := by
  unfold placedIn
  rw [Option.bind_eq_some_iff]
  simp

/-- Moving rows one by one: those of a fragment afterwards are those that were there and those
    placed there. -/
theorem offsets_moveRows (moved : Rows) (addresses : List Nat) (f : Nat) :
    (moveRows place moved addresses).offsets f =
      moved.offsets f ++ addresses.filterMap (placedIn place f) := by
  unfold moveRows
  induction addresses generalizing moved with
  | nil => rw [foldl_nil, filterMap_nil, append_nil]
  | cons a addresses ih =>
    rw [foldl_cons, ih, filterMap_cons]
    unfold moveRow placedIn
    cases place a with
    | none => rfl
    | some b =>
      simp only [offsets_push, Option.bind_some]
      grind

theorem mem_moveRows (moved : Rows) (addresses : List Nat) (f o : Nat) :
    o ∈ (moveRows place moved addresses).offsets f ↔
      o ∈ moved.offsets f ∨ ∃ a ∈ addresses, ∃ b, place a = some b ∧
        fragmentOf b = f ∧ offsetOf b = o := by simp [offsets_moveRows, placedIn_eq_some]

/-- Rows of a fragment no version rewrote stay where they are. -/
theorem resolve_untouched (a : Nat) (h : touches steps (fragmentOf a) = false) :
    resolve steps a = some a := by
  induction steps with
  | nil => rfl
  | cons step steps ih => grind [touches, resolveStep, resolve]

/-- **Rows where the fragment reuse index puts them.** -/
theorem mem_remapRows {rows : Rows} (hsmall : ∀ e ∈ rows, ∀ o ∈ e.2, o < 2 ^ 32) (f o : Nat) :
    o ∈ (remapRows steps rows).offsets f ↔
      ∃ a ∈ rows.addresses, ∃ b, resolve steps a = some b ∧ fragmentOf b = f ∧ offsetOf b = o := by
  have hfold : ∀ moved : Rows, o ∈ Rows.offsets (rows.foldl (fun (moved : Rows) e =>
      if !touches steps e.1 then moved.push e.1 e.2
      else moveRows (resolve steps) moved (e.2.map (rowAddress e.1))) moved) f ↔
      o ∈ moved.offsets f ∨ ∃ a ∈ rows.addresses, ∃ b, resolve steps a = some b ∧
        fragmentOf b = f ∧ offsetOf b = o := by
    unfold Rows.addresses
    induction rows with
    | nil => simp
    | cons e rows ih =>
      intro moved
      -- Either way the entry adds the rows its addresses are resolved to.
      have hentry : o ∈ Rows.offsets (if !touches steps e.1 then moved.push e.1 e.2
          else moveRows (resolve steps) moved (e.2.map (rowAddress e.1))) f ↔
          o ∈ moved.offsets f ∨ ∃ a ∈ e.2.map (rowAddress e.1), ∃ b, resolve steps a = some b ∧
            fragmentOf b = f ∧ offsetOf b = o := by
        by_cases htouched : touches steps e.1 = true
        · rw [if_neg (by rw [htouched]; decide)]
          exact mem_moveRows moved _ f o
        · have hstays : ∀ o' ∈ e.2, resolve steps (rowAddress e.1 o') =
              some (rowAddress e.1 o') ∧ fragmentOf (rowAddress e.1 o') = e.1 ∧
              offsetOf (rowAddress e.1 o') = o' := by
            intro o' ho'
            have hlt := hsmall e (.head _) o' ho'
            refine ⟨resolve_untouched _ ?_, fragmentOf_rowAddress e.1 o' hlt,
              offsetOf_rowAddress e.1 o' hlt⟩
            rw [fragmentOf_rowAddress e.1 o' hlt]
            exact Bool.eq_false_iff.mpr htouched
          rw [if_pos (by rw [Bool.eq_false_iff.mpr htouched]; rfl), offsets_push]
          by_cases hf : f = e.1
          · rw [if_pos hf, mem_append, hf]
            grind
          · grind
      rw [foldl_cons, ih (fun e' he' => hsmall e' (.tail _ he')), hentry, or_assoc, flatMap_cons]
      refine or_congr Iff.rfl ?_
      simp only [mem_append, or_and_right, exists_or]
  unfold remapRows
  rw [offsets_map rfl, mem_ascending, hfold []]
  exact ⟨fun h => h.elim nofun (fun h => h), .inr⟩

/-- **Rows at the addresses of their ids.** -/
theorem mem_toAddresses (find : Nat → Option Nat) (rows : Rows) (f o : Nat) :
    o ∈ (toAddresses find rows).offsets f ↔
      ∃ a ∈ rows.addresses, ∃ b, find a = some b ∧ fragmentOf b = f ∧ offsetOf b = o := by
  unfold toAddresses
  rw [offsets_map rfl, mem_insertionSort, mem_moveRows]
  exact ⟨fun h => h.elim nofun (fun h => h), .inr⟩

theorem keyed_map (change : List Nat → List Nat) (h : rows.Keyed) :
    Rows.Keyed (rows.map (fun e => (e.1, change e.2))) := by
  unfold Rows.Keyed
  rw [map_map]
  exact h

theorem Rows.Ok.addresses_nodup {rows : Rows} (h : rows.Ok) : rows.addresses.Nodup := by
  unfold Rows.addresses
  rw [nodup_flatMap]
  constructor
  · intro e he
    refine List.Nodup.map_on (fun o ho o' ho' heq => ?_) ((h.ascending e he).imp Nat.ne_of_lt)
    rw [← offsetOf_rowAddress e.1 o (h.small e he o ho), heq,
      offsetOf_rowAddress e.1 o' (h.small e he o' ho')]
  · -- Entries are of different fragments, and so are their addresses.
    have hkeys : rows.Pairwise (fun e e' => e.1 ≠ e'.1) := pairwise_map.mp h.keyed
    refine hkeys.imp_of_mem (fun {e e'} he he' hne => ?_)
    intro a ha ha'
    rcases mem_map.mp ha with ⟨o, ho, rfl⟩
    rcases mem_map.mp ha' with ⟨o', ho', heq⟩
    refine hne ?_
    rw [← fragmentOf_rowAddress e.1 o (h.small e he o ho), ← heq,
      fragmentOf_rowAddress e'.1 o' (h.small e' he' o' ho')]

/-- What an answer promises, `passes` being the rows that pass: none of a fragment it speaks for is
    missing, and when it is exact no other live row is there. -/
structure Holds (m : Manifest) (vectors : DeletionVectors) (passes : Nat → Nat → Prop)
    (set : RowSet) : Prop where
  ascending : ∀ f, (set.rows.offsets f).Pairwise (· < ·)
  complete : ∀ f ∈ m.fragments, f.id ∈ set.covered → ∀ o, liveRow vectors f o = true →
    passes f.id o → o ∈ set.rows.offsets f.id
  inside : ∀ f ∈ m.fragments, f.id ∈ set.covered → ∀ o ∈ set.rows.offsets f.id,
    o < f.physicalRows
  exact : set.exact = true → ∀ f ∈ m.fragments, f.id ∈ set.covered →
    ∀ o ∈ set.rows.offsets f.id, liveRow vectors f o = true → passes f.id o

section Combine

variable {m : Manifest} {vectors : DeletionVectors} {P Q : Nat → Nat → Prop} {a b : RowSet}

theorem mem_sameFragments (h : sameFragments a.covered b.covered = true) (f : Nat) :
    f ∈ a.covered ↔ f ∈ b.covered := by grind [sameFragments]

/-- The rows an AND leaves of a fragment. -/
theorem mem_both (ha : ∀ f, (a.rows.offsets f).Pairwise (· < ·))
    (hb : ∀ f, (b.rows.offsets f).Pairwise (· < ·)) (f o : Nat) :
    o ∈ (both a b).rows.offsets f ↔ (f ∈ a.covered ∨ f ∈ b.covered) ∧
      (f ∈ a.covered → o ∈ a.rows.offsets f) ∧ (f ∈ b.covered → o ∈ b.rows.offsets f) := by
  unfold both
  simp only [offsets_rowsOver, mem_dedup, mem_append]
  by_cases hfa : f ∈ a.covered
  · by_cases hfb : f ∈ b.covered
    · rw [if_pos (.inl hfa), if_pos (by rw [decide_eq_true hfa, decide_eq_true hfb]; rfl),
        mem_setIntersection o _ _ (ha f) (hb f)]
      exact ⟨fun h => ⟨.inl hfa, fun _ => h.1, fun _ => h.2⟩, fun h => ⟨h.2.1 hfa, h.2.2 hfb⟩⟩
    · grind
  · grind

theorem both_ascending (ha : ∀ f, (a.rows.offsets f).Pairwise (· < ·))
    (hb : ∀ f, (b.rows.offsets f).Pairwise (· < ·)) (f : Nat) :
    ((both a b).rows.offsets f).Pairwise (· < ·) := by
  unfold both
  simp only [offsets_rowsOver]
  split
  · split
    · exact (ha f).sublist (setIntersection_sublist _ _)
    · split
      · exact ha f
      · exact hb f
  · exact List.Pairwise.nil

/-- **An AND of two answers.** -/
theorem Holds.both (ha : Holds m vectors P a) (hb : Holds m vectors Q b) :
    Holds m vectors (fun f o => P f o ∧ Q f o) (both a b) := by
  have hmem := mem_both ha.ascending hb.ascending
  have hcovered : ∀ f, f ∈ (IndexAnswers.both a b).covered ↔ f ∈ a.covered ∨ f ∈ b.covered :=
    fun f => mem_append
  refine ⟨both_ascending ha.ascending hb.ascending, ?_, ?_, ?_⟩
  · intro f hf hcov o hlive hpasses
    exact (hmem f.id o).mpr ⟨(hcovered f.id).mp hcov,
      fun h => ha.complete f hf h o hlive hpasses.1, fun h => hb.complete f hf h o hlive hpasses.2⟩
  · intro f hf hcov o ho
    rcases (hmem f.id o).mp ho with ⟨hor, hina, hinb⟩
    rcases hor with h | h
    · exact ha.inside f hf h o (hina h)
    · exact hb.inside f hf h o (hinb h)
  · intro hexact f hf hcov o ho hlive
    have hparts : (a.exact && b.exact) = true ∧ sameFragments a.covered b.covered = true :=
      Bool.and_eq_true_iff.mp hexact
    rcases Bool.and_eq_true_iff.mp hparts.1 with ⟨hea, heb⟩
    have hsame := mem_sameFragments hparts.2 f.id
    rcases (hmem f.id o).mp ho with ⟨hor, hina, hinb⟩
    have hfa : f.id ∈ a.covered := hor.elim (fun h => h) hsame.mpr
    exact ⟨ha.exact hea f hf hfa o (hina hfa) hlive,
      hb.exact heb f hf (hsame.mp hfa) o (hinb (hsame.mp hfa)) hlive⟩

/-- **An OR of two answers.** -/
theorem Holds.either (ha : Holds m vectors P a) (hb : Holds m vectors Q b) :
    Holds m vectors (fun f o => P f o ∨ Q f o) (either a b) := by
  have hcovered : ∀ f, f ∈ (IndexAnswers.either a b).covered ↔ f ∈ a.covered ∧ f ∈ b.covered := by
    simp [IndexAnswers.either]
  have hoffsets : ∀ f, (IndexAnswers.either a b).rows.offsets f =
      if f ∈ a.covered ∧ f ∈ b.covered then
        setUnion (a.rows.offsets f) (b.rows.offsets f) else [] := by
    simp [IndexAnswers.either, offsets_rowsOver]
  have hmem : ∀ f, f ∈ a.covered ∧ f ∈ b.covered → ∀ o,
      o ∈ (IndexAnswers.either a b).rows.offsets f ↔
        o ∈ a.rows.offsets f ∨ o ∈ b.rows.offsets f := by
    intro f hf o
    rw [hoffsets, if_pos hf, mem_setUnion]
  refine ⟨?_, ?_, ?_, ?_⟩
  · intro f
    rw [hoffsets]
    split
    · exact setUnion_ascending _ _ (ha.ascending f) (hb.ascending f)
    · exact List.Pairwise.nil
  · intro f hf hcov o hlive hpasses
    have hboth := (hcovered f.id).mp hcov
    rw [hmem f.id hboth]
    exact hpasses.imp (ha.complete f hf hboth.1 o hlive) (hb.complete f hf hboth.2 o hlive)
  · intro f hf hcov o ho
    have hboth := (hcovered f.id).mp hcov
    rw [hmem f.id hboth] at ho
    exact ho.elim (ha.inside f hf hboth.1 o) (hb.inside f hf hboth.2 o)
  · intro hexact f hf hcov o ho hlive
    rcases Bool.and_eq_true_iff.mp (show (a.exact && b.exact) = true from hexact) with ⟨hea, heb⟩
    have hboth := (hcovered f.id).mp hcov
    rw [hmem f.id hboth] at ho
    exact ho.imp (fun h => ha.exact hea f hf hboth.1 o h hlive)
      (fun h => hb.exact heb f hf hboth.2 o h hlive)

end Combine

end IndexAnswers

end NanoLance
