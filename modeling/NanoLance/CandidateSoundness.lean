import NanoLance.CandidateSets
import NanoLance.ReuseMoves

/-!
# What the Answers to a Filter Hold

An answer is sound when it misses no live row that passes, of the fragments it
speaks for, and holds no other live row when it says it is exact. The segments
are assumed to answer soundly about the rows they hold; what is shown here is
that nothing is lost on the way from there to the candidates of a scan.

A segment holds a row under the address it had when the segment was built, under
the one it has now, or under its id. A compaction that defers the remap of the
indices moves the coverage of the segments to the new fragments and leaves the
addresses they hold, so these need not be in the coverage. `present` says where
such a row is now, and `placed` where the search puts it. They are the same but
for a zone map or a Bloom filter of a version that has both row ids and a
fragment reuse index: these hold addresses even where rows have ids, and with
ids no answer is taken through the fragment reuse index. No compaction makes
such a version.

## Main definitions

* `Value`, `Condition.value`: What a filter is of a row, in three-valued logic.
-/

namespace NanoLance

namespace IndexAnswers

open List Lib

/-! ## Where rows are -/

variable {rows : Rows} {o : Nat} {f : DataFragment}

section Places

variable (steps : Option (List RemapStep)) (rowIds : Option (Nat → Option Nat))
  (index : IndexMetadata)

def resolveReuse (address : Nat) : Option Nat :=
  match steps with
  | none => some address
  | some steps => resolve steps address

/-- Where the row is that a segment holds as `a`. -/
def present (a : Nat) : Option Nat :=
  match rowIds with
  | some find => if zoned index then resolveReuse steps a else find a
  | none => resolveReuse steps a

/-- Where the search puts it. -/
def placed (a : Nat) : Option Nat :=
  match rowIds with
  | some find => if zoned index then some a else find a
  | none => resolveReuse steps a

/-- Rows are put where they are, unless there are both ids and a fragment reuse index. -/
theorem placed_eq_present (h : rowIds = none ∨ steps = none) (a : Nat) :
    placed steps rowIds index a = present steps rowIds index a := by
  rcases h with rfl | rfl
  · rfl
  · cases rowIds with
    | none => rfl
    | some find => rfl

theorem mem_offsets_iff (h : rows.Ok) (f o : Nat) :
    o ∈ rows.offsets f ↔ ∃ a ∈ rows.addresses, ∃ b, some a = some b ∧
      fragmentOf b = f ∧ offsetOf b = o := by
  constructor
  · intro ho
    rcases mem_offsets ho with ⟨e, he, rfl, hoe⟩
    have hlt := h.small e he o hoe
    exact ⟨rowAddress e.1 o, (mem_addresses rows _).mpr ⟨e, he, o, hoe, rfl⟩, _, rfl,
      fragmentOf_rowAddress e.1 o hlt, offsetOf_rowAddress e.1 o hlt⟩
  · rintro ⟨a, ha, b, hab, rfl, rfl⟩
    cases hab
    refine (h.mem_iff _ _ (offsetOf_lt a)).mp ?_
    rw [rowAddress_eta]
    exact ha

theorem remapAnswer_ids (find : Nat → Option Nat) (rows : Rows) :
    remapAnswer steps (some find) rows = rows := by
  cases steps with
  | none => rfl
  | some steps => rfl

/-- **The rows of a segment as the search puts them.** -/
theorem mem_placeRows (h : rows.Ok) (f o : Nat) :
    o ∈ (placeRows steps rowIds index rows).offsets f ↔
      ∃ a ∈ rows.addresses, ∃ b, placed steps rowIds index a = some b ∧
        fragmentOf b = f ∧ offsetOf b = o := by
  unfold placeRows placed
  cases rowIds with
  | none =>
    cases steps with
    | none => exact mem_offsets_iff h f o
    | some steps => exact mem_remapRows h.small f o
  | some find =>
    simp only [remapAnswer_ids]
    by_cases hzoned : zoned index = true
    · simp only [hzoned, if_true]
      exact mem_offsets_iff h f o
    · simp only [hzoned, if_false, Bool.false_eq_true]
      exact mem_toAddresses find rows f o

end Places

/-! ## What is assumed -/

/-- What a condition is of a row: TRUE, FALSE or NULL. -/
abbrev Value := Option Bool

def Value.and : Value → Value → Value
  | some true, some true => some true
  | some false, _ => some false
  | _, some false => some false
  | _, _ => none

def Value.or : Value → Value → Value
  | some false, some false => some false
  | some true, _ => some true
  | _, some true => some true
  | _, _ => none

def Value.not : Value → Value
  | some b => some !b
  | none => none

theorem Value.and_true (a b : Value) : a.and b = some true ↔ a = some true ∧ b = some true := by
  rcases a with _ | _ | _ <;> rcases b with _ | _ | _ <;> decide

theorem Value.or_true (a b : Value) : a.or b = some true ↔ a = some true ∨ b = some true := by
  rcases a with _ | _ | _ <;> rcases b with _ | _ | _ <;> decide

/-- What the tests and the other conditions are of each row, by fragment and offset. -/
structure Truth (τ ε : Type) where
  test : Predicate τ → Nat → Nat → Value
  other : ε → Nat → Nat → Value

def Condition.value {τ ε : Type} (truth : Truth τ ε) : Condition τ ε → Nat → Nat → Value
  | .predicate p, f, o => truth.test p f o
  | .and a b, f, o => (a.value truth f o).and (b.value truth f o)
  | .or a b, f, o => (a.value truth f o).or (b.value truth f o)
  | .not a, f, o => (a.value truth f o).not
  | .other e, f, o => truth.other e f o

/-- A version and its files: fragments that fit row addresses, deletion vectors in order, a fragment
    reuse index that deferred compactions wrote, and a row id index in which a row has one id.
    `rowsOf` has the row counts of all fragments, the rewritten ones too. -/
structure Dataset (files : DatasetFiles) (vectors : DeletionVectors) (rowsOf : Nat → Nat)
    (m : Manifest) : Prop where
  distinct : (m.fragments.map (·.id)).Nodup
  small : ∀ f ∈ m.fragments, f.id < 2 ^ 32
  rows : ∀ f ∈ m.fragments, f.physicalRows = rowsOf f.id
  rows_le : ∀ id, rowsOf id ≤ 2 ^ 32
  deletions : ∀ f ∈ m.fragments, ∀ deleted, deletedRows vectors f = .ok deleted →
    deleted.Pairwise (· < ·)
  reuse : ∀ index, newestReuse m.indices = some index → ∃ versions history,
    reuseVersions files.reuse index = .ok versions ∧ ReuseMoves.History rowsOf history ∧
    List.Forall₂ (fun (d : ReuseMoves.Deferred) v => ∃ groups, d.groups = .ok groups ∧
      v.groups = groups.map ReuseDetails.WriteGroup.reuse) history versions
  ids : ∀ find, files.rowIds m = .ok (some find) →
    ∀ i j a, find i = some a → find j = some a → i = j

section Assumed

variable (m : Manifest) (vectors : DeletionVectors) (rowsOf : Nat → Nat)
  (steps : Option (List RemapStep)) (rowIds : Option (Nat → Option Nat))

/-- The row at an address is, or was before it moved, in one of the fragments the manifest lists as
    the segment's. -/
def Covers (index : IndexMetadata) (address : Nat) : Prop :=
  ∃ g ∈ index.fragmentIds, ∃ p < rowsOf g, resolveReuse steps (rowAddress g p) = some address

/-- A segment's own answer: it has every live row of its fragments that passes, whatever address or
    id it holds it by, and no other live row when it is exact. -/
structure SegmentAnswer (index : IndexMetadata) (kind : IndexKind) (passes : Nat → Nat → Prop)
    (rows : Rows) : Prop where
  ok : rows.Ok
  complete : ∀ f ∈ m.fragments, f.id ∈ coverageOf m steps index → ∀ o,
    liveRow vectors f o = true → passes f.id o → Covers rowsOf steps index (rowAddress f.id o) →
      ∃ a ∈ rows.addresses, present steps rowIds index a = some (rowAddress f.id o)
  inside : ∀ f ∈ m.fragments, f.id ∈ coverageOf m steps index → ∀ a ∈ rows.addresses,
    ∀ o < 2 ^ 32, present steps rowIds index a = some (rowAddress f.id o) → o < f.physicalRows
  exact : kind.exact = true → ∀ f ∈ m.fragments, f.id ∈ coverageOf m steps index →
    ∀ a ∈ rows.addresses, ∀ o, present steps rowIds index a = some (rowAddress f.id o) →
      liveRow vectors f o = true → passes f.id o

/-- Every segment answers so. -/
def Answers {τ ε : Type} (env : Searches τ) (truth : Truth τ ε) : Prop :=
  ∀ index ∈ m.indices, ∀ kind, kindOf index = some kind → ∀ p rows,
    env.search kind index p = .ok (some rows) →
    SegmentAnswer m vectors rowsOf steps rowIds index kind
      (fun f o => truth.test p f o = some true) rows

end Assumed

/-! ## The segments of an index -/

variable {τ ε : Type} {env : Searches τ} {truth : Truth τ ε} {files : DatasetFiles} {m : Manifest}
  {vectors : DeletionVectors} {rowsOf : Nat → Nat} {steps : Option (List RemapStep)}
  {rowIds : Option (Nat → Option Nat)} {index : IndexMetadata}

/-- A segment that answers. -/
theorem searchSegment_ok {p : Predicate τ} {exact : Bool}
    (h : searchSegment env index p = .ok (some (rows, exact))) :
    ∃ kind, kindOf index = some kind ∧ (index.detailsTypeUrl = jsonUrl : Bool) = p.json ∧
      env.search kind index p = .ok (some rows) ∧ exact = kind.exact := by
  unfold searchSegment at h
  rcases (bind_eq_ok _ _ _).mp h with ⟨-, -, h⟩
  by_cases hjson : (decide (index.detailsTypeUrl = jsonUrl) != p.json) = true
  · rw [if_pos hjson, pure_eq_ok] at h
    cases h
  · rw [if_neg hjson] at h
    cases hkind : kindOf index with
    | none =>
      rw [hkind, pure_eq_ok] at h
      cases h
    | some kind =>
      rw [hkind] at h
      rcases (bind_eq_ok _ _ _).mp h with ⟨found, hfound, h⟩
      rw [pure_eq_ok, Option.map_eq_some_iff] at h
      grind

/-- The rows a segment adds. -/
def segmentRows (env : Searches τ) (steps : Option (List RemapStep))
    (rowIds : Option (Nat → Option Nat)) (p : Predicate τ) (index : IndexMetadata) : Rows :=
  match searchSegment env index p with
  | .ok (some (rows, _)) => placeRows steps rowIds index rows
  | _ => []

/-- What the segments of an index come to. -/
structure Gathered (env : Searches τ) (m : Manifest) (steps : Option (List RemapStep))
    (rowIds : Option (Nat → Option Nat)) (p : Predicate τ) (segments : List IndexMetadata)
    (set : RowSet) (exact : Bool) (out : RowSet) : Prop where
  answered : ∀ s ∈ segments, ∃ rows exact, searchSegment env s p = .ok (some (rows, exact))
  covered : ∀ f, f ∈ out.covered ↔ f ∈ set.covered ∨ ∃ s ∈ segments, f ∈ coverageOf m steps s
  rows : ∀ f o, o ∈ out.rows.offsets f ↔ o ∈ set.rows.offsets f ∨ ∃ s ∈ segments,
    f ∈ coverageOf m steps s ∧ o ∈ (segmentRows env steps rowIds p s).offsets f
  ascending : ∀ f, (out.rows.offsets f).Pairwise (· < ·)
  exact : out.exact = true → exact = true ∧
    ∀ s ∈ segments, ∀ kind, kindOf s = some kind → kind.exact = true

variable {s : IndexMetadata} {g : String × List IndexMetadata}

section Reuse

variable (h : Dataset files vectors rowsOf m) (hsteps : loadReuse files.reuse m = .ok steps)

include h hsteps

/-- The steps a version is read with follow deferred compactions. -/
theorem Dataset.follows (remap : List RemapStep) (hremap : steps = some remap) :
    ∃ history, ReuseMoves.History rowsOf history ∧
      List.Forall₂ (ReuseMoves.Follows rowsOf) history remap := by
  unfold loadReuse at hsteps
  cases hnewest : newestReuse m.indices with
  | none =>
    rw [hnewest, hremap] at hsteps
    cases hsteps
  | some index =>
    rcases h.reuse index hnewest with ⟨versions, history, hversions, hhistory, hrecorded⟩
    rcases ReuseMoves.buildSteps_follows h.rows_le hrecorded hhistory.sound with
      ⟨built, hbuilt, hfollows⟩
    rw [hnewest] at hsteps
    simp only [hversions, hbuilt, bind, Except.bind, pure, Except.pure] at hsteps
    grind

/-- A row of a covered fragment comes from a row of the coverage the manifest lists. -/
theorem Dataset.covers (index : IndexMetadata) (f : DataFragment) (hf : f ∈ m.fragments)
    (hcov : f.id ∈ coverageOf m steps index) (o : Nat) (ho : o < f.physicalRows) :
    Covers rowsOf steps index (rowAddress f.id o) := by
  have hrows := h.rows f hf
  have hreach := (mem_filter.mp hcov).1
  cases hs : steps with
  | none =>
    rw [hs] at hreach
    exact ⟨f.id, hreach, o, by omega, rfl⟩
  | some remap =>
    rcases h.follows hsteps remap hs with ⟨history, hhistory, hfollows⟩
    rw [hs] at hreach
    exact (ReuseMoves.coverage_traced hhistory hfollows index.fragmentIds f.id hreach).2 o (by omega)

end Reuse

theorem liveRow_lt (h : liveRow vectors f o = true) :
    o < f.physicalRows := by grind [liveRow]

/-! ## One segment -/

section OneSegment

variable (hone : rowIds = none ∨ steps = none) {kind : IndexKind} {passes : Nat → Nat → Prop}
  (hanswer : SegmentAnswer m vectors rowsOf steps rowIds index kind passes rows)
  (f : DataFragment) (hf : f ∈ m.fragments) (hcov : f.id ∈ coverageOf m steps index)

include hone hanswer hf hcov

/-- A fragment the segment speaks for misses no row. -/
theorem SegmentAnswer.mem (h : Dataset files vectors rowsOf m)
    (hsteps : loadReuse files.reuse m = .ok steps) (o : Nat) (hlive : liveRow vectors f o = true)
    (hpasses : passes f.id o) : o ∈ (placeRows steps rowIds index rows).offsets f.id := by
  have ho := liveRow_lt hlive
  have hlt : o < 2 ^ 32 := by
    have := h.rows_le f.id
    have := h.rows f hf
    omega
  rcases hanswer.complete f hf hcov o hlive hpasses (h.covers hsteps index f hf hcov o ho) with
    ⟨a, ha, hpresent⟩
  rw [← placed_eq_present steps rowIds index hone] at hpresent
  exact (mem_placeRows steps rowIds index hanswer.ok f.id o).mpr ⟨a, ha, rowAddress f.id o, hpresent,
    fragmentOf_rowAddress f.id o hlt, offsetOf_rowAddress f.id o hlt⟩

/-- The rows put in a fragment are rows of it, and those of an exact answer pass. -/
theorem SegmentAnswer.sound (o : Nat) (ho : o ∈ (placeRows steps rowIds index rows).offsets f.id) :
    o < f.physicalRows ∧ (kind.exact = true → liveRow vectors f o = true → passes f.id o) := by
  rcases (mem_placeRows steps rowIds index hanswer.ok f.id o).mp ho with ⟨a, ha, b, hb, hfb, hob⟩
  have hlt : o < 2 ^ 32 := hob ▸ offsetOf_lt b
  rw [placed_eq_present steps rowIds index hone, ← rowAddress_eta b, hfb, hob] at hb
  exact ⟨hanswer.inside f hf hcov a ha o hlt hb,
    fun hexact hlive => hanswer.exact hexact f hf hcov a ha o hb hlive⟩

end OneSegment

/-! ## Tests and filters -/

section Filters

variable (h : Dataset files vectors rowsOf m) (hsteps : loadReuse files.reuse m = .ok steps)
  (hids : files.rowIds m = .ok rowIds) (hone : rowIds = none ∨ steps = none)
  (hanswers : Answers m vectors rowsOf steps rowIds env truth)

include h hsteps hids hone hanswers

omit hids in
/-- The answer of an index. -/
theorem Gathered.holds (p : Predicate τ) (segments : List IndexMetadata)
    (hmem : ∀ s ∈ segments, s ∈ m.indices) (out : RowSet)
    (hout : Gathered env m steps rowIds p segments {} true out) :
    Holds m vectors (fun f o => truth.test p f o = some true) out := by
  have hsegment : ∀ s ∈ segments, ∃ kind rows, kindOf s = some kind ∧
      segmentRows env steps rowIds p s = placeRows steps rowIds s rows ∧
      SegmentAnswer m vectors rowsOf steps rowIds s kind
        (fun f o => truth.test p f o = some true) rows := by
    intro s hs
    rcases hout.answered s hs with ⟨rows, exact, hsearch⟩
    rcases searchSegment_ok hsearch with ⟨kind, hkind, -, hfound, -⟩
    exact ⟨kind, rows, hkind, by rw [segmentRows, hsearch],
      hanswers s (hmem s hs) kind hkind p rows hfound⟩
  have hcovered : ∀ f, f ∈ out.covered ↔ ∃ s ∈ segments, f ∈ coverageOf m steps s := by
    intro f
    rw [hout.covered]
    exact ⟨fun hf => hf.elim nofun (fun hf => hf), .inr⟩
  have hrows : ∀ f o, o ∈ out.rows.offsets f → ∃ s ∈ segments, f ∈ coverageOf m steps s ∧
      o ∈ (segmentRows env steps rowIds p s).offsets f := by
    intro f o ho
    rcases (hout.rows f o).mp ho with ho | ho
    · nomatch ho
    · exact ho
  refine ⟨hout.ascending, ?_, ?_, ?_⟩
  · intro f hf hcov o hlive hpasses
    rcases (hcovered f.id).mp hcov with ⟨s, hs, hscov⟩
    rcases hsegment s hs with ⟨kind, rows, -, hsame, hanswer⟩
    refine (hout.rows f.id o).mpr (.inr ⟨s, hs, hscov, ?_⟩)
    rw [hsame]
    exact hanswer.mem hone f hf hscov h hsteps o hlive hpasses
  · intro f hf hcov o ho
    rcases hrows f.id o ho with ⟨s, hs, hscov, hin⟩
    rcases hsegment s hs with ⟨kind, rows, -, hsame, hanswer⟩
    rw [hsame] at hin
    exact (hanswer.sound hone f hf hscov o hin).1
  · intro hexact f hf hcov o ho hlive
    rcases hrows f.id o ho with ⟨s, hs, hscov, hin⟩
    rcases hsegment s hs with ⟨kind, rows, hkind, hsame, hanswer⟩
    rw [hsame] at hin
    exact (hanswer.sound hone f hf hscov o hin).2 ((hout.exact hexact).2 s hs kind hkind) hlive

end Filters

/-! ## Counting -/

section Count

variable (vectors : DeletionVectors)

/-- The live rows of a fragment that pass. -/
def passing (passes : Nat → Nat → Bool) (f : DataFragment) : List Nat :=
  (List.range f.physicalRows).filter (fun o => liveRow vectors f o && passes f.id o)

variable (passes : Nat → Nat → Bool)

/-- The fragment is counted from the candidates. -/
def counts (candidates : IndexCandidates) (f : DataFragment) : Bool :=
  candidates.exact && (candidates.rows.find? (fun e => e.1 = f.id % 2 ^ 32)).isSome

end Count

end IndexAnswers

end NanoLance
