import NanoLance.Compaction

/-!
# Two Deferred Compactions at Once

Two compactions planned from the same version, on different fragments, commit
at the same time. Each goes through the same phases: it checks that its
fragments are as planned, publishes the version that reserves ids, reads that
version back, builds the rewrite on top of it, and publishes the rewrite. A
publish that finds its version taken goes back to be rebased. A schedule says
whose turn it is at every step, so a schedule is an interleaving.

Each compaction builds its fragment reuse index from the one of the version it
was planned from. What the other one added since is not in there, and a
rebased rewrite leaves its own entry behind. So whatever the schedule, no
version ever has a fragment reuse index with the steps of both.

## Main definitions

* `Race`, `stepRace`, `runRace`: Both of them, under a schedule.

## Theorems

* `runRace_fromOne`: So does every schedule.
* `race_loses_step`: In no schedule are both steps kept.
* `race_loses_step_in_turn`: Two compactions one after the other.
* `first_step_lost`: What becomes of the first one's rows.
-/

namespace NanoLance

open List Lib

/-- A committed version and the operation its transaction records. -/
structure Version where
  manifest : Manifest
  op : Operation

/-- The two commits of a compaction. -/
inductive Stage where
  | reserve
  | rewrite
  deriving DecidableEq, Repr

/-- A commit under way: the version it was made from, the change as it was made, the manifest to
    publish next, and how often it was rebased. -/
structure Attempt where
  stage : Stage
  base : Manifest
  ours : Manifest
  candidate : Manifest
  mine : Operation
  tries : Nat

/-- Where a compaction stands. -/
inductive Phase where
  | start
  | publishing (attempt : Attempt)
  | conflicted (attempt : Attempt)
  | reserved (version : Nat)
  | done
  | failed (error : String)

/-- The versions committed since the one both were planned from, newest first. -/
abbrev History := List Version

def latestOf (original : Manifest) (history : History) : Manifest :=
  match history with
  | [] => original
  | version :: _ => version.manifest

/-- The operations of the versions after one, oldest first. -/
def committedSince (history : History) (version : Nat) : List Operation :=
  ((history.filter (fun v => version < v.manifest.version)).map (·.op)).reverse

def versionAt (history : History) (version : Nat) : Option Manifest :=
  (history.find? (fun v => v.manifest.version = version)).map (·.manifest)

/-- A commit made from `base`, not published yet. -/
def attemptOf (stage : Stage) (base ours : Manifest) (mine : Operation) : Attempt :=
  { stage := stage, base := base, ours := ours, candidate := ours, mine := mine, tries := 0 }

/-- The checks before anything is committed, and the reserving commit. -/
def startCompaction (original latest : Manifest) (c : Compaction) : Except String Attempt := do
  Lib.ensure (!isStable original)
    "defer_index_remap is not supported on a dataset with stable row ids"
  checkPlanned original c
  checkUnchanged original latest c.rewritten
  return attemptOf .reserve original
    { reserveManifest original c.created.length with version := original.version + 1 }
    (reserveOperation c.created.length)

/-- The rewriting commit on top of the reserved version. -/
def buildRewrite (vectors : DeletionVectors) (original : Manifest) (c : Compaction)
    (reserved : Manifest) : Except String Attempt := do
  let made ← compactionManifest vectors true original reserved c
  return attemptOf .rewrite reserved made (deriveRewrite reserved made)

/-- The operation a published version's transaction records: a reservation says what it does, a
    rewrite is read off the change to the version before. -/
def recordedOperation (latest : Manifest) (attempt : Attempt) : Operation :=
  match attempt.stage with
  | .reserve => attempt.mine
  | .rewrite => deriveRewrite latest attempt.candidate

/-- A phase entered when a computation succeeds, or failure. -/
def orFail {α : Type} (next : α → Phase) : Except String α → Phase
  | .ok a => next a
  | .error e => .failed e

/-- What a compaction does when it is its turn: the phase it goes to, and the version it publishes,
    if it does. -/
def stepPhase (vectors : DeletionVectors) (attempts : Nat) (original : Manifest) (c : Compaction)
    (history : History) : Phase → Phase × Option Version
  | .start =>
    if c.rewrites.all (fun r => r.oldFragmentIds.isEmpty) then (.done, none)
    else (orFail .publishing (startCompaction original (latestOf original history) c), none)
  | .publishing attempt =>
    -- A version is published only where no file is in its place.
    if attempt.candidate.version = (latestOf original history).version + 1 then
      (match attempt.stage with
        | .reserve => .reserved attempt.candidate.version
        | .rewrite => .done,
        some ⟨attempt.candidate, recordedOperation (latestOf original history) attempt⟩)
    else (.conflicted attempt, none)
  | .conflicted attempt =>
    if attempts ≤ attempt.tries then
      (.failed (s!"commit conflict: version {attempt.candidate.version} was committed " ++
        "concurrently"), none)
    else
      (orFail (fun rebased => .publishing
          { attempt with candidate := rebased, tries := attempt.tries + 1 })
        (rebaseCommit attempt.base.version (latestOf original history) attempt.ours attempt.mine
          (committedSince history attempt.base.version)), none)
  | .reserved version =>
    match versionAt history version with
    | none => (.failed s!"version {version} was not found", none)
    | some reserved => (orFail .publishing (buildRewrite vectors original c reserved), none)
  | .done => (.done, none)
  | .failed e => (.failed e, none)

/-- Both compactions and the versions they committed. -/
structure Race where
  history : History := []
  left : Phase := .start
  right : Phase := .start

/-- One turn, of the left compaction or of the right one. -/
def stepRace (vectors : DeletionVectors) (attempts : Nat) (original : Manifest) (a b : Compaction)
    (race : Race) (turn : Bool) : Race :=
  if turn then
    let step := stepPhase vectors attempts original a race.history race.left
    { race with history := step.2.toList ++ race.history, left := step.1 }
  else
    let step := stepPhase vectors attempts original b race.history race.right
    { race with history := step.2.toList ++ race.history, right := step.1 }

def runRace (vectors : DeletionVectors) (attempts : Nat) (original : Manifest) (a b : Compaction)
    (schedule : List Bool) : Race :=
  schedule.foldl (stepRace vectors attempts original a b) {}

/-- The version of the fragment reuse index that records a compaction. -/
def VersionOf (c : Compaction) (v : ReuseVersion) : Prop :=
  v.groups.map (·.oldIds) = c.rewrites.map (·.oldFragmentIds)

/-- The fragment reuse index of a version has a step for each of the two compactions, and translates
    every live row of the fragments they replaced to a fragment of that version. -/
def StepsKept (external : Nat → Except String (List ReuseVersion)) (vectors : DeletionVectors)
    (original final : Manifest) (a b : Compaction) : Prop :=
  ∃ index versions steps, newestReuse final.indices = some index ∧
    reuseVersions external index = .ok versions ∧ buildSteps versions = .ok steps ∧
    (∃ v ∈ versions, VersionOf a v) ∧ (∃ v ∈ versions, VersionOf b v) ∧
    ∀ f ∈ original.fragments, f.id ∈ a.rewritten ++ b.rewritten → ∀ offset,
      liveRow vectors f offset = true →
      ∃ address, resolve steps (rowAddress f.id offset) = some address ∧
        (final.fragment? (fragmentOf address)).isSome = true

/-- The fragment reuse indices of a version: those both compactions were planned with, or the one
    they were planned with and one more step, of one of them. -/
def FromOne (original : Manifest) (a b : Compaction) (m : Manifest) : Prop :=
  ∀ i ∈ m.indices, i.name = fragReuseIndex → i ∈ original.indices ∨
    ∃ prior v, priorVersions (priorReuse original) = .ok prior ∧
      i.details = .reuseInline (prior ++ [v]) ∧ (VersionOf a v ∨ VersionOf b v)

/-- A commit under way publishes such a version, and is rebased as a reservation or as a rewrite. -/
structure Attempt.Sound (original : Manifest) (a b : Compaction) (attempt : Attempt) : Prop where
  fromOne : FromOne original a b attempt.candidate
  rebase : (∃ count, attempt.mine = reserveOperation count) ∨
    ∃ parent next, attempt.mine = deriveRewrite parent next

def Phase.Sound (original : Manifest) (a b : Compaction) : Phase → Prop
  | .publishing attempt | .conflicted attempt => attempt.Sound original a b
  | .start | .reserved _ | .done | .failed _ => True

theorem Phase.sound_orFail {α : Type} {original : Manifest} {a b : Compaction} {next : α → Phase}
    {result : Except String α} (h : ∀ x, result = .ok x → (next x).Sound original a b) :
    (orFail next result).Sound original a b := by
  cases hres : result with
  | error e => trivial
  | ok x => exact h x hres

variable {a b : Compaction} {original : Manifest}

/-- The entry a compaction writes has its step after the ones it was planned with. -/
theorem compactionManifest_fromOne {vectors : DeletionVectors} {reserved out : Manifest}
    {c : Compaction} (hc : c = a ∨ c = b)
    (h : compactionManifest vectors true original reserved c = .ok out) :
    FromOne original a b out := by
  simp only [compactionManifest, compactionIndices, if_true, bind_eq_ok, pure_eq_ok] at h
  rcases h with ⟨_, -, indices, ⟨groups, hgroups, entry, hentry, rfl⟩, rfl⟩
  simp only [fragmentReuseIndexEntry, bind_eq_ok, pure_eq_ok] at hentry
  rcases hentry with ⟨prior, hprior, rfl⟩
  have hrecords : VersionOf c { datasetVersion := reserved.version + 1, groups := groups } := by
    have hpairs := (compactionGroups_ok _ _ _ _ hgroups).2
    clear hgroups
    unfold VersionOf
    generalize c.rewrites = rewrites at hpairs
    induction hpairs with
    | nil => rfl
    | cons hrg _ ih =>
      rw [map_cons, map_cons, ih]
      exact congrArg (· :: _) (oldDigests_ids _ hrg.1)
  intro i hi hname
  rcases mem_append.mp hi with hold | hnew
  · grind
  · grind

variable {vectors : DeletionVectors} {attempts : Nat} (c : Compaction)

/-- A turn of either compaction publishes only such versions. -/
theorem stepPhase_fromOne (hc : c = a ∨ c = b) {history : History}
    (hhistory : ∀ v ∈ history, FromOne original a b v.manifest) {phase : Phase}
    (hphase : phase.Sound original a b) :
    (stepPhase vectors attempts original c history phase).1.Sound original a b ∧
      ∀ v ∈ (stepPhase vectors attempts original c history phase).2,
        FromOne original a b v.manifest := by
  have hplanned : FromOne original a b original := fun i hi _ => .inl hi
  have hnone : ∀ v ∈ (none : Option Version), FromOne original a b v.manifest :=
    fun v hv => nomatch hv
  have hlatest : FromOne original a b (latestOf original history) := by
    cases history with
    | nil => exact hplanned
    | cons v rest => exact hhistory v (.head _)
  cases phase with
  | start =>
    simp only [stepPhase]
    by_cases hwork : c.rewrites.all (fun r => r.oldFragmentIds.isEmpty) = true
    · rw [if_pos hwork]
      exact ⟨trivial, hnone⟩
    · rw [if_neg hwork]
      refine ⟨Phase.sound_orFail (fun attempt h => ?_), hnone⟩
      simp only [startCompaction, bind_eq_ok, pure_eq_ok] at h
      rcases h with ⟨_, -, _, -, _, -, rfl⟩
      refine ⟨?_, .inl ⟨_, rfl⟩⟩
      -- Reserving ids leaves the indices alone.
      have hindices : (reserveManifest original c.created.length).indices = original.indices := by
        grind [reserveManifest, noteFragmentId]
      show ∀ i ∈ (reserveManifest original c.created.length).indices, _
      rw [hindices]
      exact hplanned
  | publishing attempt =>
    simp only [stepPhase]
    by_cases hfree : attempt.candidate.version = (latestOf original history).version + 1
    · rw [if_pos hfree]
      refine ⟨?_, fun v hv => ?_⟩
      · cases attempt.stage <;> trivial
      · rw [Option.mem_some_iff] at hv
        rw [← hv]
        exact hphase.fromOne
    · rw [if_neg hfree]
      exact ⟨hphase, hnone⟩
  | conflicted attempt =>
    simp only [stepPhase]
    by_cases htries : attempts ≤ attempt.tries
    · rw [if_pos htries]
      exact ⟨trivial, hnone⟩
    · rw [if_neg htries]
      refine ⟨Phase.sound_orFail (fun rebased h => ?_), hnone⟩
      -- Either commit is rebased with the latest version's indices.
      have hindices : rebased.indices = (latestOf original history).indices := by
        rcases hphase.rebase with ⟨count, hmine⟩ | ⟨parent, next, hmine⟩
        · rw [hmine] at h
          exact (rebaseCommit_reserve h).1
        · rw [hmine] at h
          exact (rebaseCommit_rewrite h).1
      refine ⟨?_, hphase.rebase⟩
      show ∀ i ∈ rebased.indices, _
      rw [hindices]
      exact hlatest
  | reserved version =>
    simp only [stepPhase]
    cases versionAt history version with
    | none =>
      exact ⟨trivial, hnone⟩
    | some reserved =>
      refine ⟨Phase.sound_orFail (fun attempt h => ?_), hnone⟩
      simp only [buildRewrite, bind_eq_ok, pure_eq_ok] at h
      rcases h with ⟨made, hmade, rfl⟩
      exact ⟨compactionManifest_fromOne hc hmade, .inr ⟨_, _, rfl⟩⟩
  | done => exact ⟨trivial, hnone⟩
  | failed e => exact ⟨trivial, hnone⟩

/-- What every schedule keeps. -/
structure Race.Sound (original : Manifest) (a b : Compaction) (race : Race) : Prop where
  history : ∀ v ∈ race.history, FromOne original a b v.manifest
  left : race.left.Sound original a b
  right : race.right.Sound original a b

theorem stepRace_sound {race : Race} (turn : Bool) (h : race.Sound original a b) :
    (stepRace vectors attempts original a b race turn).Sound original a b := by
  have hpublished : ∀ step : Phase × Option Version,
      (∀ v ∈ step.2, FromOne original a b v.manifest) →
      ∀ v ∈ step.2.toList ++ race.history, FromOne original a b v.manifest := by
    intro step hstep v hv
    rcases mem_append.mp hv with hnew | hold
    · exact hstep v (Option.mem_toList.mp hnew)
    · exact h.history v hold
  cases turn with
  | true =>
    rcases stepPhase_fromOne a (.inl rfl) h.history h.left with ⟨hphase, hout⟩
    exact ⟨hpublished _ hout, hphase, h.right⟩
  | false =>
    rcases stepPhase_fromOne b (.inr rfl) h.history h.right with ⟨hphase, hout⟩
    exact ⟨hpublished _ hout, h.left, hphase⟩

theorem runRace_fromOne (original : Manifest) (a b : Compaction) (schedule : List Bool) :
    FromOne original a b
      (latestOf original (runRace vectors attempts original a b schedule).history) := by
  have hsound : (runRace vectors attempts original a b schedule).Sound original a b :=
    foldlRecOn schedule _ ⟨fun v hv => absurd hv not_mem_nil, trivial, trivial⟩
      (fun race hrace turn _ => stepRace_sound turn hrace)
  cases hhistory : (runRace vectors attempts original a b schedule).history with
  | nil => exact fun i hi _ => .inl hi
  | cons v rest => exact hsound.history v (hhistory ▸ mem_cons_self)

/-- The fragments of a compaction, from the version that records it. -/
theorem VersionOf.oldIds_eq (v : ReuseVersion) (h : VersionOf c v) :
    v.groups.flatMap (·.oldIds) = c.rewritten := by
  rw [Compaction.rewritten, flatMap_def, flatMap_def, h]

/-- Two compactions planned from one version on different fragments: each has a fragment, in that
    version, and the fragments the fragment reuse index says were replaced before are not. -/
structure PlannedTogether (external : Nat → Except String (List ReuseVersion)) (original : Manifest)
    (a b : Compaction) : Prop where
  left : a.rewritten ≠ []
  right : b.rewritten ≠ []
  apart : ∀ id ∈ a.rewritten, id ∉ b.rewritten
  present : ∀ id ∈ a.rewritten ++ b.rewritten, original.fragment? id ≠ none
  past : ∀ i ∈ original.indices, i.name = fragReuseIndex → ∀ versions,
    reuseVersions external i = .ok versions → ∀ v ∈ versions, ∀ id ∈ v.groups.flatMap (·.oldIds),
    original.fragment? id = none

variable (external : Nat → Except String (List ReuseVersion))

/-- No step the fragment reuse index had already is one of the two. -/
theorem PlannedTogether.not_past (original : Manifest) (a b c : Compaction)
    (h : PlannedTogether external original a b) (hc : c = a ∨ c = b) (i : IndexMetadata)
    (hi : i ∈ original.indices) (hname : i.name = fragReuseIndex) (versions : List ReuseVersion)
    (hversions : reuseVersions external i = .ok versions) (v : ReuseVersion) (hv : v ∈ versions) :
    ¬VersionOf c v := by
  intro hrecords
  have hsome : ∃ id ∈ c.rewritten, id ∈ a.rewritten ++ b.rewritten := by
    rcases hc with rfl | rfl
    · rcases exists_mem_of_ne_nil _ h.left with ⟨id, hid⟩
      exact ⟨id, hid, mem_append_left _ hid⟩
    · rcases exists_mem_of_ne_nil _ h.right with ⟨id, hid⟩
      exact ⟨id, hid, mem_append_right _ hid⟩
  rcases hsome with ⟨id, hid, hin⟩
  rw [← hrecords.oldIds_eq] at hid
  exact h.present id hin (h.past i hi hname versions hversions v hv id hid)

theorem priorVersions_spec {prior : List ReuseVersion}
    (h : priorVersions (priorReuse original) = .ok prior) {v : ReuseVersion} (hv : v ∈ prior) :
    ∃ i ∈ original.indices, i.name = fragReuseIndex ∧
      reuseVersions external i = .ok prior := by
  cases hfind : priorReuse original with
  | none => grind [priorVersions]
  | some i =>
    rw [hfind, priorVersions] at h
    have hi := mem_reverse.mp (mem_of_find?_eq_some hfind)
    have hname : i.name = fragReuseIndex := by simpa using find?_some hfind
    refine ⟨i, hi, hname, ?_⟩
    unfold reuseVersions
    cases hdetails : i.details with
    | reuseInline versions =>
      rw [hdetails] at h
      exact h
    | reuseExternal => grind
    | bytes value => grind

/-- In no schedule does the last version keep the steps of both compactions, and so in none in which
    both succeed. -/
theorem race_loses_step (external : Nat → Except String (List ReuseVersion))
    (vectors : DeletionVectors) (attempts : Nat) (original : Manifest) (a b : Compaction)
    (schedule : List Bool) (hplanned : PlannedTogether external original a b) :
    ¬StepsKept external vectors original
      (latestOf original (runRace vectors attempts original a b schedule).history) a b := by
  rintro ⟨index, versions, steps, hnewest, hversions, -, ⟨v, hv, hva⟩, ⟨w, hw, hwb⟩, -⟩
  rcases (newestReuse_spec _).2 index hnewest with ⟨hmem, hname⟩
  rcases runRace_fromOne original a b schedule index hmem hname with
    hold | ⟨prior, last, hprior, hdetails, hlast⟩
  · -- The index both were planned with has neither step.
    exact hplanned.not_past external original a b a (.inl rfl) index hold hname versions hversions
      v hv hva
  · rw [reuseVersions, hdetails, Except.ok.injEq] at hversions
    subst hversions
    -- A step of either compaction is the last one, and so the two are one.
    have hlastOnly : ∀ (c : Compaction) (x : ReuseVersion), c = a ∨ c = b → x ∈ prior ++ [last] →
        VersionOf c x → x = last := by
      intro c x hc hx hrecords
      rcases mem_append.mp hx with hin | hin
      · rcases priorVersions_spec external hprior hin with ⟨i, hi, hin', hread⟩
        exact absurd hrecords
          (hplanned.not_past external original a b c hc i hi hin' prior hread x hin)
      · exact mem_singleton.mp hin
    have hv' := hlastOnly a v (.inl rfl) hv hva
    have hw' := hlastOnly b w (.inr rfl) hw hwb
    rw [hv'] at hva
    rw [hw'] at hwb
    have hsame : a.rewritten = b.rewritten := hva.oldIds_eq.symm.trans hwb.oldIds_eq
    rcases exists_mem_of_ne_nil _ hplanned.left with ⟨id, hid⟩
    exact hplanned.apart id hid (hsame ▸ hid)

/-- Two fragments of two rows and nothing else. -/
def plainPair : Manifest :=
  { version := 1
    fields := [{ name := "v", id := 0 }]
    fragments := [{ id := 0, physicalRows := 2 }, { id := 1, physicalRows := 2 }]
    maxFragmentId := some 1 }

/-- A compaction that writes one fragment's rows to another. -/
def compactAlone (id uuid : Nat) : Compaction :=
  { rewrites := [{ oldFragmentIds := [id], newFragments := [{ id := 0, physicalRows := 2 }] }]
    uuid := uuid }

/-- The left compaction commits, then the right one: its reservation finds the version taken and is
    rebased. -/
def inTurn : List Bool :=
  [true, true, true, true, false, false, false, false, false, false]

def raceInTurn : Race :=
  runRace (fun _ _ => .ok []) 3 plainPair (compactAlone 0 7) (compactAlone 1 8) inTurn

theorem race_loses_step_in_turn :
    raceInTurn.left = .done ∧ raceInTurn.right = .done ∧
      ¬StepsKept (fun _ => .ok []) (fun _ _ => .ok []) plainPair
        (latestOf plainPair raceInTurn.history) (compactAlone 0 7) (compactAlone 1 8) :=
  ⟨rfl, rfl, race_loses_step (fun _ => .ok []) (fun _ _ => .ok []) 3 plainPair (compactAlone 0 7)
    (compactAlone 1 8) inTurn
    ⟨by decide, by decide, by decide, by decide, nofun⟩⟩

/-- After it the fragment reuse index has the second step alone. A row of the first compaction's
    fragment is translated to where it was, in a fragment that is gone, while its new fragment is
    there. -/
theorem first_step_lost :
    raceInTurn.left = .done ∧ raceInTurn.right = .done ∧
      ∃ steps, loadReuse (fun _ => .ok []) (latestOf plainPair raceInTurn.history) =
          .ok (some steps) ∧
        steps.map (fun step => step.groups.map (·.oldIds)) = [[[1]]] ∧
        resolve steps (rowAddress 0 0) = some (rowAddress 0 0) ∧
        (latestOf plainPair raceInTurn.history).fragments.map (·.id) = [2, 3] :=
  ⟨rfl, rfl, _, rfl, rfl, rfl, rfl⟩

end NanoLance
