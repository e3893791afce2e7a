import NanoLance.DerivedOperation
import NanoLance.VersionLog

/-!
# The Version Log Is a Chain

However the turns of the writers fall, each version was computed from the one
before it, no version is replaced, and a call that succeeds has published one
version.

A number is settled long before it is put, so the claim about a manifest that is
about to be put (`Prepared`) is conditional: it was made from some version that
is there, whose successor it is or which is newer, and if it is its successor
then it was computed from it. That is kept when others publish. A put only
makes a file where none is, and then the number can only be the next one, so
that the condition is met.

Ids of calls and names of transactions are tokens that each writer owns. No
other writer has them, no file bears them until the writer puts one, and then
the call is over.

## Main definitions

* `Prepared`, `PhaseOk`: What is known of a writer in a phase.

## Theorems

* `step_sound`, `run_sound`: Turns keep the invariant.
* `version_log_chain`: The log is a chain whatever the interleaving.
* `calls_publish_once`: No call publishes twice.
-/

namespace NanoLance

namespace VersionLog

open List Lib

/-- A directory of one naming scheme, its versions one after the other. A new dataset starts at one,
    with V2 names. -/
structure WellFormedLog (first : Nat) (v2 : Bool) (dir : Directory) : Prop where
  names : names dir = (range' first dir.length).map (fun version => ⟨v2, version⟩)
  positive : 1 ≤ first
  fresh : dir = [] → first = 1 ∧ v2 = true
  version : ∀ f ∈ dir, f.manifest.version = f.name.version

/-- The manifest `m` of a version is what the request makes of the version before: built on it, made
    from it, or made from an older one and rebased onto it over a log that `dir` goes on from. -/
def Computed (setup : Setup) (dir : Directory) (request : Request) (prior : VersionFile)
    (version : Nat) (m : Manifest) : Prop :=
  match request with
  | .write request => ∃ built, buildVersion version (some prior.manifest) request = .ok built ∧
      checkDataFileVersions built = .ok m
  | .next change =>
    (∃ made, change.make prior.manifest = .ok made ∧
      checkDataFileVersions (afterRead prior made).next = .ok m) ∨
    ∃ log base made rebased, log <+: dir ∧ base ∈ log ∧ prior ∈ log ∧
      change.make base.manifest = .ok made ∧
      rebaseOnto setup log base (afterRead base made) change.affected prior = .ok rebased ∧
      checkDataFileVersions rebased.next = .ok m

section Chain

variable (setup : Setup) (first : Nat) (v2 : Bool)

/-- A listing that began when these names were there. -/
def Listed (dir : Directory) (before : List ManifestName) : Prop :=
  before ⊆ names dir ∧ (before = [] → first = 1 ∧ v2 = true)

/-- The change was made for the version after one that is there, or after an older one. -/
def MadeOn (dir : Directory) (request : Request) (m : Manifest) : Prop :=
  (m.version = 1 ∧ first = 1) ∨
    ∃ prior ∈ dir, first ≤ m.version ∧ m.version ≤ prior.name.version + 1 ∧
      (m.version = prior.name.version + 1 → Computed setup dir request prior m.version m)

/-- A manifest that may be put for a call. -/
def Prepared (dir : Directory) (job : Job) (m : Manifest) : Prop :=
  MadeOn setup first dir job.request m ∧
    match job with
    | .write _ => True
    | .next change base made => base ∈ dir ∧
        ∃ raw, change.make base.manifest = .ok raw ∧ made = afterRead base raw

def PhaseOk (dir : Directory) : Phase → Prop
  | .idle => True
  | .numbering _ _ _ before => Listed first v2 dir before
  | .reading _ _ _ version before =>
    before ⊆ names dir ∧ first ≤ version ∧ version ≤ latestSeen before + 1
  | .opening _ _ _ => True
  | .naming p before => Listed first v2 dir before ∧ Prepared setup first dir p.job p.change.next
  | .putting p scheme => scheme = v2 ∧ Prepared setup first dir p.job p.change.next
  | .rebasing _ change base made _ _ =>
    base ∈ dir ∧ ∃ raw, change.make base.manifest = .ok raw ∧ made = afterRead base raw

end Chain

/-- What a writer alone has. -/
def Phase.tokens : Phase → List Nat
  | .idle => []
  | .numbering id _ _ _ | .reading id _ _ _ _ | .opening id _ _ | .rebasing id _ _ _ _ _ => [id]
  | .naming p _ | .putting p _ => [p.id, p.transaction]

/-- What a file shows of the writer that put it. -/
def VersionFile.tokens (f : VersionFile) : List Nat :=
  f.transaction :: (f.origin.map (·.id)).toList

/-- What a writer's turn does. -/
structure Advanced (setup : Setup) (first : Nat) (v2 : Bool) (dir : Directory) (clock : Nat)
    (was : Phase) (e : Effect) : Prop where
  phase : PhaseOk setup first v2 dir e.phase
  tokens : ∀ t ∈ e.phase.tokens, t ∈ was.tokens ∨ t = clock
  put : ∀ f, e.put = some f → e.phase = .idle ∧
    (∀ t ∈ f.tokens, t ∈ was.tokens) ∧ f.name = ⟨v2, first + dir.length⟩ ∧
    f.manifest.version = f.name.version ∧
    ∃ call, f.origin = some call ∧
      (2 ≤ f.name.version → ∃ prior ∈ dir, prior.name.version + 1 = f.name.version ∧
        Computed setup dir call.request prior f.name.version f.manifest)
  returns : ∀ id result, e.returns = some (id, result) → e.phase = .idle ∧ id ∈ was.tokens ∧
    ∀ version, result = some version → ∃ f, e.put = some f ∧ f.name.version = version ∧
      f.origin.map (·.id) = some id

/-! ### Listings and reads -/

variable {name : ManifestName} {seen before : List ManifestName} {f : VersionFile}
  {version id : Nat} {m : Manifest} {phase : Phase} {request : Request} {prior : Option Manifest}
  {setup : Setup} {first : Nat} {v2 : Bool}

theorem le_latestSeen (h : name ∈ seen) :
    name.version ≤ latestSeen seen :=
  (le_foldl_max ManifestName.version seen 0).2 name h

theorem latestSeen_mem (h : latestSeen seen ≠ 0) :
    ∃ name ∈ seen, name.version = latestSeen seen :=
  (foldl_max_mem ManifestName.version seen 0).resolve_left h

theorem latestSeen_mono (h : before ⊆ seen) :
    latestSeen before ≤ latestSeen seen := by
  by_cases hzero : latestSeen before = 0
  · omega
  · rcases latestSeen_mem hzero with ⟨name, hname, hversion⟩
    rw [← hversion]
    exact le_latestSeen (h hname)

theorem sees_iff (dir : Directory) (before seen : List ManifestName) :
    sees dir before seen = true ↔ before ⊆ seen ∧ seen ⊆ names dir := by simp [sees, subset_def]

variable {dir : Directory}

theorem mem_of_fileNamed (h : fileNamed dir name = some f) :
    f ∈ dir ∧ f.name = name :=
  ⟨mem_of_find?_eq_some h, by simpa using find?_some h⟩

theorem fileNamed_eq_none (dir : Directory) (name : ManifestName) :
    fileNamed dir name = none ↔ name ∉ names dir := by simp [fileNamed, names]

theorem loadVersion_ok (h : loadVersion dir version = .ok f) :
    f ∈ dir ∧ f.name.version = version := by
  unfold loadVersion at h
  split at h
  · next found _ hfound =>
    rw [Except.ok.injEq] at h
    rw [← h]
    rcases mem_of_fileNamed hfound with ⟨hmem, hname⟩
    exact ⟨hmem, by rw [hname]⟩
  · next found _ hfound =>
    rw [Except.ok.injEq] at h
    rw [← h]
    rcases mem_of_fileNamed hfound with ⟨hmem, hname⟩
    exact ⟨hmem, by rw [hname]⟩
  · cases h

theorem loadLatest_ok (h : loadLatest dir seen = .ok f) :
    f ∈ dir ∧ f.name.version = latestSeen seen := by
  simp only [loadLatest, bind_eq_ok] at h
  rcases h with ⟨_, _, hload⟩
  exact loadVersion_ok hload

section WellFormed

variable (h : WellFormedLog first v2 dir)

include h

theorem WellFormedLog.mem_names (name : ManifestName) :
    name ∈ VersionLog.names dir ↔
      name.v2 = v2 ∧ first ≤ name.version ∧ name.version < first + dir.length := by
  rw [h.names, mem_map]
  constructor
  · grind
  · rintro ⟨hscheme, hrange⟩
    refine ⟨name.version, mem_range'_1.mpr hrange, ?_⟩
    rw [← hscheme]

theorem WellFormedLog.name_mem (f : VersionFile) (hf : f ∈ dir) :
    first ≤ f.name.version ∧ f.name.version < first + dir.length :=
  ((h.mem_names f.name).mp (mem_map_of_mem hf)).2

/-- A listing that saw no version saw nothing. -/
theorem WellFormedLog.seen_nil (seen : List ManifestName) (hseen : seen ⊆ VersionLog.names dir)
    (hzero : latestSeen seen = 0) : seen = [] := by
  rw [eq_nil_iff_forall_not_mem]
  intro name hname
  have hle := le_latestSeen hname
  have hfirst := ((h.mem_names name).mp (hseen hname)).2.1
  have hpos := h.positive
  omega

/-- A listing that saw something saw the scheme. -/
theorem WellFormedLog.scheme (before seen : List ManifestName)
    (hbefore : Listed first v2 dir before) (hsub : before ⊆ seen)
    (hseen : seen ⊆ VersionLog.names dir) : schemeSeen seen = v2 := by
  unfold schemeSeen
  by_cases hzero : latestSeen seen = 0
  · -- Nothing was there when the listing began, so the dataset is a new one.
    have hnil := h.seen_nil seen hseen hzero
    rw [hnil, subset_nil] at hsub
    rw [(hbefore.2 hsub).2, hzero]
    rfl
  · rcases latestSeen_mem hzero with ⟨name, hname, _⟩
    have hone : decide (latestSeen seen + 1 = 1) = false := decide_eq_false (by omega)
    rw [hone, Bool.false_or, Bool.eq_iff_iff, any_eq_true]
    constructor
    · rintro ⟨other, hother, hv2⟩
      rw [← ((h.mem_names other).mp (hseen hother)).1]
      exact hv2
    · intro hv2
      exact ⟨name, hname, ((h.mem_names name).mp (hseen hname)).1.trans hv2⟩

end WellFormed

/-! ### What others publish changes nothing -/

section Mono

variable {dir' : Directory}

theorem Computed.mono {prior : VersionFile} (hdir : dir <+: dir')
    (h : Computed setup dir request prior version m) :
    Computed setup dir' request prior version m := by
  cases request with
  | write request => exact h
  | next change =>
    rcases h with h | ⟨log, base, made, rebased, hlog, hrest⟩
    · exact .inl h
    · exact .inr ⟨log, base, made, rebased, hlog.trans hdir, hrest⟩

theorem MadeOn.mono (hdir : dir <+: dir') (h : MadeOn setup first dir request m) :
    MadeOn setup first dir' request m := by
  rcases h with h | ⟨prior, hprior, hfirst, hle, hmade⟩
  · exact .inl h
  · exact .inr ⟨prior, hdir.subset hprior, hfirst, hle, fun heq => (hmade heq).mono hdir⟩

theorem Prepared.mono {job : Job} (hdir : dir <+: dir') (h : Prepared setup first dir job m) :
    Prepared setup first dir' job m := by
  rcases h with ⟨hmade, hjob⟩
  refine ⟨hmade.mono hdir, ?_⟩
  grind

theorem names_grow (hdir : dir <+: dir') : names dir ⊆ names dir' :=
  (hdir.map _).subset

theorem PhaseOk.mono (hdir : dir <+: dir') (h : PhaseOk setup first v2 dir phase) :
    PhaseOk setup first v2 dir' phase := by
  cases phase with
  | idle => trivial
  | opening id change before => trivial
  | numbering id request attempt before => exact ⟨List.Subset.trans h.1 (names_grow hdir), h.2⟩
  | reading id request attempt version before => exact ⟨List.Subset.trans h.1 (names_grow hdir), h.2⟩
  | naming p before => exact ⟨⟨List.Subset.trans h.1.1 (names_grow hdir), h.1.2⟩, h.2.mono hdir⟩
  | putting p scheme => exact ⟨h.1, h.2.mono hdir⟩
  | rebasing id change base made attempt before => exact ⟨hdir.subset h.1, h.2⟩

end Mono

/-! ### The versions that are put -/

theorem buildVersion_version {request : VersionRequest}
    (h : buildVersion version prior request = .ok m) : m.version = version := by
  simp only [buildVersion, bind_eq_ok, pure_eq_ok] at h
  rcases h with ⟨_, _, added, _, rfl⟩
  -- Whatever the mode carries over, the number is the one given.
  show (carriedOver version prior _ request).version = version
  unfold carriedOver
  grind

theorem checkDataFileVersions_version {written : Manifest}
    (h : checkDataFileVersions m = .ok written) : written.version = m.version := by
  unfold checkDataFileVersions at h
  grind

theorem rebaseOnto_version {base latest : VersionFile} {made rebased : Change}
    {affected : Option (Nat → List Nat)}
    (h : rebaseOnto setup dir base made affected latest = .ok rebased) :
    rebased.next.version = latest.name.version + 1 := by
  grind [rebaseOnto, bind_eq_ok, pure_eq_ok]

theorem loadReadVersion_ok {change : NextChange} (h : loadReadVersion dir change seen = .ok f) :
    f ∈ dir := by
  unfold loadReadVersion at h
  split at h
  · exact (loadLatest_ok h).1
  · exact (loadVersion_ok h).1

section Turns

variable {clock : Nat}

theorem id_mem_tokens (h : phase.id? = some id) :
    id ∈ phase.tokens := by
  cases phase with
  | idle => cases h
  | _ => rw [← Option.some.inj h]; exact .head _

theorem failed_advanced (hid : id ∈ phase.tokens) :
    Advanced setup first v2 dir clock phase (failed id) where
  phase := trivial
  tokens := fun t ht => absurd ht not_mem_nil
  put := fun _ h => nomatch h
  returns := by grind [failed]

/-- A turn that only moves the writer on. -/
theorem moved_advanced {next : Phase} (hnext : PhaseOk setup first v2 dir next)
    (htokens : ∀ t ∈ next.tokens, t ∈ phase.tokens ∨ t = clock) :
    Advanced setup first v2 dir clock phase { phase := next } where
  phase := hnext
  tokens := htokens
  put := fun _ h => nomatch h
  returns := fun _ _ h => nomatch h

theorem builtChange_ok {request : VersionRequest} {change : Change}
    (h : builtChange version prior request = .ok change) :
    buildVersion version prior request = .ok change.next := by
  grind [builtChange, bind_eq_ok, pure_eq_ok, writtenAs]

theorem reading_prepared (request : VersionRequest) (hfirst : first ≤ version)
    (hversion : version ≤ latestSeen before + 1) (hsub : before ⊆ seen) (job : Job)
    (change : Change) (written : Manifest)
    (hmade : buildOnLatest dir request version seen = .ok (job, change))
    (hcheck : checkDataFileVersions change.next = .ok written) :
    Prepared setup first dir job written := by
  simp only [buildOnLatest, bind_eq_ok, pure_eq_ok, Prod.mk.injEq] at hmade
  rcases hmade with ⟨prior, hprior, built, hbuilt, rfl, rfl⟩
  rcases loadLatest_ok hprior with ⟨hmem, hlatest⟩
  have hbuild := builtChange_ok hbuilt
  have hnumber : written.version = version :=
    (checkDataFileVersions_version hcheck).trans (buildVersion_version hbuild)
  have hle := latestSeen_mono hsub
  refine ⟨.inr ⟨prior, hmem, by omega, by omega, fun _ => ?_⟩, trivial⟩
  rw [hnumber]
  exact ⟨_, hbuild, hcheck⟩

variable (hlog : WellFormedLog first v2 dir)

include hlog

/-- Where no file is, a prepared manifest is the next version, and is computed from the last. -/
theorem put_next (p : Pending) (hp : Prepared setup first dir p.job p.change.next)
    (hfree : fileNamed dir ⟨v2, p.change.next.version⟩ = none) :
    p.change.next.version = first + dir.length ∧
      (2 ≤ p.change.next.version → ∃ prior ∈ dir,
        prior.name.version + 1 = p.change.next.version ∧
        Computed setup dir p.job.request prior p.change.next.version p.change.next) := by
  rw [fileNamed_eq_none, hlog.mem_names] at hfree
  have houtside : ¬ (first ≤ p.change.next.version ∧
      p.change.next.version < first + dir.length) := fun h => hfree ⟨rfl, h⟩
  rcases hp.1 with ⟨hone, hfirst⟩ | ⟨prior, hprior, hfirst, hle, hmade⟩
  · exact ⟨by omega, fun htwo => by omega⟩
  · have hlast := (hlog.name_mem prior hprior).2
    grind

/-- The names there now, for a listing that begins now. -/
theorem listed_now : Listed first v2 dir (names dir) :=
  ⟨List.Subset.refl _, fun hnil => hlog.fresh (map_eq_nil_iff.mp hnil)⟩

/-- A change that could be made for a version is ready to be put. -/
theorem publishMade_advanced (attempt : Nat) (hid : id ∈ phase.tokens)
    {made : Except String (Job × Change)}
    (hmade : ∀ job change written, made = .ok (job, change) → checkDataFileVersions change.next =
      .ok written → Prepared setup first dir job written) :
    Advanced setup first v2 dir clock phase
      (publishMade setup dir clock id attempt made) := by
  cases made with
  | error e => exact failed_advanced hid
  | ok out =>
    rcases out with ⟨job, change⟩
    simp only [publishMade, startPublish]
    cases hcheck : checkDataFileVersions change.next with
    | error e => exact failed_advanced hid
    | ok written =>
      simp only []
      cases transactionOperation setup.codec dir { change with next := written } with
      | error e => exact failed_advanced hid
      | ok operation =>
        refine moved_advanced ⟨listed_now hlog, hmade job change written rfl hcheck⟩ ?_
        grind [Phase.tokens]

theorem numbered_advanced (id : Nat) (request : VersionRequest) (attempt : Nat)
    (hbefore : Listed first v2 dir before) (hsub : before ⊆ seen) (hseen : seen ⊆ names dir) :
    Advanced setup first v2 dir clock (.numbering id request attempt before)
      (numbered setup dir clock id request attempt seen) := by
  unfold numbered
  by_cases hzero : latestSeen seen = 0
  · -- Nothing was there: the first version, built on nothing.
    rw [if_neg (by omega)]
    refine publishMade_advanced hlog attempt (.head _) ?_
    intro job change written hmade hcheck
    simp only [buildFirst, bind_eq_ok, pure_eq_ok, Prod.mk.injEq] at hmade
    rcases hmade with ⟨built, hbuilt, rfl, rfl⟩
    rw [hlog.seen_nil seen hseen hzero, subset_nil] at hsub
    have hversion : written.version = latestSeen seen + 1 :=
      (checkDataFileVersions_version hcheck).trans (buildVersion_version (builtChange_ok hbuilt))
    exact ⟨.inl ⟨by omega, (hbefore.2 hsub).1⟩, trivial⟩
  · rw [if_pos (by omega)]
    rcases latestSeen_mem hzero with ⟨name, hname, hversion⟩
    have hfirst := ((hlog.mem_names name).mp (hseen hname)).2.1
    have hle := latestSeen_mono hseen
    exact moved_advanced ⟨List.Subset.refl _, by omega, by omega⟩ (fun t ht => .inl ht)

theorem opening_prepared (change : NextChange) (seen : List ManifestName) (job : Job)
    (made : Change) (written : Manifest) (hmade : makeChange dir change seen = .ok (job, made))
    (hcheck : checkDataFileVersions made.next = .ok written) :
    Prepared setup first dir job written := by
  simp only [makeChange, bind_eq_ok, pure_eq_ok, Prod.mk.injEq] at hmade
  rcases hmade with ⟨base, hbase, raw, hraw, rfl, rfl⟩
  have hmem := loadReadVersion_ok hbase
  have hnumber : written.version = base.manifest.version + 1 :=
    checkDataFileVersions_version hcheck
  have hname := hlog.version base hmem
  have hfirst := (hlog.name_mem base hmem).1
  refine ⟨.inr ⟨base, hmem, by omega, by omega, fun _ => ?_⟩, hmem, raw, hraw, rfl⟩
  exact .inl ⟨raw, hraw, hcheck⟩

theorem rebasing_prepared (change : NextChange) (base : VersionFile) (made : Change)
    (hbase : base ∈ dir)
    (hraw : ∃ raw, change.make base.manifest = .ok raw ∧ made = afterRead base raw)
    (seen : List ManifestName) (job : Job) (rebased : Change) (written : Manifest)
    (hmade : rebaseOnLatest setup dir change base made seen = .ok (job, rebased))
    (hcheck : checkDataFileVersions rebased.next = .ok written) :
    Prepared setup first dir job written := by
  simp only [rebaseOnLatest, bind_eq_ok, pure_eq_ok, Prod.mk.injEq] at hmade
  rcases hmade with ⟨latest, hlatest, out, hout, rfl, rfl⟩
  have hmem := (loadLatest_ok hlatest).1
  have hnumber : written.version = latest.name.version + 1 :=
    (checkDataFileVersions_version hcheck).trans (rebaseOnto_version hout)
  have hfirst := (hlog.name_mem latest hmem).1
  refine ⟨.inr ⟨latest, hmem, by omega, by omega, fun _ => ?_⟩, hbase, hraw⟩
  rcases hraw with ⟨raw, hraw, rfl⟩
  exact .inr ⟨dir, base, raw, out, prefix_refl dir, hbase, hmem, hraw, hout, hcheck⟩

/-- A listing returns. -/
theorem listed_advanced (hphase : PhaseOk setup first v2 dir phase) (hsub : phase.before ⊆ seen)
    (hseen : seen ⊆ names dir) :
    Advanced setup first v2 dir clock phase (listed setup dir clock seen phase) := by
  cases phase with
  | idle => exact moved_advanced hphase (fun t ht => .inl ht)
  | putting p scheme => exact moved_advanced hphase (fun t ht => .inl ht)
  | numbering id request attempt before =>
    exact numbered_advanced hlog id request attempt hphase hsub hseen
  | reading id request attempt version before =>
    refine publishMade_advanced hlog attempt (.head _) ?_
    exact reading_prepared request hphase.2.1 hphase.2.2 hsub
  | opening id change before =>
    refine publishMade_advanced hlog 0 (.head _) ?_
    exact opening_prepared hlog change seen
  | naming p before =>
    refine moved_advanced ⟨?_, hphase.2⟩ (fun t ht => .inl ht)
    exact hlog.scheme before seen hphase.1 hsub hseen
  | rebasing id change base made attempt before =>
    refine publishMade_advanced hlog _ (.head _) ?_
    exact rebasing_prepared hlog change base made hphase.1 hphase.2 seen

section

variable (p : Pending)
  (hp : Prepared setup first dir p.job p.change.next)

include hp

/-- A call whose version was taken starts over, or ends. -/
theorem onConflict_advanced (scheme : Bool) :
    Advanced setup first v2 dir clock (.putting p scheme) (onConflict setup dir p) := by
  have hfailed : Advanced setup first v2 dir clock (.putting p scheme) (failed p.id) :=
    failed_advanced (.head _)
  have howned : ∀ t ∈ [p.id], t ∈ (Phase.putting p scheme).tokens ∨ t = clock := by
    intro t ht
    rw [mem_singleton.mp ht]
    exact .inl (.head _)
  unfold onConflict
  cases hjob : p.job with
  | write request =>
    simp only []
    split
    · exact hfailed
    · exact moved_advanced (listed_now hlog) howned
  | next change base made =>
    simp only []
    split
    · exact hfailed
    · rw [hjob] at hp
      exact moved_advanced hp.2 howned

/-- The file a writer puts where none is, whatever its call returns. -/
theorem made_advanced (hfree : fileNamed dir ⟨v2, p.change.next.version⟩ = none)
    (result : Option Nat)
    (hresult : ∀ version, result = some version → version = p.change.next.version) :
    Advanced setup first v2 dir clock (.putting p v2)
      { phase := .idle, put := some (pendingFile p v2), returns := some (p.id, result) } where
  phase := trivial
  tokens := fun t ht => absurd ht not_mem_nil
  put := by
    intro f hf
    rw [Option.some.injEq] at hf
    rw [← hf]
    rcases put_next hlog p hp hfree with ⟨hnext, hcomputed⟩
    refine ⟨rfl, ?_, ?_, rfl, _, rfl, hcomputed⟩
    · intro t ht
      simp only [VersionFile.tokens, pendingFile, Option.map_some, Option.toList_some,
        mem_cons, not_mem_nil, or_false] at ht
      rcases ht with rfl | rfl
      · exact .tail _ (.head _)
      · exact .head _
    · rw [← hnext]
      rfl
  returns := by
    intro id out h
    simp only [Option.some.injEq, Prod.mk.injEq] at h
    rcases h with ⟨rfl, rfl⟩
    refine ⟨rfl, mem_cons_self, fun version hversion => ?_⟩
    exact ⟨_, rfl, (hresult version hversion).symm, rfl⟩

/-- A put makes the next version, or finds another writer's. -/
theorem putVersion_advanced (hfresh : ∀ f ∈ dir, f.transaction ≠ p.transaction) (result : PutResult) :
    Advanced setup first v2 dir clock (.putting p v2) (putVersion setup dir p v2 result) := by
  have hfailed : Advanced setup first v2 dir clock (.putting p v2) (failed p.id) :=
    failed_advanced (.head _)
  cases hthere : fileNamed dir ⟨v2, p.change.next.version⟩ with
  | none =>
    have hmade : Advanced setup first v2 dir clock (.putting p v2)
        (succeeded p (some (pendingFile p v2))) :=
      made_advanced hlog p hp hthere _ (fun version h => (Option.some.inj h).symm)
    cases result with
    | answered =>
      simp only [putVersion, hthere]
      exact hmade
    | lost =>
      simp only [putVersion, hthere]
      split
      · exact hmade
      · exact moved_advanced ⟨rfl, hp⟩ (fun t ht => .inl ht)
    | broken made =>
      simp only [putVersion, hthere]
      cases made with
      | false => exact hfailed
      | true =>
        exact made_advanced hlog p hp hthere none
          nofun
  | some there =>
    -- The file is another's: nobody else has this writer's transaction.
    have hother : (setup.objectStore && decide (there.transaction = p.transaction)) = false := by
      rw [decide_eq_false (hfresh there (mem_of_fileNamed hthere).1), Bool.and_false]
    have hconflict : Advanced setup first v2 dir clock (.putting p v2) _ :=
      onConflict_advanced hlog p hp v2
    cases result with
    | answered => simp [putVersion, hthere, hother, hconflict]
    | lost => simp [putVersion, hthere, hother, hconflict]
    | broken made =>
      simp only [putVersion, hthere]
      exact hfailed

end

/-- What a writer's turn does, in a phase it may be in and with tokens of its own. -/
theorem advance_spec (clock : Nat) (hphase : PhaseOk setup first v2 dir phase)
    (hfresh : ∀ t ∈ phase.tokens, ∀ f ∈ dir, t ∉ f.tokens) (event : Event) :
    Advanced setup first v2 dir clock phase (advance setup dir clock phase event) := by
  have hstay : Advanced setup first v2 dir clock phase { phase := phase } :=
    moved_advanced hphase (fun t ht => .inl ht)
  cases event with
  | call request =>
    cases phase with
    | idle =>
      have hcalled : ∀ t ∈ [clock], t ∈ Phase.idle.tokens ∨ t = clock :=
        fun t ht => .inr (mem_singleton.mp ht)
      cases request with
      | write request => exact moved_advanced (listed_now hlog) hcalled
      | next change => exact moved_advanced trivial hcalled
    | _ => exact hstay
  | saw seen =>
    simp only [advance]
    split
    · next hsees =>
      rcases (sees_iff dir phase.before seen).mp hsees with ⟨hsub, hseen⟩
      exact listed_advanced hlog hphase hsub hseen
    · exact hstay
  | put result =>
    cases phase with
    | putting p scheme =>
      rcases hphase with ⟨rfl, hp⟩
      refine putVersion_advanced hlog p hp (fun f hf heq => ?_) result
      refine hfresh p.transaction (.tail _ (.head _)) f hf ?_
      rw [← heq]
      exact .head _
    | _ => exact hstay
  | fail =>
    simp only [advance]
    split
    · next id hid => exact failed_advanced (id_mem_tokens hid)
    · exact hstay

end Turns

/-! ### Whole runs -/

/-- The versions a call has published. -/
def published (dir : Directory) (id : Nat) : List Nat :=
  (dir.filter (fun f => f.origin.map (·.id) = some id)).map (·.name.version)

/-- From one state to a later one a call publishes nothing or, before it returns, its only
    version. -/
def PublishesOnce (id : Nat) (s t : State) : Prop :=
  published t.dir id = published s.dir id ∨
    published s.dir id = [] ∧ (published t.dir id).length = 1 ∧ ∀ r ∈ s.returned, r.1 ≠ id

/-- What holds between turns. -/
structure Sound (setup : Setup) (first : Nat) (v2 : Bool) (dir₀ : Directory) (s : State) :
    Prop where
  log : WellFormedLog first v2 s.dir
  phases : ∀ writer, PhaseOk setup first v2 s.dir (s.phases writer)
  chain : ∀ f ∈ s.dir, f ∈ dir₀ ∨ ∃ call, f.origin = some call ∧
    (2 ≤ f.name.version → ∃ prior ∈ s.dir, prior.name.version + 1 = f.name.version ∧
      Computed setup s.dir call.request prior f.name.version f.manifest)
  owned : ∀ writer, ∀ t ∈ (s.phases writer).tokens, t < s.clock ∧ (∀ f ∈ s.dir, t ∉ f.tokens) ∧
    (∀ r ∈ s.returned, r.1 ≠ t) ∧ ∀ other, t ∈ (s.phases other).tokens → other = writer
  used : (∀ f ∈ s.dir, ∀ t ∈ f.tokens, t < s.clock) ∧ ∀ r ∈ s.returned, r.1 < s.clock
  returned : ∀ id version, (id, some version) ∈ s.returned → published s.dir id = [version]

/-- The log with the file of a turn at its end. -/
theorem WellFormedLog.append (hlog : WellFormedLog first v2 dir) (f : VersionFile)
    (hname : f.name = ⟨v2, first + dir.length⟩) (hversion : f.manifest.version = f.name.version) :
    WellFormedLog first v2 (dir ++ [f]) where
  names := by
    have hold : dir.map (·.name) = _ := hlog.names
    rw [VersionLog.names, map_append, hold, length_append, length_singleton,
      range'_concat, map_append, map_singleton, map_singleton, hname,
      Nat.one_mul]
  positive := hlog.positive
  fresh := fun hnil => absurd hnil (by simp)
  version := by
    intro g hg
    rcases mem_append.mp hg with hg | hg
    · exact hlog.version g hg
    · grind

theorem published_append (dir : Directory) (f : VersionFile) (id : Nat) :
    published (dir ++ [f]) id =
      published dir id ++ if f.origin.map (·.id) = some id then [f.name.version] else [] := by
  rw [published, filter_append, map_append, filter_singleton]
  by_cases h : f.origin.map (·.id) = some id
  · simp only [h, decide_true, if_true]
    rfl
  · simp only [h, decide_false, if_false]
    rfl

theorem origin_mem_tokens (h : f.origin.map (·.id) = some id) :
    id ∈ f.tokens := by simp [VersionFile.tokens, h]

/-- A token that no file shows has published nothing. -/
theorem published_nil (h : ∀ f ∈ dir, id ∉ f.tokens) :
    published dir id = [] := by
  rw [published, map_eq_nil_iff, filter_eq_nil_iff]
  intro f hf horigin
  exact h f hf (origin_mem_tokens (of_decide_eq_true horigin))

section Step

variable {dir₀ : Directory} {s : State}

section

variable (h : Sound setup first v2 dir₀ s) (writer : Nat) (e : Effect)
  (he : Advanced setup first v2 s.dir s.clock (s.phases writer) e)

include h he

/-- The tokens of the writers after a turn. -/
theorem Sound.owned_step :
    ∀ other, ∀ t ∈ (if other = writer then e.phase else s.phases other).tokens,
      t < s.clock + 1 ∧ (∀ f ∈ s.dir ++ e.put.toList, t ∉ f.tokens) ∧
      (∀ r ∈ s.returned ++ e.returns.toList, r.1 ≠ t) ∧
      ∀ third, t ∈ (if third = writer then e.phase else s.phases third).tokens → third = other := by
  intro other t ht
  by_cases hself : other = writer
  · subst hself
    rw [if_pos rfl] at ht
    -- A writer that has made a file or returned owns nothing any more.
    have hbusy : e.phase ≠ .idle := fun hidle => by
      rw [hidle] at ht
      exact not_mem_nil ht
    have hput : e.put = none := Option.eq_none_iff_forall_ne_some.mpr
      (fun f hf => hbusy (he.put f hf).1)
    have hreturns : e.returns = none := Option.eq_none_iff_forall_ne_some.mpr
      (fun r hr => hbusy (he.returns r.1 r.2 hr).1)
    rw [hput, hreturns, Option.toList_none, Option.toList_none, append_nil, append_nil]
    rcases he.tokens t ht with hold | rfl
    · rcases h.owned other t hold with ⟨hlt, hfiles, hreturned, hothers⟩
      grind
    · refine ⟨by omega, fun f hf hft => ?_, fun r hr hrt => ?_, fun third hthird => ?_⟩
      · exact absurd (h.used.1 f hf s.clock hft) (lt_irrefl _)
      · exact absurd (h.used.2 r hr) (by omega)
      · by_cases hsame : third = other
        · exact hsame
        · rw [if_neg hsame] at hthird
          exact absurd (h.owned third s.clock hthird).1 (lt_irrefl _)
  · rw [if_neg hself] at ht
    rcases h.owned other t ht with ⟨hlt, hfiles, hreturned, hothers⟩
    have hnot : t ∉ (s.phases writer).tokens := fun hmem => hself (hothers writer hmem).symm
    refine ⟨by omega, fun f hf => ?_, fun r hr => ?_, fun third hthird => ?_⟩
    · rcases mem_append.mp hf with hf | hf
      · exact hfiles f hf
      · exact fun hft => hnot ((he.put f (Option.mem_toList.mp hf)).2.1 t hft)
    · rcases mem_append.mp hr with hr | hr
      · exact hreturned r hr
      · rintro rfl
        exact hnot (he.returns r.1 r.2 (Option.mem_toList.mp hr)).2.1
    · by_cases hsame : third = writer
      · rw [if_pos hsame] at hthird
        rcases he.tokens t hthird with hold | rfl
        · exact absurd hold hnot
        · exact absurd hlt (lt_irrefl _)
      · grind

/-- A call that returned has published one version, and publishes no other. -/
theorem Sound.returned_step :
    ∀ id version, (id, some version) ∈ s.returned ++ e.returns.toList →
      published (s.dir ++ e.put.toList) id = [version] := by
  intro id version hmem
  rcases mem_append.mp hmem with hold | hnew
  · cases hput : e.put with
    | none =>
      rw [Option.toList_none, append_nil]
      exact h.returned id version hold
    | some f =>
      have hother : ¬ f.origin.map (·.id) = some id := fun horigin =>
        (h.owned writer id ((he.put f hput).2.1 id (origin_mem_tokens horigin))).2.2.1 _ hold rfl
      rw [Option.toList_some, published_append, if_neg hother, append_nil]
      exact h.returned id version hold
  · rcases he.returns id (some version) (Option.mem_toList.mp hnew) with ⟨_, howned, hfile⟩
    rcases hfile version rfl with ⟨f, hput, hversion, horigin⟩
    rw [hput, Option.toList_some, published_append, if_pos horigin, hversion,
      published_nil (h.owned writer id howned).2.1, nil_append]

end

/-- A turn keeps the invariant. -/
theorem step_sound (h : Sound setup first v2 dir₀ s) (turn : Nat × Event) :
    Sound setup first v2 dir₀ (step setup s turn) := by
  rcases turn with ⟨writer, event⟩
  have he := advance_spec h.log s.clock (h.phases writer)
    (fun t ht => (h.owned writer t ht).2.1) event
  generalize hadvance : advance setup s.dir s.clock (s.phases writer) event = e at he
  have hstep : step setup s (writer, event) =
      { dir := s.dir ++ e.put.toList
        phases := fun other => if other = writer then e.phase else s.phases other
        clock := s.clock + 1
        returned := s.returned ++ e.returns.toList } := by
    rw [step, hadvance]
  rw [hstep]
  have hgrows : s.dir <+: s.dir ++ e.put.toList := prefix_append _ _
  refine ⟨?_, ?_, ?_, h.owned_step writer e he, ⟨?_, ?_⟩, h.returned_step writer e he⟩
  · cases hput : e.put with
    | none =>
      rw [Option.toList_none, append_nil]
      exact h.log
    | some f =>
      rcases he.put f hput with ⟨_, _, hname, hversion, _⟩
      exact h.log.append f hname hversion
  · intro other
    by_cases hself : other = writer
    · simp only [hself, if_true]
      exact he.phase.mono hgrows
    · simp only [hself, if_false]
      exact (h.phases other).mono hgrows
  · intro f hf
    rcases mem_append.mp hf with hf | hf
    · rcases h.chain f hf with hinit | ⟨call, hcall, hchain⟩
      · exact .inl hinit
      · refine .inr ⟨call, hcall, fun htwo => ?_⟩
        rcases hchain htwo with ⟨prior, hprior, heq, hcomputed⟩
        exact ⟨prior, hgrows.subset hprior, heq, hcomputed.mono hgrows⟩
    · rcases he.put f (Option.mem_toList.mp hf) with ⟨_, _, _, _, call, hcall, hchain⟩
      refine .inr ⟨call, hcall, fun htwo => ?_⟩
      rcases hchain htwo with ⟨prior, hprior, heq, hcomputed⟩
      exact ⟨prior, hgrows.subset hprior, heq, hcomputed.mono hgrows⟩
  · intro f hf t ht
    show t < s.clock + 1
    rcases mem_append.mp hf with hf | hf
    · have := h.used.1 f hf t ht
      omega
    · have := (h.owned writer t ((he.put f (Option.mem_toList.mp hf)).2.1 t ht)).1
      omega
  · intro r hr
    show r.1 < s.clock + 1
    rcases mem_append.mp hr with hr | hr
    · have := h.used.2 r hr
      omega
    · have := (h.owned writer r.1 (he.returns r.1 r.2 (Option.mem_toList.mp hr)).2.1).1
      omega

theorem step_publishesOnce (h : Sound setup first v2 dir₀ s) (turn : Nat × Event) :
    PublishesOnce id s (step setup s turn) := by
  have he := advance_spec h.log s.clock (h.phases turn.1)
    (fun t ht => (h.owned turn.1 t ht).2.1) turn.2
  rw [PublishesOnce, step]
  cases hput : (advance setup s.dir s.clock (s.phases turn.1) turn.2).put with
  | none => exact .inl (by rw [Option.toList_none, append_nil])
  | some f =>
    rw [Option.toList_some, published_append]
    by_cases horigin : f.origin.map (·.id) = some id
    · have howned := h.owned turn.1 id ((he.put f hput).2.1 id (origin_mem_tokens horigin))
      rw [if_pos horigin, published_nil howned.2.1]
      exact .inr ⟨rfl, rfl, howned.2.2.1⟩
    · exact .inl (by rw [if_neg horigin, append_nil])

theorem run_sound (schedule : List (Nat × Event)) (h : Sound setup first v2 dir₀ s) :
    Sound setup first v2 dir₀ (run setup s schedule) := by
  induction schedule generalizing s with
  | nil => exact h
  | cons turn rest ih => exact ih (step_sound h turn)

end Step

/-- Versions are only ever added. -/
theorem run_grows (setup : Setup) (schedule : List (Nat × Event)) (s : State) :
    s.dir <+: (run setup s schedule).dir := by
  induction schedule generalizing s with
  | nil => exact prefix_refl _
  | cons turn rest ih => exact (prefix_append _ _).trans (ih (step setup s turn))

theorem start_sound (setup : Setup) (hlog : WellFormedLog first v2 dir)
    (hforeign : ∀ f ∈ dir, f.origin = none) :
    Sound setup first v2 dir (start dir) where
  log := hlog
  phases := fun _ => trivial
  chain := fun f hf => .inl hf
  owned := fun writer t ht => absurd ht not_mem_nil
  used := by
    refine ⟨fun f hf t ht => ?_, nofun⟩
    rw [VersionFile.tokens, hforeign f hf] at ht
    rw [mem_singleton.mp ht]
    exact (le_foldl_max (fun f : VersionFile => f.transaction + 1) dir 0).2 f hf
  returned := nofun

/-- The version log is a chain whatever the interleaving. From a directory of one
    naming scheme without gaps, and for every schedule of the writers' turns:
    a version that was not there at the start is of a call, and unless it is the
    first one it was computed from the version before it, which is there; the
    numbers are one after the other, and whatever happens later every version
    stays as it is; and a call that returned success has published one version,
    the one it returned. -/
theorem version_log_chain (setup : Setup) (first : Nat) (v2 : Bool) (dir : Directory)
    (hlog : WellFormedLog first v2 dir) (hforeign : ∀ f ∈ dir, f.origin = none)
    (schedule : List (Nat × Event)) :
    (∀ f ∈ (run setup (start dir) schedule).dir, f ∈ dir ∨ ∃ call, f.origin = some call ∧
      (2 ≤ f.name.version → ∃ prior ∈ (run setup (start dir) schedule).dir,
        prior.name.version + 1 = f.name.version ∧
        Computed setup (run setup (start dir) schedule).dir call.request prior f.name.version
          f.manifest)) ∧
    ((run setup (start dir) schedule).dir.map (·.name.version) =
        List.range' first (run setup (start dir) schedule).dir.length ∧
      ∀ later, (run setup (start dir) schedule).dir <+:
        (run setup (start dir) (schedule ++ later)).dir) ∧
    ∀ id version, (id, some version) ∈ (run setup (start dir) schedule).returned →
      published (run setup (start dir) schedule).dir id = [version] := by
  have hsound := run_sound schedule (start_sound setup hlog hforeign)
  refine ⟨hsound.chain, ⟨?_, fun later => ?_⟩, hsound.returned⟩
  · have hnames := congrArg (List.map (·.version)) hsound.log.names
    rw [names, map_map, map_map] at hnames
    exact hnames.trans (map_id _)
  · rw [run, run, foldl_append]
    exact run_grows setup later _

/-- A local dataset with nothing to read or merge. -/
def plainSetup : Setup :=
  { codec := tableCodec []
    deletions := { rows := fun _ _ _ => .ok [], put := fun _ _ _ => .ok 0 } }

def emptyAppend : VersionRequest := { mapping := [], fragments := [], mode := .createOrAppend }

/-- Two writers both see an empty directory. The second finds its version taken
    and appends to it. -/
def twoWriters : List (Nat × Event) :=
  [(0, .call (.write emptyAppend)), (1, .call (.write emptyAppend)),
   (0, .saw []), (1, .saw []), (0, .saw []), (1, .saw []),
   (0, .put .answered), (1, .put .answered),
   (1, .saw [⟨true, 1⟩]), (1, .saw [⟨true, 1⟩]), (1, .saw [⟨true, 1⟩]), (1, .put .answered)]

theorem version_log_chain_twoWriters :
    WellFormedLog 1 true [] ∧
    (run plainSetup (start []) twoWriters).returned = [(0, some 1), (1, some 2)] ∧
    published (run plainSetup (start []) twoWriters).dir 0 = [1] ∧
    published (run plainSetup (start []) twoWriters).dir 1 = [2] := by
  have hlog : WellFormedLog 1 true [] :=
    ⟨rfl, le_refl _, fun _ => ⟨rfl, rfl⟩, forall_mem_nil _⟩
  have hreturned : (run plainSetup (start []) twoWriters).returned = [(0, some 1), (1, some 2)] := by
    decide
  have hchain := version_log_chain plainSetup 1 true [] hlog
    (fun f hf => absurd hf not_mem_nil) twoWriters
  refine ⟨hlog, hreturned, hchain.2.2 0 1 ?_, hchain.2.2 1 2 ?_⟩ <;> rw [hreturned] <;> decide

/-- **No call publishes twice**, whether it returns success, failure or nothing at all. -/
theorem calls_publish_once (setup : Setup) (first : Nat) (v2 : Bool) (dir : Directory)
    (hlog : WellFormedLog first v2 dir) (hforeign : ∀ f ∈ dir, f.origin = none)
    (schedule later : List (Nat × Event)) (id : Nat) :
    PublishesOnce id (run setup (start dir) schedule)
      (run setup (start dir) (schedule ++ later)) := by
  have hsound := run_sound schedule (start_sound setup hlog hforeign)
  unfold run at *
  rw [foldl_append]
  generalize schedule.foldl (step setup) (start dir) = s at *
  induction later generalizing s with
  | nil => exact .inl rfl
  | cons turn rest ih =>
    have hstep : PublishesOnce id s _ := step_publishesOnce hsound turn
    have hrest := ih _ (step_sound hsound turn)
    have hreturned : s.returned ⊆ (step setup s turn).returned := subset_append_left _ _
    rw [foldl_cons]
    unfold PublishesOnce at *
    grind

theorem calls_publish_once_twoWriters :
    PublishesOnce 1 (start []) (run plainSetup (start []) twoWriters) :=
  calls_publish_once plainSetup 1 true [] ⟨rfl, le_refl _, fun _ => ⟨rfl, rfl⟩, forall_mem_nil _⟩
    (forall_mem_nil _) [] twoWriters 1

end VersionLog

end NanoLance
