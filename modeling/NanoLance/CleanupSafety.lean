import NanoLance.Cleanup

/-!
# What a Cleanup Leaves Readable

A cleanup must remove no file that a version left in place opens, and none that
a branch forked from this directory opens here. The names it collects from the
manifests that stay cover the data files, the deletion files and the indices:
`removable_data_iff`, `spare_deletion` and `spare_index` say that a file under
such a name is never removed. A branch keeps the version it forks from
(`fork_version_kept`), which names whatever the branch uses here.

The overlays of a fragment are files of the data directory that no manifest
names as data files, so they are judged as files nobody uses. They survive
exactly while something else keeps them: a name shared with a data file, the
listing cutoff, or their age.

## Theorems

* `cleanup_safe_iff`: A cleanup is safe exactly when the overlays are spared.
* `overlay_file_removed`: An overlay of the latest version is removed.
-/

namespace NanoLance

open List Lib

/-- The manifests of the directory that can be read. -/
def DatasetDir.loaded (ds : DatasetDir) : List LoadedVersion :=
  ds.versions.filterMap (fun e =>
    if (parseManifestVersion e.name).isNone && !isDetached e.name then none
    else
      match e.manifest with
      | .error _ => none
      | .ok m => some ⟨e.name, e.size, parseManifestVersion e.name, m⟩)

/-- Every name `a` has is one `b` has. -/
structure ReferencedFiles.Sub (a b : ReferencedFiles) : Prop where
  data : ∀ p ∈ a.dataPaths, p ∈ b.dataPaths
  deletions : ∀ p ∈ a.deletePaths, p ∈ b.deletePaths
  indices : ∀ p ∈ a.indexUuids, p ∈ b.indexUuids

theorem ReferencedFiles.Sub.trans {a b c : ReferencedFiles} (hab : a.Sub b) (hbc : b.Sub c) :
    a.Sub c :=
  ⟨fun p hp => hbc.data p (hab.data p hp), fun p hp => hbc.deletions p (hab.deletions p hp),
    fun p hp => hbc.indices p (hab.indices p hp)⟩

theorem ReferencedFiles.sub_of_isEmpty (a b : ReferencedFiles) (h : a.isEmpty = true) : a.Sub b := by
  rw [ReferencedFiles.isEmpty, Bool.and_eq_true, Bool.and_eq_true, List.isEmpty_iff,
    List.isEmpty_iff, List.isEmpty_iff] at h
  rcases h with ⟨⟨hdata, hdel⟩, hidx⟩
  refine ⟨fun p hp => ?_, fun p hp => ?_, fun p hp => ?_⟩
  · grind
  · grind
  · grind

/-- A directory as writers leave it: a listing repeats no name, data files are stored under bare
    names, and what a branch names here is what the version it forks from names, which a fork copies
    and no later commit of the branch adds to. -/
structure WellFormed (ds : DatasetDir) : Prop where
  distinct : (ds.versions.map (·.name)).Nodup
  bare : ∀ e ∈ ds.versions, ∀ m, e.manifest = .ok m → ∀ f ∈ m.fragments,
    (∀ file ∈ f.files, '/' ∉ file.path.toList) ∧
      ∀ o, OverlayMessage.decoded o ∈ f.overlays → '/' ∉ o.dataFile.path.toList
  lineage : ∀ forks, forkedBranches ds = .ok forks → ∀ fork ∈ forks,
    ∀ e ∈ fork.branch.versions, ∀ m, e.manifest = .ok m → (namedHere ds m).isEmpty = false →
      ∃ entry base, manifestFileOf ds fork.version = some entry ∧ entry.manifest = .ok base ∧
        (namedHere ds m).Sub (reference base {})

/-- No file removed is one that a version left in place opens, or a version on a branch forked from
    here. -/
structure CleanupSafe (ds : DatasetDir) (result : CleanupResult) : Prop where
  manifests : ∀ v ∈ ds.loaded, "_versions/" ++ v.name ∉ result.manifests.map (·.path) →
    "_versions/" ++ v.name ∉ result.removed
  own : ∀ v ∈ ds.loaded, "_versions/" ++ v.name ∉ result.manifests.map (·.path) →
    ∀ path, Opens ds true v.manifest path → path ∉ result.removed
  branches : ∀ forks, forkedBranches ds = .ok forks → ∀ fork ∈ forks,
    ∀ e ∈ fork.branch.versions, (parseManifestVersion e.name).isSome || isDetached e.name →
      ∀ m, e.manifest = .ok m → ∀ path, Opens ds false m path → path ∉ result.removed

/-- The version names a path as a data file. -/
def namesData (path : String) (v : LoadedVersion) : Bool := path ∈ (reference v.manifest {}).dataPaths

/-- A listed file that is an overlay's stays for another reason: it is no Lance file by its name, a
    fork or a version kept names it as a data file, it is newer than the listing cutoff, or it is
    young and no removed version names it. -/
def overlaySpared (policy : CleanupPolicy) (kept removed : List LoadedVersion)
    (forkPaths : List String) (file : ListedFile) : Bool :=
  !endsWith file.relative ".lance" || file.relative ∈ forkPaths ||
    kept.any (namesData file.relative) ||
    (kept.any (fun k => k.version.isSome && k.manifest.timestamp < file.modifiedNs) &&
      !removed.any (fun r => kept.any (fun k =>
        k.version.isSome && k.manifest.timestamp < r.manifest.timestamp))) ||
    (!policy.deleteUnverified && file.age < unverifiedThresholdNs &&
      !removed.any (namesData file.relative))

/-- The paths of the overlay files a manifest's fragments have. -/
def overlayPaths (m : Manifest) : List String :=
  m.fragments.flatMap (fun f => f.overlays.filterMap (fun
    | .decoded o => some (dataPath o.dataFile.path)
    | .malformed _ => none))

/-- Every listed overlay file of a version kept is spared. -/
def overlaysSpared (ds : DatasetDir) (requested : Nat) (policy : CleanupPolicy) : Bool :=
  match (do let forks ← forkedBranches ds; protectForks ds policy forks {}) with
  | .error _ => true
  | .ok protection =>
    let keep := keepVersion ds policy (resolveReadVersion ds requested) protection.versions
    let kept := ds.loaded.filter keep
    let removed := ds.loaded.filter (fun v => !keep v)
    kept.all (fun v => ds.files.all (fun file => file.relative ∉ overlayPaths v.manifest ||
      overlaySpared policy kept removed protection.files.dataPaths file))

theorem loadVersions_ok (readVersion : Nat) :
    ∀ (entries : List VersionFile) (loaded : List LoadedVersion),
      loadVersions readVersion entries = .ok loaded → loaded = entries.filterMap (fun e =>
        if (parseManifestVersion e.name).isNone && !isDetached e.name then none
        else
          match e.manifest with
          | .error _ => none
          | .ok m => some ⟨e.name, e.size, parseManifestVersion e.name, m⟩) := by
  intro entries
  induction entries with
  | nil => simp [loadVersions]
  | cons e rest ih =>
    intro loaded h
    rw [loadVersions] at h
    by_cases hname : ((parseManifestVersion e.name).isNone && !isDetached e.name) = true
    · grind
    · rw [if_neg hname] at h
      rw [filterMap_cons, if_neg hname]
      cases hm : e.manifest with
      | error err => grind
      | ok m =>
        simp only [hm, bind_eq_ok, pure_eq_ok] at h ⊢
        grind

variable (manifests : List Manifest) (init : ReferencedFiles)

/-- What versions name all together is what each of them names. -/
theorem mem_referenceAll (p : String) :
    (p ∈ (referenceAll manifests init).dataPaths ↔
        p ∈ init.dataPaths ∨ ∃ m ∈ manifests, p ∈ (reference m {}).dataPaths) ∧
      (p ∈ (referenceAll manifests init).deletePaths ↔
        p ∈ init.deletePaths ∨ ∃ m ∈ manifests, p ∈ (reference m {}).deletePaths) ∧
      (p ∈ (referenceAll manifests init).indexUuids ↔
        p ∈ init.indexUuids ∨ ∃ m ∈ manifests, p ∈ (reference m {}).indexUuids) := by
  induction manifests generalizing init with
  | nil => simp only [referenceAll, foldl_nil, not_mem_nil, false_and, exists_false,
      or_false, and_self]
  | cons m rest ih =>
    have hcons : referenceAll (m :: rest) init = referenceAll rest (reference m init) := rfl
    rcases ih (reference m init) with ⟨hdata, hdel, hidx⟩
    rw [hcons, hdata, hdel, hidx]
    simp only [reference, mem_append, nil_append, exists_mem_cons_iff, or_assoc, and_self]

/-- A manifest that is among them has all its names there. -/
theorem sub_referenceAll (m : Manifest) (hm : m ∈ manifests) :
    (reference m {}).Sub (referenceAll manifests init) :=
  ⟨fun p hp => (mem_referenceAll manifests init p).1.mpr (.inr ⟨m, hm, hp⟩),
    fun p hp => (mem_referenceAll manifests init p).2.1.mpr (.inr ⟨m, hm, hp⟩),
    fun p hp => (mem_referenceAll manifests init p).2.2.mpr (.inr ⟨m, hm, hp⟩)⟩

variable (inProgress : Bool)

theorem verdict_isSome (kept knownOld : Bool) (kind : String) :
    (verdict inProgress kept knownOld kind).isSome = true ↔
      kept = false ∧ (inProgress = false ∨ knownOld = true) := by
  cases kept <;> cases inProgress <;> cases knownOld <;> simp [verdict]

variable {name path : String} {e : VersionFile} {m : Manifest} {result : CleanupResult}
  {self : Bool} {v : LoadedVersion}

/-- When a file of the data directory is removed: one named like a data file, that nothing kept
    names, and that is old or an old version's. -/
theorem removable_data_iff (referenced verified : ReferencedFiles) (hbare : '/' ∉ name.toList) :
    (removableKind (dataPath name) inProgress referenced verified).isSome = true ↔
      endsWith (dataPath name) ".lance" = true ∧ dataPath name ∉ referenced.dataPaths ∧
        (inProgress = false ∨ dataPath name ∈ verified.dataPaths) := by
  have hdata : ∀ start : String, startsWith (dataPath name) start
      = start.toList.isPrefixOf ("data/".toList ++ name.toList) := fun start => by
    rw [startsWith, dataPath, String.toList_append]
  have hversions : startsWith (dataPath name) "_versions/" = false := by rw [hdata]; rfl
  have hindices : startsWith (dataPath name) "_indices/" = false := by rw [hdata]; rfl
  have hdeletions : startsWith (dataPath name) "_deletions/" = false := by rw [hdata]; rfl
  have htxn : startsWith (dataPath name) "_transactions/" = false := by rw [hdata]; rfl
  have hstart : startsWith (dataPath name) "data/" = true := by rw [hdata]; rfl
  have hdrop : (dataPath name).toList.drop 5 = name.toList := by
    rw [dataPath, String.toList_append]
    rfl
  rw [removableKind, if_neg (by rw [hversions]; decide), if_neg (by rw [hindices]; decide)]
  by_cases hlance : endsWith (dataPath name) ".lance" = true
  · rw [if_pos hlance, if_neg (by rw [hstart]; decide), verdict_isSome]
    simp [hlance]
  · simp [ite_self, hlance, hdrop, hbare, hstart, hdeletions, htxn]

theorem deletionPath_toList (f : DataFragment) (d : DeletionFile) :
    ∃ rest, (deletionPath f d).toList = "_deletions/".toList ++ rest := by
  unfold deletionPath
  simp

/-- A file of the deletions directory that something kept names is not removed. -/
theorem spare_deletion {p : String} {rest : List Char} {referenced : ReferencedFiles}
    (verified : ReferencedFiles) (hlist : p.toList = "_deletions/".toList ++ rest)
    (h : p ∈ referenced.deletePaths) : removableKind p inProgress referenced verified = none := by
  have hversions : startsWith p "_versions/" = false := by
    rw [startsWith, hlist]
    rfl
  have hindices : startsWith p "_indices/" = false := by
    rw [startsWith, hlist]
    rfl
  have hdata : startsWith p "data/" = false := by
    rw [startsWith, hlist]
    rfl
  have htxn : startsWith p "_transactions/" = false := by
    rw [startsWith, hlist]
    rfl
  have hverdict : ∀ old, verdict inProgress true old "deletion" = none := fun _ => rfl
  simp [removableKind, ite_self, hversions, hindices, hdata, htxn, h, hverdict]

theorem hexDigit_ne_slash (n : Nat) : hexDigit n ≠ '/' := by
  have hall : ∀ k : Fin 16, "0123456789abcdef".toList.getD k '0' ≠ '/' := by decide
  exact hall ⟨n % 16, Nat.mod_lt n (by decide)⟩

theorem uuidString_bare (uuid : Nat) : '/' ∉ (uuidString uuid).toList := by
  rw [uuidString, String.toList_ofList, mem_flatMap]
  rintro ⟨i, _, hmem⟩
  rcases mem_append.mp hmem with hdash | hhex
  · grind
  · rcases mem_cons.mp hhex with heq | hrest
    · exact hexDigit_ne_slash _ heq.symm
    · exact hexDigit_ne_slash _ (mem_singleton.mp hrest).symm

/-- A file under the directory of an index that something kept names is not removed. -/
theorem spare_index {uuid : Nat} (name : String) (inProgress : Bool)
    {referenced : ReferencedFiles} (verified : ReferencedFiles)
    (h : uuidString uuid ∈ referenced.indexUuids) :
    removableKind ("_indices/" ++ uuidString uuid ++ "/" ++ name) inProgress referenced verified
      = none := by
  have hlist : ("_indices/" ++ uuidString uuid ++ "/" ++ name).toList
      = "_indices/".toList ++ ((uuidString uuid).toList ++ '/' :: name.toList) := by simp
  have hversions : startsWith ("_indices/" ++ uuidString uuid ++ "/" ++ name) "_versions/"
      = false := by rw [startsWith, hlist]; rfl
  have hindices : startsWith ("_indices/" ++ uuidString uuid ++ "/" ++ name) "_indices/"
      = true := by rw [startsWith, hlist]; rfl
  have hdrop : ("_indices/" ++ uuidString uuid ++ "/" ++ name).toList.drop 9
      = (uuidString uuid).toList ++ '/' :: name.toList := by rw [hlist]; rfl
  have htake : ((uuidString uuid).toList ++ '/' :: name.toList).takeWhile (fun c => c ≠ '/')
      = (uuidString uuid).toList := by
    rw [takeWhile_append_of_pos (fun c hc => ?_)]
    · simp
    · exact decide_eq_true (fun heq => uuidString_bare uuid (heq ▸ hc))
  have hslash : '/' ∈ (uuidString uuid).toList ++ '/' :: name.toList :=
    mem_append_right _ (.head _)
  have hverdict : ∀ old, verdict inProgress true old "index" = none := fun _ => rfl
  rw [removableKind, if_neg (by rw [hversions]; decide), if_pos hindices]
  simp only [hdrop, htake, hslash, not_true_eq_false, if_false, String.ofList_toList, h,
    decide_true, hverdict]

/-- The file name of a manifest: a suffix of its own, after digits or a `d`. -/
theorem manifestName_shape (h : (parseManifestVersion name).isSome || isDetached name) :
    ".manifest".toList <:+ name.toList ∧
      ((∃ c ∈ "0123456789".toList, name.toList.head? = some c) ∨ "d".toList <+: name.toList) := by
  rw [Bool.or_eq_true] at h
  rcases h with hsome | hdet
  · rw [parseManifestVersion] at hsome
    simp only [Bool.or_eq_true, decide_eq_true_eq, Bool.not_eq_true'] at hsome
    split at hsome
    · exact absurd hsome (by decide)
    · rename_i hguard
      rw [not_or, not_le, Bool.not_eq_false] at hguard
      split at hsome
      · exact absurd hsome (by decide)
      · rename_i hdigits
        rw [Bool.not_eq_false, all_eq_true] at hdigits
        refine ⟨isSuffixOf_iff_suffix.mp hguard.2, .inl ?_⟩
        cases hchars : name.toList with
        | nil =>
          rw [hchars] at hguard
          exact absurd hguard.1 (by decide)
        | cons c rest =>
          have hmem : c ∈ name.toList.take (name.toList.length - ".manifest".length) := by
            rw [hchars] at hguard ⊢
            have hlt : 0 < (c :: rest).length - ".manifest".length := by
              have := hguard.1
              omega
            rw [← Nat.succ_pred_eq_of_pos hlt, take_succ_cons]
            exact .head _
          exact ⟨c, of_decide_eq_true (hdigits c hmem), rfl⟩
  · rw [isDetached, Bool.and_eq_true, Bool.and_eq_true] at hdet
    exact ⟨isSuffixOf_iff_suffix.mp hdet.2, .inr ( isPrefixOf_iff_prefix.mp hdet.1.2)⟩

/-- A manifest's file name is no temporary one's. -/
theorem spare_manifest (referenced verified : ReferencedFiles)
    (h : (parseManifestVersion name).isSome || isDetached name) :
    removableKind ("_versions/" ++ name) inProgress referenced verified = none := by
  have hlist : ("_versions/" ++ name).toList = "_versions/".toList ++ name.toList :=
    String.toList_append
  have hstart : startsWith ("_versions/" ++ name) "_versions/" = true := by
    rw [startsWith, hlist]
    rfl
  have hdrop : ("_versions/" ++ name).toList.drop 10 = name.toList := by
    rw [hlist]
    rfl
  have hnames := manifestName_shape h
  have hsuffix : ".tmp".toList.isSuffixOf name.toList = false := by
    by_contra htmp
    have hsub := suffix_of_suffix_length_le
      (isSuffixOf_iff_suffix.mp (by simpa using htmp)) hnames.1 (by decide)
    exact absurd hsub (by decide)
  have hprefix : ".tmp".toList.isPrefixOf name.toList = false := by
    by_contra htmp
    have htmp' : ".tmp".toList <+: name.toList :=
      isPrefixOf_iff_prefix.mp (by simpa using htmp)
    rcases hnames.2 with ⟨c, hc, hhead⟩ | hd
    · rcases htmp' with ⟨rest, hrest⟩
      rw [← hrest] at hhead
      have heq : some '.' = some c := hhead
      rw [Option.some.injEq] at heq
      rw [← heq] at hc
      exact absurd hc (by decide)
    · exact absurd (prefix_of_prefix_length_le hd htmp' (by decide)) (by decide)
  rw [removableKind, if_pos hstart]
  simp only [hdrop, hsuffix, hprefix, Bool.or_self, Bool.false_and, Bool.false_eq_true, if_false]

/-- A file is passed over as too new exactly when it is newer than some version kept and no version
    removed is. -/
theorem cutoffNs_any (kept removed : List Int) (t : Int) :
    (cutoffNs kept removed).any (fun cutoff => cutoff < t) = true ↔
      (∃ k ∈ kept, k < t) ∧ ¬ ∃ r ∈ removed, ∃ k ∈ kept, k < r := by
  rw [cutoffNs]
  cases hmin : kept.min? with
  | none => grind
  | some earliest =>
    rw [min?_eq_some_iff] at hmin
    have hnewer : removed.max?.any (fun latest => earliest < latest) = true ↔
        ∃ r ∈ removed, ∃ k ∈ kept, k < r := by
      cases hmax : removed.max? with
      | none => grind
      | some latest =>
        rw [max?_eq_some_iff] at hmax
        grind
    by_cases hany : removed.max?.any (fun latest => earliest < latest) = true
    · grind
    · grind

theorem foldl_protection (ds : DatasetDir) (version : Nat) (manifests : List Manifest)
    (out : ForkProtection) :
    let final := manifests.foldl (fun out m =>
      { versions := if (namedHere ds m).isEmpty then out.versions else out.versions ++ [version]
        files := out.files.append (namedHere ds m) : ForkProtection }) out
    (∀ v ∈ out.versions, v ∈ final.versions) ∧
      ∀ m ∈ manifests, (namedHere ds m).isEmpty = false → version ∈ final.versions := by
  induction manifests generalizing out with
  | nil => exact ⟨fun v hv => hv, forall_mem_nil _⟩
  | cons m rest ih =>
    simp only [foldl_cons]
    set next : ForkProtection :=
      { versions := if (namedHere ds m).isEmpty then out.versions else out.versions ++ [version]
        files := out.files.append (namedHere ds m) } with hnext
    rcases ih next with ⟨hkeep, hrest⟩
    refine ⟨fun v hv => hkeep v ?_, fun m' hm' hne => ?_⟩
    · grind
    · grind

theorem mem_branchManifests {branch : BranchInfo} (hm : e.manifest = .ok m)
    (hname : (parseManifestVersion e.name).isSome || isDetached e.name) :
    ∀ (entries : List VersionFile) (manifests : List Manifest),
      branchManifests branch entries = .ok manifests → e ∈ entries → m ∈ manifests := by
  intro entries
  induction entries with
  | nil => exact nofun
  | cons x rest ih =>
    intro manifests h he
    rw [branchManifests] at h
    by_cases hx : ((parseManifestVersion x.name).isNone && !isDetached x.name) = true
    · rw [if_pos hx] at h
      rcases mem_cons.mp he with rfl | he
      · rw [Bool.and_eq_true, Option.isNone_iff_eq_none, Bool.not_eq_true'] at hx
        grind
      · exact ih manifests h he
    · rw [if_neg hx] at h
      cases hload : x.manifest with
      | error err => grind
      | ok m' => grind [bind_eq_ok, pure_eq_ok]

variable {ds : DatasetDir} {requested : Nat} {policy : CleanupPolicy}

/-- A fork the policy would remove keeps the version it forks from, when one of its manifests names
    a file here. -/
theorem protectForks_versions :
    ∀ (forks : List ForkedBranch) (out final : ForkProtection),
      protectForks ds policy forks out = .ok final →
      (∀ v ∈ out.versions, v ∈ final.versions) ∧
        ∀ fork ∈ forks, ∀ entry base, manifestFileOf ds fork.version = some entry →
          entry.manifest = .ok base → selected policy fork.version base.timestamp = true →
          ∀ e ∈ fork.branch.versions, (parseManifestVersion e.name).isSome || isDetached e.name →
            ∀ m, e.manifest = .ok m → (namedHere ds m).isEmpty = false →
              fork.version ∈ final.versions := by
  intro forks
  induction forks with
  | nil => simp [protectForks]
  | cons x rest ih =>
    intro out final h
    rw [protectForks] at h
    cases hfile : manifestFileOf ds x.version with
    | none => grind
    | some found =>
      simp only [hfile] at h
      cases hload : found.manifest with
      | error err => grind
      | ok m₀ =>
        simp only [hload] at h
        by_cases hsel : selected policy x.version m₀.timestamp = true
        · rw [if_pos hsel, bind_eq_ok] at h
          rcases h with ⟨mid, hprotect, h⟩
          rcases ih mid final h with ⟨hkeep, hrest⟩
          simp only [protectFork, bind_eq_ok, pure_eq_ok] at hprotect
          rcases hprotect with ⟨manifests, hmanifests, rfl⟩
          have hfold := foldl_protection ds x.version manifests out
          refine ⟨fun v hv => hkeep v (hfold.1 v hv), fun fork hf => ?_⟩
          rcases mem_cons.mp hf with rfl | hf
          · intro entry base _ _ _ e he hname m hm hne
            exact hkeep _ (hfold.2 m (mem_branchManifests hm hname _ _ hmanifests he) hne)
          · exact hrest fork hf
        · rw [if_neg hsel] at h
          grind

/-- The two sets of names a cleanup judges files by, and the versions it keeps and removes. -/
structure Judgement (ds : DatasetDir) (requested : Nat) (policy : CleanupPolicy) where
  forks : List ForkedBranch
  protection : ForkProtection
  hforks : forkedBranches ds = .ok forks
  hprotection : protectForks ds policy forks {} = .ok protection

namespace Judgement

def keep (j : Judgement ds requested policy) : LoadedVersion → Bool :=
  keepVersion ds policy (resolveReadVersion ds requested) j.protection.versions

def kept (j : Judgement ds requested policy) : List LoadedVersion := ds.loaded.filter j.keep

def removed (j : Judgement ds requested policy) : List LoadedVersion :=
  ds.loaded.filter (fun v => !j.keep v)

def referenced (j : Judgement ds requested policy) : ReferencedFiles :=
  referenceAll (j.kept.map (·.manifest)) { j.protection.files with txPaths := [] }

def verified (j : Judgement ds requested policy) : ReferencedFiles :=
  referenceAll (j.removed.map (·.manifest)) {}

def cutoff (j : Judgement ds requested policy) : Option Int :=
  cutoffNs ((j.kept.filter (fun v => v.version.isSome)).map (·.manifest.timestamp))
    (j.removed.map (·.manifest.timestamp))

/-- What the cleanup made of the judgement. -/
structure Yields (j : Judgement ds requested policy) (result : CleanupResult) : Prop where
  manifests : result.manifests.map (·.path) = j.removed.map (fun v => "_versions/" ++ v.name)
  files : ∀ path, path ∈ result.files.map (·.path) ↔ ∃ dir ∈ managedDirs, ∃ file ∈ ds.files,
    file.relative = path ∧ startsWith path (dir ++ "/") = true ∧
      ¬ (dir ≠ "_indices" ∧ j.cutoff.any (fun t => t < file.modifiedNs) = true) ∧
      (removableKind path (!policy.deleteUnverified && file.age < unverifiedThresholdNs)
        j.referenced j.verified).isSome = true

end Judgement

theorem considerFile_path (policy : CleanupPolicy) (cutoff : Option Int)
    (referenced verified : ReferencedFiles) (dir : String) (file : ListedFile) (path : String) :
    (∃ c, considerFile policy cutoff referenced verified dir file = some c ∧ c.path = path) ↔
      file.relative = path ∧
        ¬ (dir ≠ "_indices" ∧ cutoff.any (fun t => t < file.modifiedNs) = true) ∧
        (removableKind path (!policy.deleteUnverified && file.age < unverifiedThresholdNs)
          referenced verified).isSome = true := by
  rw [considerFile]
  by_cases hskip : (dir ≠ "_indices" ∧ cutoff.any (fun t => t < file.modifiedNs) = true)
  · have hcond : (decide (dir ≠ "_indices") && cutoff.any (fun t => t < file.modifiedNs)) = true := by
      rw [Bool.and_eq_true, decide_eq_true_eq]
      exact hskip
    rw [if_pos hcond]
    refine ⟨fun h => ?_, fun h => absurd hskip h.2.1⟩
    rcases h with ⟨c, hc, _⟩
    cases hc
  · have hcond : ¬ (decide (dir ≠ "_indices") && cutoff.any (fun t => t < file.modifiedNs)) = true := by
      rw [Bool.and_eq_true, decide_eq_true_eq]
      exact hskip
    rw [if_neg hcond]
    constructor
    · rintro ⟨c, hc, hpath⟩
      rcases Option.map_eq_some_iff.mp hc with ⟨kind, hkind, rfl⟩
      have heq : file.relative = path := hpath
      subst heq
      exact ⟨rfl, hskip, by rw [hkind]; rfl⟩
    · rintro ⟨heq, _, hsome⟩
      subst heq
      rcases Option.isSome_iff_exists.mp hsome with ⟨kind, hkind⟩
      exact ⟨_, Option.map_eq_some_iff.mpr ⟨kind, hkind, rfl⟩, rfl⟩

/-- A cleanup that succeeds judges every file by the versions it keeps and removes. -/
theorem cleanup_yields (h : cleanupOldVersions ds requested policy = .ok result) :
    ∃ j : Judgement ds requested policy, j.Yields result := by
  simp only [cleanupOldVersions, bind_eq_ok, pure_eq_ok] at h
  rcases h with ⟨_, _, _, _, _, _, _, _, forks, hforks, protection, hprotection, loaded, hloaded, _,
    _, rfl⟩
  have hsame : loaded = ds.loaded := loadVersions_ok _ _ loaded hloaded
  subst hsame
  let j : Judgement ds requested policy := ⟨forks, protection, hforks, hprotection⟩
  refine ⟨j, ?_, fun path => ?_⟩
  · rw [map_map]
    rfl
  · simp only [mem_map, mem_flatMap, mem_filterMap, mem_filter]
    constructor
    · rintro ⟨c, ⟨dir, hdir, file, ⟨hfile, hstart⟩, hc⟩, hpath⟩
      have hmade := (considerFile_path policy _ _ _ dir file path).mp ⟨c, hc, hpath⟩
      exact ⟨dir, hdir, file, hfile, hmade.1, hmade.1 ▸ hstart, hmade.2⟩
    · rintro ⟨dir, hdir, file, hfile, heq, hstart, hmade⟩
      rcases (considerFile_path policy j.cutoff j.referenced j.verified dir file path).mpr
        ⟨heq, hmade⟩ with ⟨c, hc, hpath⟩
      exact ⟨c, ⟨dir, hdir, file, ⟨hfile, heq ▸ hstart⟩, hc⟩, hpath⟩

theorem startsWith_append (start rest : String) : startsWith (start ++ rest) start = true := by
  simp [startsWith]

/-- No file a read opens through a manifest is itself a manifest. -/
theorem opens_not_versions (h : Opens ds self m path) (name : String) :
    path ≠ "_versions/" ++ name := by
  intro heq
  have hstart := startsWith_append "_versions/" name
  rw [← heq] at hstart
  cases h with
  | data f file hf hfile hhere =>
    rw [startsWith, dataPath, String.toList_append] at hstart
    exact absurd hstart (by rw [Bool.not_eq_true]; rfl)
  | overlay f o hf ho hself =>
    rw [startsWith, dataPath, String.toList_append] at hstart
    exact absurd hstart (by rw [Bool.not_eq_true]; rfl)
  | deletion f d hf hd hhere =>
    rcases deletionPath_toList f d with ⟨rest, hlist⟩
    grind [startsWith]
  | index i name hi hhere =>
    simp only [startsWith, String.toList_append, append_assoc] at hstart
    exact absurd hstart (by rw [Bool.not_eq_true]; rfl)

variable {j : Judgement ds requested policy}

/-- A file that no age makes removable is not among those removed. -/
theorem Judgement.Yields.spared (h : j.Yields result) (path : String)
    (hspare : ∀ inProgress, removableKind path inProgress j.referenced j.verified = none) :
    path ∉ result.files.map (·.path) := by
  rw [h.files path]
  simp [hspare]

/-- The files a read opens, overlays apart, are spared when the manifest's names for them are
    referenced. -/
theorem opens_spared {referenced : ReferencedFiles} (verified : ReferencedFiles)
    (h : Opens ds self m path)
    (hbare : ∀ f ∈ m.fragments, ∀ file ∈ f.files, livesHere ds self m.bases file.baseId →
      '/' ∉ file.path.toList ∧ dataPath file.path ∈ referenced.dataPaths)
    (hdel : ∀ f ∈ m.fragments, ∀ d, f.deletionFile = some d → livesHere ds self m.bases d.baseId →
      deletionPath f d ∈ referenced.deletePaths)
    (hidx : ∀ i ∈ m.indices, livesHere ds self m.bases i.baseId →
      uuidString i.uuid ∈ referenced.indexUuids) :
    path ∈ overlayPaths m ∧ self = true ∨
      ∀ inProgress, removableKind path inProgress referenced verified = none := by
  cases h with
  | data f file hf hfile hhere =>
    refine .inr fun inProgress => ?_
    rcases hbare f hf file hfile hhere with ⟨hslash, href⟩
    have hnot := (removable_data_iff inProgress referenced verified hslash).not.mpr
      (fun hall => hall.2.1 href)
    rwa [Bool.not_eq_true, Option.isSome_eq_false_iff, Option.isNone_iff_eq_none] at hnot
  | overlay f o hf ho hself =>
    refine .inl ⟨mem_flatMap.mpr ⟨f, hf, mem_filterMap.mpr ⟨_, ho, rfl⟩⟩, hself⟩
  | deletion f d hf hd hhere =>
    rcases deletionPath_toList f d with ⟨rest, hlist⟩
    exact .inr fun inProgress => spare_deletion inProgress verified hlist (hdel f hf d hd hhere)
  | index i name hi hhere =>
    exact .inr fun inProgress => spare_index name inProgress verified (hidx i hi hhere)

/-- The names a version of this dataset has are all it opens, overlays apart. -/
theorem own_spared {referenced : ReferencedFiles} (verified : ReferencedFiles)
    (h : Opens ds true m path) (hbare : ∀ f ∈ m.fragments, ∀ file ∈ f.files, '/' ∉ file.path.toList)
    (hsub : (reference m {}).Sub referenced) :
    path ∈ overlayPaths m ∨ ∀ inProgress, removableKind path inProgress referenced verified = none := by
  refine (opens_spared verified h ?_ ?_ ?_).imp And.left id
  · intro f hf file hfile _
    refine ⟨hbare f hf file hfile, hsub.data _ ?_⟩
    exact mem_flatMap.mpr ⟨f, hf, mem_map.mpr ⟨file, hfile, rfl⟩⟩
  · intro f hf d hd _
    refine hsub.deletions _ (mem_flatMap.mpr ⟨f, hf, ?_⟩)
    rw [hd]
    exact mem_singleton.mpr rfl
  · intro i hi _
    exact hsub.indices _ (mem_map.mpr ⟨i, hi, rfl⟩)

/-- A base path that may lead here is one the cleanup takes to. -/
theorem livesHere_names {bases : List BasePath} {baseId : Option Nat}
    (h : livesHere ds false bases baseId) : namesDatasetDir ds bases baseId = true := by
  cases baseId with
  | none => cases h
  | some id =>
    rcases h with ⟨base, hfind, hroot, hcanon⟩
    simp only [namesDatasetDir, hfind, hroot, Bool.true_and]
    grind

/-- The names a branch's manifest has for files here are all it opens here. -/
theorem branch_spared {referenced : ReferencedFiles} (verified : ReferencedFiles)
    (h : Opens ds false m path)
    (hbare : ∀ p ∈ (namedHere ds m).dataPaths, ∃ n, p = dataPath n ∧ '/' ∉ n.toList)
    (hsub : (namedHere ds m).Sub referenced) :
    ∀ inProgress, removableKind path inProgress referenced verified = none := by
  have hdata : ∀ f ∈ m.fragments, ∀ file ∈ f.files, livesHere ds false m.bases file.baseId →
      dataPath file.path ∈ (namedHere ds m).dataPaths := by
    intro f hf file hfile hhere
    exact mem_flatMap.mpr ⟨f, hf, mem_map.mpr ⟨file,
      mem_filter.mpr ⟨hfile, livesHere_names hhere⟩, rfl⟩⟩
  refine (opens_spared verified h ?_ ?_ ?_).resolve_left
    (fun hover => absurd hover.2 (by decide))
  · intro f hf file hfile hhere
    have hmem := hdata f hf file hfile hhere
    rcases hbare _ hmem with ⟨n, hn, hslash⟩
    have heq : file.path = n := by
      have hlist := congrArg (fun s : String => s.toList.drop 5) hn
      simp only [dataPath, String.toList_append] at hlist
      exact String.toList_inj.mp hlist
    exact ⟨heq ▸ hslash, hsub.data _ hmem⟩
  · intro f hf d hd hhere
    refine hsub.deletions _ (mem_flatMap.mpr ⟨f, hf, ?_⟩)
    rw [hd, Option.filter_some, if_pos (livesHere_names hhere)]
    exact mem_singleton.mpr rfl
  · intro i hi hhere
    exact hsub.indices _ (mem_map.mpr ⟨i, mem_filter.mpr ⟨hi, livesHere_names hhere⟩, rfl⟩)

theorem mem_loaded (he : e ∈ ds.versions) (hm : e.manifest = .ok m)
    (hname : (parseManifestVersion e.name).isSome || isDetached e.name) :
    ⟨e.name, e.size, parseManifestVersion e.name, m⟩ ∈ ds.loaded := by
  refine mem_filterMap.mpr ⟨e, he, ?_⟩
  rw [if_neg, hm]
  rw [Bool.and_eq_true, Option.isNone_iff_eq_none, Bool.not_eq_true']
  grind

/-- The file a version was read from. -/
def LoadedVersion.From (v : LoadedVersion) (e : VersionFile) : Prop :=
  e.manifest = .ok v.manifest ∧ v = ⟨e.name, e.size, parseManifestVersion e.name, v.manifest⟩

theorem loaded_entry (hv : v ∈ ds.loaded) :
    ∃ e ∈ ds.versions, v.From e ∧
      ((parseManifestVersion v.name).isSome || isDetached v.name) = true := by
  rcases mem_filterMap.mp hv with ⟨e, he, hmade⟩
  by_cases hname : ((parseManifestVersion e.name).isNone && !isDetached e.name) = true
  · grind
  · rw [if_neg hname] at hmade
    cases hm : e.manifest with
    | error err => grind
    | ok m =>
      rw [hm, Option.some.injEq] at hmade
      subst hmade
      refine ⟨e, he, ⟨hm, rfl⟩, ?_⟩
      simpa [Option.isSome_iff_ne_none, or_iff_not_imp_left] using hname

/-- Versions are told apart by the names of their files. -/
theorem loaded_name_inj (hwf : WellFormed ds) {w : LoadedVersion} (hv : v ∈ ds.loaded)
    (hw : w ∈ ds.loaded) (hname : v.name = w.name) : v = w := by
  rcases loaded_entry hv with ⟨e, he, ⟨hm, hmade⟩, _⟩
  rcases loaded_entry hw with ⟨e', he', ⟨hm', hmade'⟩, _⟩
  have hsame : e = e' := by
    refine inj_on_of_nodup_map hwf.distinct he he' ?_
    rw [hmade, hmade'] at hname
    exact hname
  grind

/-- The version a branch forks from is kept, when the branch names a file here. -/
theorem fork_version_kept {fork : ForkedBranch} (hfork : fork ∈ j.forks)
    (he : e ∈ fork.branch.versions)
    (hname : (parseManifestVersion e.name).isSome || isDetached e.name) (hm : e.manifest = .ok m)
    (hnamed : (namedHere ds m).isEmpty = false) {entry : VersionFile} {base : Manifest}
    (hentry : manifestFileOf ds fork.version = some entry) (hbase : entry.manifest = .ok base) :
    ∃ v ∈ j.kept, v.manifest = base := by
  have hversion : parseManifestVersion entry.name = some fork.version := by
    simpa only [decide_eq_true_eq] using find?_some hentry
  have hloaded := mem_loaded (mem_of_find?_eq_some hentry) hbase (by rw [hversion]; rfl)
  refine ⟨_, mem_filter.mpr ⟨hloaded, ?_⟩, rfl⟩
  rw [Judgement.keep, keepVersion, hversion, Option.all_some]
  -- Selected by the policy it is protected as a fork; not selected it stays.
  by_cases hsel : selected policy fork.version base.timestamp = true
  · have hin := (protectForks_versions j.forks {} j.protection j.hprotection).2 fork hfork
      entry base hentry hbase hsel e he hname m hm hnamed
    rw [decide_eq_true hin, Bool.or_true]
  · simp [hsel]

section Safety

variable (ds : DatasetDir) (requested : Nat) (policy : CleanupPolicy) (result : CleanupResult)
  (hwf : WellFormed ds) (j : Judgement ds requested policy) (hj : j.Yields result)

include hwf hj

/-- The versions left in place are those kept. -/
theorem left_iff_kept (hv : v ∈ ds.loaded) :
    "_versions/" ++ v.name ∉ result.manifests.map (·.path) ↔ v ∈ j.kept := by
  rw [hj.manifests, Judgement.kept, mem_filter]
  simp only [hv, true_and]
  constructor
  · intro hleft
    by_contra hkeep
    refine hleft (mem_map.mpr ⟨v, mem_filter.mpr ⟨hv, ?_⟩, rfl⟩)
    simpa using hkeep
  · intro hkeep hgone
    rcases mem_map.mp hgone with ⟨w, hw, hname⟩
    rcases mem_filter.mp hw with ⟨hwl, hnot⟩
    have heq : w.name = v.name := by
      have hlist := congrArg (fun s : String => s.toList.drop 10) hname
      simp only [String.toList_append] at hlist
      exact String.toList_inj.mp hlist
    rw [loaded_name_inj hwf hwl hv heq, hkeep] at hnot
    exact absurd hnot (by decide)

omit hwf in
/-- A file directly under the data directory is removed exactly when it is listed and nothing spares
    it. -/
theorem data_removed_iff (hbare : '/' ∉ name.toList) :
    dataPath name ∈ result.files.map (·.path) ↔ ∃ file ∈ ds.files,
      file.relative = dataPath name ∧
        overlaySpared policy j.kept j.removed j.protection.files.dataPaths file = false := by
  have hreferenced : dataPath name ∈ j.referenced.dataPaths ↔
      dataPath name ∈ j.protection.files.dataPaths ∨
        j.kept.any (namesData (dataPath name)) = true := by
    rw [Judgement.referenced, (mem_referenceAll _ _ _).1]
    simp [namesData]
  have hverified : dataPath name ∈ j.verified.dataPaths ↔
      j.removed.any (namesData (dataPath name)) = true := by
    rw [Judgement.verified, (mem_referenceAll _ _ _).1]
    simp [namesData]
  have hcutoff : ∀ t : Int, j.cutoff.any (fun cutoff => cutoff < t) = true ↔
      (j.kept.any (fun k => k.version.isSome && k.manifest.timestamp < t) &&
        !j.removed.any (fun r => j.kept.any (fun k =>
          k.version.isSome && k.manifest.timestamp < r.manifest.timestamp))) = true := by
    intro t
    rw [Judgement.cutoff, cutoffNs_any]
    simp only [mem_map, exists_exists_and_eq_and]
    simp only [mem_filter, Bool.and_eq_true, any_eq_true, decide_eq_true_eq,
      Bool.not_eq_true', ← Bool.not_eq_true, and_assoc]
  rw [hj.files]
  constructor
  · rintro ⟨dir, hdir, file, hfile, heq, hstart, hin, hsome⟩
    have hdata : dir = "data" := by
      simp only [startsWith, dataPath, String.toList_append] at hstart
      simp only [managedDirs, mem_cons, not_mem_nil, or_false] at hdir
      rcases hdir with rfl | rfl | rfl | rfl | rfl
      · exact absurd hstart (by rw [Bool.not_eq_true]; rfl)
      · exact absurd hstart (by rw [Bool.not_eq_true]; rfl)
      · rfl
      · exact absurd hstart (by rw [Bool.not_eq_true]; rfl)
      · exact absurd hstart (by rw [Bool.not_eq_true]; rfl)
    subst hdata
    refine ⟨file, hfile, heq, ?_⟩
    rw [removable_data_iff _ _ _ hbare, hreferenced, hverified] at hsome
    rcases hsome with ⟨hlance, hnot, hold⟩
    rw [not_or] at hnot
    have hnew := fun h => hin ⟨by decide, (hcutoff file.modifiedNs).mpr h⟩
    rw [overlaySpared, heq]
    grind
  · rintro ⟨file, hfile, heq, hspare⟩
    rw [overlaySpared, heq] at hspare
    simp only [Bool.or_eq_false_iff] at hspare
    rcases hspare with ⟨⟨⟨⟨hlance, hfork⟩, hkept⟩, hcut⟩, hage⟩
    refine ⟨"data", by decide, file, hfile, heq, ?_, ?_, ?_⟩
    · exact startsWith_append "data/" name
    · rintro ⟨_, hnew⟩
      rw [(hcutoff file.modifiedNs).mp hnew] at hcut
      exact absurd hcut (by decide)
    · rw [removable_data_iff _ _ _ hbare, hreferenced, hverified]
      grind

end Safety

/-- The condition on overlays, in terms of the judgement made. -/
theorem overlaysSpared_iff (ds : DatasetDir) (requested : Nat) (policy : CleanupPolicy)
    (j : Judgement ds requested policy) :
    overlaysSpared ds requested policy = true ↔ ∀ v ∈ j.kept, ∀ file ∈ ds.files,
      file.relative ∈ overlayPaths v.manifest →
        overlaySpared policy j.kept j.removed j.protection.files.dataPaths file = true := by
  have hmade : (do let forks ← forkedBranches ds; protectForks ds policy forks {})
      = .ok j.protection := by
    rw [bind_eq_ok]
    exact ⟨j.forks, j.hforks, j.hprotection⟩
  rw [overlaysSpared, hmade]
  simp only [all_eq_true, Bool.or_eq_true, decide_eq_true_eq, ← imp_iff_not_or]
  rfl

/-- A cleanup that succeeds removes no file that a version left in place opens, nor one a branch
    opens here, exactly when every overlay file of a version kept is spared for another reason. -/
theorem cleanup_safe_iff (ds : DatasetDir) (hwf : WellFormed ds) (requested : Nat)
    (policy : CleanupPolicy) (result : CleanupResult)
    (h : cleanupOldVersions ds requested policy = .ok result) :
    CleanupSafe ds result ↔ overlaysSpared ds requested policy = true := by
  rcases cleanup_yields h with ⟨j, hj⟩
  rw [overlaysSpared_iff ds requested policy j]
  have hbareOverlay : ∀ v ∈ ds.loaded, ∀ path ∈ overlayPaths v.manifest,
      ∃ n, path = dataPath n ∧ '/' ∉ n.toList ∧ Opens ds true v.manifest path := by
    intro v hv path hpath
    rcases loaded_entry hv with ⟨e, he, ⟨hm, _⟩, _⟩
    rcases mem_flatMap.mp hpath with ⟨f, hf, hover⟩
    rcases mem_filterMap.mp hover with ⟨o, ho, hmade⟩
    cases o with
    | malformed err => cases hmade
    | decoded o =>
      rw [Option.some.injEq] at hmade
      subst hmade
      exact ⟨_, rfl, (hwf.bare e he _ hm f hf).2 o ho, Opens.overlay f o hf ho rfl⟩
  constructor
  · intro hsafe v hv file hfile hpath
    have hvl := mem_of_mem_filter hv
    rcases hbareOverlay v hvl _ hpath with ⟨n, hn, hslash, hopens⟩
    by_contra hexposed
    have hgone := (data_removed_iff ds requested policy result j hj hslash).mpr
      ⟨file, hfile, hn, by simpa using hexposed⟩
    refine hsafe.own v hvl ((left_iff_kept ds requested policy result hwf j hj hvl).mpr hv) _
      hopens ?_
    rw [hn]
    exact mem_append_right _ hgone
  · intro hspared
    have hnotManifest : ∀ self m path, Opens ds self m path →
        path ∉ result.manifests.map (·.path) := by
      intro self m path hopens hgone
      rw [hj.manifests] at hgone
      rcases mem_map.mp hgone with ⟨w, _, hname⟩
      exact opens_not_versions hopens w.name hname.symm
    refine ⟨fun v hv hleft hgone => ?_, fun v hv hleft path hopens hgone => ?_,
      fun forks hforks fork hfork e he hname m hm path hopens hgone => ?_⟩
    · rcases mem_append.mp hgone with hgone | hgone
      · exact hleft hgone
      · rcases loaded_entry hv with ⟨_, _, _, hname⟩
        exact hj.spared _ (fun p => spare_manifest p _ _ hname) hgone
    · have hkept := (left_iff_kept ds requested policy result hwf j hj hv).mp hleft
      rcases mem_append.mp hgone with hgone | hgone
      · exact hnotManifest true v.manifest path hopens hgone
      · rcases loaded_entry hv with ⟨e, he, ⟨hm, _⟩, _⟩
        rcases own_spared j.verified hopens (fun f hf => (hwf.bare e he _ hm f hf).1)
          (sub_referenceAll _ _ _ (mem_map.mpr ⟨v, hkept, rfl⟩)) with hover | hspare
        · rcases hbareOverlay v hv path hover with ⟨n, rfl, hslash, _⟩
          rcases (data_removed_iff ds requested policy result j hj hslash).mp hgone with
            ⟨file, hfile, heq, hexposed⟩
          grind
        · exact hj.spared path hspare hgone
    · rcases mem_append.mp hgone with hgone | hgone
      · exact hnotManifest false m path hopens hgone
      · -- A branch's names here are those of the version it forks from, which stays.
        have hforks' : fork ∈ j.forks := by
          rw [j.hforks, Except.ok.injEq] at hforks
          exact hforks ▸ hfork
        cases hnamed : (namedHere ds m).isEmpty with
        | true =>
          refine hj.spared path (branch_spared _ hopens ?_ ?_) hgone
          · grind [ReferencedFiles.isEmpty]
          · exact ReferencedFiles.sub_of_isEmpty _ _ hnamed
        | false =>
          rcases hwf.lineage forks hforks fork hfork e he m hm hnamed with
            ⟨entry, base, hentry, hbase, hsub⟩
          rcases fork_version_kept hforks' he hname hm hnamed hentry hbase with ⟨v, hv, rfl⟩
          have hall := sub_referenceAll (j.kept.map (·.manifest))
            { j.protection.files with txPaths := [] } _ (mem_map.mpr ⟨v, hv, rfl⟩)
          refine hj.spared path (branch_spared _ hopens ?_ (hsub.trans hall)) hgone
          intro p hp
          rcases mem_flatMap.mp (hsub.data p hp) with ⟨f, hf, hfiles⟩
          rcases mem_map.mp hfiles with ⟨file, hfile, rfl⟩
          exact ⟨_, rfl, (hwf.bare entry (mem_of_find?_eq_some hentry) _ hbase f hf).1 file hfile⟩

/-- An overlay on one row of a fragment. -/
def rowOverlay : DataOverlay :=
  { dataFile := { path := "o.lance", fields := [0] }, sharedOffsets := [0], committedVersion := 2 }

def writtenFragment : DataFragment :=
  { id := 0, physicalRows := 3, files := [{ path := "0.lance", fields := [0] }] }

def overlaidFragment : DataFragment := { writtenFragment with overlays := [.decoded rowOverlay] }

/-- Two versions of one fragment, written and then given an overlay, whose file is some days old at
    the walk. -/
def overlaidDir (days : Int) : DatasetDir :=
  { own := "/d"
    canonical := id
    versions :=
      [{ name := "1.manifest", manifest := .ok { version := 1, fragments := [writtenFragment] } },
       { name := "2.manifest"
         manifest := .ok { version := 2, timestamp := 10, fragments := [overlaidFragment] } }]
    files :=
      [{ relative := "data/0.lance", age := days * (24 * 3600 * 1000000000), modifiedNs := 0 },
       { relative := "data/o.lance", age := days * (24 * 3600 * 1000000000), modifiedNs := 5 }] }

theorem overlaidDir_wellFormed (days : Int) : WellFormed (overlaidDir days) := by
  have hbare : ∀ f ∈ [writtenFragment, overlaidFragment],
      (∀ file ∈ f.files, '/' ∉ file.path.toList) ∧
        ∀ o, OverlayMessage.decoded o ∈ f.overlays → '/' ∉ o.dataFile.path.toList := by
    intro f hf
    rcases mem_cons.mp hf with rfl | hf
    · exact ⟨by decide, nofun⟩
    · rw [mem_singleton.mp hf]
      refine ⟨by decide, fun o ho => ?_⟩
      rw [OverlayMessage.decoded.inj (mem_singleton.mp ho)]
      decide
  refine ⟨(by decide : ["1.manifest", "2.manifest"].Nodup), fun e he m hm f hf => hbare f ?_,
    fun forks hforks fork hfork => ?_⟩
  · grind [overlaidDir]
  · have hnone : forkedBranches (overlaidDir days) = .ok [] := rfl
    grind

/-- A cleanup within a week of the overlay is safe. -/
theorem cleanup_safe_iff_recent_overlay :
    ∃ result, cleanupOldVersions (overlaidDir 1) 0 {} = .ok result ∧
      result.manifests.map (·.path) = ["_versions/1.manifest"] ∧
      CleanupSafe (overlaidDir 1) result :=
  ⟨_, rfl, rfl, (cleanup_safe_iff (overlaidDir 1) (overlaidDir_wellFormed 1) 0 {} _ rfl).mpr
    (by decide)⟩

/-- A cleanup a week after it removes the overlay's file, which the version left in place opens. -/
theorem overlay_file_removed :
    WellFormed (overlaidDir 8) ∧
      ∃ result, cleanupOldVersions (overlaidDir 8) 0 {} = .ok result ∧
        result.removed = ["_versions/1.manifest", "data/o.lance"] ∧
        ¬ CleanupSafe (overlaidDir 8) result := by
  refine ⟨overlaidDir_wellFormed 8, _, rfl, rfl, fun hsafe => ?_⟩
  refine hsafe.own _ (.tail _ (.head _)) (by decide) "data/o.lance" ?_ (by decide)
  exact Opens.overlay overlaidFragment rowOverlay (.head _) (.head _) rfl

end NanoLance
