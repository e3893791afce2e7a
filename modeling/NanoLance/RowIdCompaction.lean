import Mathlib.Data.List.Flatten
import NanoLance.RowIdMoves

/-!
# Compactions Keep Row Ids

The planner cuts the fragments of a version into bins, so no fragment is in two
tasks. A task writes the ids of its fragments' live rows. The rewrite puts the
new fragments in the place of those, under ids that were reserved for them.
-/

namespace NanoLance

namespace RowIds

open List Lib

theorem closeRun_sublist (options : CompactionOptions) (runs : List (List DataFragment))
    (run : List DataFragment) :
    (closeRun options runs run).flatten.Sublist (runs.flatten ++ run) := by grind [closeRun]

variable (m : Manifest)

/-- Runs are made of fragments in order. -/
theorem planRuns_sublist (options : CompactionOptions) :
    ∀ (rest : List DataFragment) (runs : List (List DataFragment)) (run : List DataFragment)
      (indices : List Nat),
      (planRuns m options rest runs run indices).flatten.Sublist (runs.flatten ++ run ++ rest) := by
  intro rest
  induction rest with
  | nil =>
    intro runs run indices
    rw [append_nil]
    exact closeRun_sublist options runs run
  | cons f rest ih =>
    intro runs run indices
    have hclosed := closeRun_sublist options runs run
    unfold planRuns
    split
    · refine (ih _ _ _).trans ?_
      grind
    · split
      · refine (ih _ _ _).trans ?_
        grind
      · grind

/-- Cutting a run loses nothing. -/
theorem splitRun_flatten (target : Nat) : ∀ (run piece : List DataFragment) (rows remaining : Nat),
    (splitRun target run piece rows remaining).flatten = piece ++ run := by
  intro run
  induction run with
  | nil => grind [splitRun]
  | cons f run ih =>
    intro piece rows remaining
    unfold splitRun
    grind

theorem withinBudgets_first (options : CompactionOptions) :
    ∀ (bins : List (List DataFragment)) (fragments rows bytes : Nat),
      withinBudgets m options bins fragments rows bytes <+: bins := by
  intro bins
  induction bins with
  | nil => exact fun _ _ _ => prefix_refl _
  | cons bin bins ih => grind [withinBudgets]

variable {options : CompactionOptions} {bases : List BasePath} {bins created : List DataFragment}
  {f : DataFragment} {ids : List Nat} {reserved : Manifest}

/-- The pieces of all runs are of fragments in order. -/
theorem pieces_sublist (options : CompactionOptions) :
    ((planRuns m options m.fragments [] [] []).flatMap (fun run =>
      splitRun (max options.targetRows 1) run [] 0
        ((run.map countedRows).sum % 2 ^ 64))).flatten.Sublist m.fragments := by
  have hruns := planRuns_sublist m options m.fragments [] [] []
  suffices hcut : ∀ runs : List (List DataFragment),
      (runs.flatMap (fun run => splitRun (max options.targetRows 1) run [] 0
        ((run.map countedRows).sum % 2 ^ 64))).flatten = runs.flatten by rwa [hcut]
  intro runs
  induction runs with
  | nil => rfl
  | cons run runs ih =>
    rw [flatMap_cons, flatten_append, splitRun_flatten, ih, nil_append, flatten_cons]

/-- The tasks of a compaction are of different fragments. -/
theorem planBins_sublist {m : Manifest} {bins : List (List DataFragment)}
    (h : planBins m options = .ok bins) : bins.flatten.Sublist m.fragments := by
  simp only [planBins, bind_eq_ok, pure_eq_ok] at h
  rcases h with ⟨_, _, rfl⟩
  exact (withinBudgets_first m options _ 0 0 0).sublist.flatten.trans (pieces_sublist m options)

section Compact

variable {files : DeletionFiles} {m : Manifest}

/-- The live rows of a fragment, as they are moved. -/
theorem liveRowMeta_ids {rows : List MovedRow} (h : liveRowMeta files bases f = .ok rows) :
    rows.map (·.id) = (fragmentRows files bases f).map (fun row => some row.2) := by
  simp only [liveRowMeta, bind_eq_ok, pure_eq_ok] at h
  rcases h with ⟨ids, hids, _, _, _, _, deleted, hdeleted, rfl⟩
  rw [fragmentRows_eq hids hdeleted, map_map, map_map]
  rfl

/-- A task writes the ids of its fragments' live rows. -/
theorem rewriteMembers_rows (hm : SoundRows files m) (hunique : UniqueRowIds files m)
    (hlast : m.nextRowId ≤ 2 ^ 64 - 1) {members : List DataFragment}
    (hmembers : members.Sublist m.fragments) {writer : StagedWriter}
    (h : rewriteMembers files m members writer = .ok created)
    (hsmall : ∀ f ∈ created, f.physicalRows ≤ 2 ^ 32) :
    (∀ f ∈ created, Readable files m.bases f ∧ f.deletionFile = none) ∧
      ((created.flatMap (fragmentRows files m.bases)).map Prod.snd).Perm
        ((members.flatMap (fragmentRows files m.bases)).map Prod.snd) := by
  simp only [rewriteMembers, hm.stable, if_true, bind_eq_ok, pure_eq_ok] at h
  rcases h with ⟨rows, hrows, moved, hmoved, stamped, hstamped, rfl⟩
  have hscan := mapM_ok (scanFragment files m.bases)
    (fun f hf => scanFragment_eq (hm.readable f (hmembers.subset hf)))
  rw [hrows, Except.ok.injEq] at hscan
  have hids : moved.flatten.map (·.id) =
      (members.flatMap (fragmentRows files m.bases)).map (fun row => some row.2) := by
    rw [mapM_eq_ok] at hmoved
    clear hrows hscan hstamped hmembers
    induction hmoved with
    | nil => rfl
    | @cons f row members moved hrow _ ih =>
      rw [flatten_cons, map_append, flatMap_cons, map_append, ih, liveRowMeta_ids hrow]
  have hlength : rows.flatten.length = moved.flatten.length := by
    have hcount := congrArg List.length hids
    rw [length_map, length_map] at hcount
    rw [hcount, hscan, ← flatMap_def, ← map_flatMap, length_map]
  -- Every row brings its id along, so no id is new.
  have hnew : newCount moved.flatten = 0 := by
    have hall : ∀ row ∈ moved.flatten, row.id.isNone = false := by
      intro row hrow
      have hmem := mem_map_of_mem (f := MovedRow.id) hrow
      grind
    unfold newCount
    grind
  have hperm : (stampedIds moved.flatten 0).Perm
      ((members.flatMap (fragmentRows files m.bases)).map Prod.snd) := by
    have hperm := stampedIds_perm moved.flatten 0
    rw [hnew, range'_zero, append_nil] at hperm
    refine hperm.trans (List.Perm.of_eq ?_)
    have hsome : moved.flatten.filterMap (·.id) = (moved.flatten.map (·.id)).filterMap id := by
      rw [filterMap_map]
      rfl
    rw [hsome, hids, filterMap_map]
    exact congrFun (filterMap_eq_map (f := Prod.snd)) _
  rcases (uniqueRowIds_iff hm.readable).mp hunique with ⟨hnodup, hbelow⟩
  have hinside := hmembers.flatMap (fragmentRows files m.bases)
  have hfiles : ∀ f ∈ writer.fragments rows.flatten.length, f.physicalRows ≤ 2 ^ 32 := by
    rw [← forall_mem_map (P := (· ≤ 2 ^ 32)), ← (stampFragments_keeps _ _ _ _ hstamped).2]
    exact forall_mem_map.mpr hsmall
  rcases stampFragments_spec files m.bases _ _ 0 stamped hstamped
    (by rw [(writer.fragments_rows _).1, hlength]) (writer.fragments_rows _).2 hfiles
    (hperm.nodup_iff.mpr (hnodup.sublist (hinside.map _)))
    (fun id hid => by
      rcases mem_map.mp (hperm.subset hid) with ⟨row, hrow, rfl⟩
      have := hbelow row (hinside.subset hrow)
      omega) with ⟨_, hread, hstampedIds⟩
  exact ⟨hread, hstampedIds ▸ hperm⟩

/-- The tasks of a compaction write the ids of the rows they read. -/
theorem rewriteTasks_rows (hm : SoundRows files m) (hunique : UniqueRowIds files m)
    (hlast : m.nextRowId ≤ 2 ^ 64 - 1) :
    ∀ (bins : List (List DataFragment)) (task : Nat) (rewrites : List CompactionRewrite),
      bins.flatten.Sublist m.fragments → rewriteTasks files m options bins task = .ok rewrites →
      (∀ f ∈ rewrites.flatMap (·.newFragments), f.physicalRows ≤ 2 ^ 32) →
      rewrites.flatMap (·.oldFragmentIds) = bins.flatten.map (·.id) ∧
      (∀ f ∈ rewrites.flatMap (·.newFragments),
        Readable files m.bases f ∧ f.deletionFile = none) ∧
      (((rewrites.flatMap (·.newFragments)).flatMap (fragmentRows files m.bases)).map Prod.snd).Perm
        ((bins.flatten.flatMap (fragmentRows files m.bases)).map Prod.snd) := by
  intro bins
  induction bins with
  | nil =>
    intro task rewrites _ h _
    rw [rewriteTasks, Except.ok.injEq] at h
    rw [← h]
    exact ⟨rfl, forall_mem_nil _, List.Perm.refl _⟩
  | cons bin bins ih =>
    intro task rewrites hbins h hsmall
    simp only [rewriteTasks, bind_eq_ok, pure_eq_ok] at h
    rcases h with ⟨created, hcreated, others, hothers, rfl⟩
    rw [flatten_cons] at hbins
    rw [flatMap_cons, forall_mem_append] at hsmall
    rcases rewriteMembers_rows hm hunique hlast ((sublist_append_left _ _).trans hbins) hcreated
      hsmall.1 with ⟨hread, hrows⟩
    rcases ih (task + 1) others ((sublist_append_right _ _).trans hbins) hothers hsmall.2 with
      ⟨hold, hreads, hrest⟩
    refine ⟨?_, ?_, ?_⟩
    · rw [flatMap_cons, flatten_cons, map_append, hold]
    · intro f hf
      rw [flatMap_cons] at hf
      rcases mem_append.mp hf with hf | hf
      · exact hread f hf
      · exact hreads f hf
    · rw [flatMap_cons, flatMap_append, map_append, flatten_cons, flatMap_append, map_append]
      exact hrows.append hrest

/-- The row ids of a fragment do not depend on its own. -/
theorem fragmentRowIds_number (id : Nat) (hids : fragmentRowIds f = .ok ids) :
    fragmentRowIds { f with id := id } = .ok ids := by
  unfold fragmentRowIds at hids ⊢
  split at hids
  · cases hids
  · grind

/-- A number for a fragment does not change its rows' ids. -/
theorem numbered_rows (id : Nat) (h : Readable files bases f) (hwhole : f.deletionFile = none) :
    Readable files bases { f with id := id } ∧
      (fragmentRows files bases { f with id := id }).map Prod.snd =
        (fragmentRows files bases f).map Prod.snd := by
  rcases h with ⟨ids, deleted, hids, hdeleted⟩
  have hids' := fragmentRowIds_number id hids
  have hnone : ∀ id', readDeletionVector files bases id' f.deletionFile = .ok [] := by
    intro id'
    rw [hwhole]
    rfl
  refine ⟨⟨ids, [], hids', hnone id⟩, ?_⟩
  rw [fragmentRows_eq hids (hnone f.id),
    fragmentRows_eq hids' (hnone id), map_map,
    map_map]
  rfl

theorem numberFrom_rows : ∀ (fragments : List DataFragment) (next : Nat),
    (∀ f ∈ fragments, Readable files bases f ∧ f.deletionFile = none) →
    (∀ f ∈ numberFrom fragments next, Readable files bases f) ∧
      ((numberFrom fragments next).flatMap (fragmentRows files bases)).map Prod.snd =
        (fragments.flatMap (fragmentRows files bases)).map Prod.snd := by
  intro fragments
  induction fragments with
  | nil => exact fun next _ => ⟨forall_mem_nil _, rfl⟩
  | cons f rest ih =>
    intro next h
    rw [forall_mem_cons] at h
    rcases numbered_rows next h.1.1 h.1.2 with ⟨hread, hrows⟩
    grind [numberFrom]

/-- A version that reserves fragment ids has the rows of the one before. -/
theorem reserveIds_rows (hm : SoundRows files m) {count : Nat}
    (h : reserveIds m m [] count = .ok reserved) :
    SoundRows files reserved ∧ liveRows files reserved = liveRows files m ∧
      reserved.fragments = m.fragments ∧ reserved.nextRowId = m.nextRowId ∧
      reserved.bases = m.bases ∧ reserved.readerFeatureFlags = m.readerFeatureFlags ∧
      reserved.maxFragmentId = (reserveManifest m count).maxFragmentId := by
  simp only [reserveIds, isEmpty_nil, if_true, Except.ok.injEq] at h
  rw [← h]
  rcases reserveManifest_keeps m count with ⟨mark, hkeeps⟩
  rw [hkeeps]
  exact ⟨⟨hm.stable, hm.readable, hm.distinct, hm.small⟩, rfl, rfl, rfl, rfl, rfl, rfl⟩

/-- A compaction's new fragments have ids of their own. -/
theorem compaction_ids (hm : SoundRows files m)
    (hroom : nextFragmentId m + created.length ≤ 2 ^ 32 - 1)
    (hmark : reserved.maxFragmentId = (reserveManifest m created.length).maxFragmentId)
    (rewritten : List Nat) :
    ((m.fragments.filter (fun f => f.id ∉ rewritten) ++
      numberFrom created (firstNewId reserved created.length)).map (·.id)).Nodup := by
  have hkept : ((m.fragments.filter (fun f => f.id ∉ rewritten)).map (·.id)).Nodup :=
    hm.distinct.sublist (filter_sublist.map _)
  by_cases hnone : created.length = 0
  · grind [numberFrom]
  · have hfirst : firstNewId reserved created.length = nextFragmentId m :=
      firstNewId_eq (by omega) hroom (hmark.trans (reserveManifest_mark (by omega) hroom))
    rw [hfirst]
    exact nodup_numbered _ hkept fun f hf => lt_nextFragmentId (mem_of_mem_filter hf)

/-- Fragments replaced by others with the ids of their rows. -/
theorem replaced_subperm (hbins : bins.Sublist m.fragments)
    (hids : ids.Perm ((bins.flatMap (fragmentRows files m.bases)).map Prod.snd)) :
    (((m.fragments.filter (fun f => f.id ∉ bins.map (·.id))).flatMap
      (fragmentRows files m.bases)).map Prod.snd ++ ids).Subperm
        ((liveRows files m).map Prod.snd) := by
  have hinside : bins.Sublist (m.fragments.filter (fun f => f.id ∈ bins.map (·.id))) := by
    have hself : bins.filter (fun f => f.id ∈ bins.map (·.id)) = bins :=
      filter_eq_self.mpr (fun f hf => decide_eq_true (mem_map_of_mem hf))
    grind
  have hsplit := (filter_append_perm (fun f : DataFragment => decide (f.id ∈ bins.map (·.id)))
    m.fragments)
  have hneg : m.fragments.filter (fun f => !decide (f.id ∈ bins.map (·.id))) =
      m.fragments.filter (fun f => f.id ∉ bins.map (·.id)) :=
    filter_congr (fun f _ => (decide_not).symm)
  rw [hneg] at hsplit
  have hall := (hsplit.flatMap_right (fragmentRows files m.bases)).map Prod.snd
  rw [flatMap_append, map_append] at hall
  refine List.Subperm.trans ?_ hall.subperm
  refine (List.perm_append_comm.trans (hids.append_right _)).subperm.trans ?_
  exact (((hinside.flatMap _).map _).append_right _).subperm

/-- The rows after the rewrite of a compaction. -/
theorem compactionManifest_rows (hm : SoundRows files m) {vectors : DeletionVectors} {defer : Bool}
    {out : Manifest} {c : Compaction} (hfragments : reserved.fragments = m.fragments)
    (hbases : reserved.bases = m.bases)
    (hflags : reserved.readerFeatureFlags = m.readerFeatureFlags)
    (hmark : reserved.maxFragmentId = (reserveManifest m c.created.length).maxFragmentId)
    (hfits : nextFragmentId m + c.created.length ≤ 2 ^ 32 - 1)
    (hsmall : ∀ f ∈ c.created, f.physicalRows ≤ 2 ^ 32)
    (hread : ∀ f ∈ c.created, Readable files m.bases f ∧ f.deletionFile = none)
    (hbins : bins.Sublist m.fragments) (hold : c.rewritten = bins.map (·.id))
    (hcreated : ((c.created.flatMap (fragmentRows files m.bases)).map Prod.snd).Perm
      ((bins.flatMap (fragmentRows files m.bases)).map Prod.snd))
    (h : compactionManifest vectors defer m reserved c = .ok out) :
    SoundRows files out ∧ out.nextRowId = reserved.nextRowId ∧
      ((liveRows files out).map Prod.snd).Subperm ((liveRows files m).map Prod.snd) := by
  simp only [compactionManifest, bind_eq_ok, pure_eq_ok] at h
  rcases h with ⟨_, _, indices, _, rfl⟩
  rcases numberFrom_rows c.created (firstNewId reserved c.created.length) hread with
    ⟨hreadable, hnumbered⟩
  have hmem := fun f => mem_numberFrom c.created (firstNewId reserved c.created.length) f
  refine ⟨⟨?_, ?_, ?_, ?_⟩, rfl, ?_⟩
  · have hstable := hm.stable
    grind [isStable, setFlag_deletions_stable]
  · intro f hf
    simp only [mem_sortFragments, hfragments, mem_append] at hf
    simp only [hbases]
    rcases hf with hf | hf
    · exact hm.readable f (mem_of_mem_filter hf)
    · exact hreadable f hf
  · show ((sortFragments _).map _).Nodup
    rw [((sortFragments_perm _).map _).nodup_iff, hfragments]
    exact compaction_ids hm hfits hmark c.rewritten
  · intro f hf
    simp only [mem_sortFragments, hfragments, mem_append] at hf
    rcases hf with hf | hf
    · exact hm.small f (mem_of_mem_filter hf)
    · rcases (hmem f hf).1 with ⟨g, hg, heq⟩
      rw [heq]
      exact hsmall g hg
  · show (((sortFragments _).flatMap (fragmentRows files reserved.bases)).map Prod.snd).Subperm _
    rw [hbases, hfragments, hold]
    refine (((sortFragments_perm _).flatMap_right _).map _).subperm.trans ?_
    rw [flatMap_append, map_append, hnumbered]
    exact replaced_subperm hbins hcreated

/-- A compaction keeps the ids. -/
theorem compactOnce_unique (hm : SoundRows files m) (hunique : UniqueRowIds files m)
    (hroom : ∀ c, planCompaction files m options = .ok c →
      nextFragmentId m + c.created.length ≤ 2 ^ 32 - 1 ∧ Fits m c.created)
    {versions : List Manifest} (h : compactOnce files m options = .ok versions) :
    ∀ v ∈ versions, SoundRows files v ∧ UniqueRowIds files v := by
  simp only [compactOnce, bind_eq_ok] at h
  rcases h with ⟨c, hc, h⟩
  split at h
  · grind [pure_eq_ok]
  · simp only [bind_eq_ok, pure_eq_ok] at h
    rcases h with ⟨_, _, _, _, reserved, hreserved, rewritten, hrewritten, rfl⟩
    rcases hroom c hc with ⟨hfits, hlast, hsmall⟩
    rcases reserveIds_rows hm hreserved with
      ⟨hsound, hrows, hfragments, hnext, hbases, hflags, hmark⟩
    -- The rewrite replaces the fragments of the tasks.
    simp only [planCompaction, bind_eq_ok, pure_eq_ok] at hc
    rcases hc with ⟨bins, hbins, rewrites, hrewrites, rfl⟩
    have hsub := planBins_sublist hbins
    rcases rewriteTasks_rows hm hunique (Nat.le_of_add_right_le hlast) bins 0 rewrites hsub
      hrewrites hsmall with ⟨hold, hread, hcreated⟩
    rcases compactionManifest_rows hm hfragments hbases hflags hmark hfits
      hsmall hread hsub hold hcreated hrewritten with ⟨hnew, hnewNext, hnewRows⟩
    intro v hv
    rcases mem_cons.mp hv with rfl | hv
    · refine ⟨hsound, unique_of_sublist hm hunique hsound hnext ?_⟩
      rw [hrows]
    · rw [mem_singleton.mp hv]
      exact ⟨hnew, unique_of_sublist hm hunique hnew (hnewNext.trans hnext) hnewRows⟩

end Compact

end RowIds

end NanoLance
