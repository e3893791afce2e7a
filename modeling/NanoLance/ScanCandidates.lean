import NanoLance.ScanPlan

/-!
# Filtered Scans and Scalar Index Candidates

A filtered scan may read a fragment three ways: through, by the candidates a
scalar index left of it, or by the columns of the filter first. One planned
file gives the same rows each way (`readDataFileBatches_rows`), so what is left
is the plan.

The plan moves the candidates of a fragment out of the index's answer when it
means to read by them. A fragment that is asked for again finds its candidates
gone, and an empty list of candidates is how the index says that no row can
pass: the fragment is left out. `takenRows` is what the plan reads, fragment by
fragment, with the ids whose candidates are gone.

## Theorems

* `filtered_scan_rows_iff`: When a filtered scan returns the rows that pass.
-/

namespace NanoLance

namespace Scan

open List Lib

section Fragments

variable {R : Type} (store : Store R) (row : Nat → Nat → R) (deletedBy : Nat → List Nat)

/-- A scan that reads every fragment through and keeps the rows that pass. -/
def wholeScan (mask : Option (Nat → Bool)) (filter : Filter R) (fragments : List DataFragment) :
    Except String (Batch R) := do
  let parts ← fragments.mapM (fun f => do
    let pass ← ((rowsOf deletedBy mask f).map (row f.id)).mapM filter.passes
    return (compact pass (rowsOf deletedBy mask f)).map (fun p => (rowAddress f.id p, row f.id p)))
  return parts.flatten

/-- The filter is true of a row. -/
def Filter.isTrue (filter : Filter R) (r : R) : Bool :=
  match filter.passes r with
  | .ok b => b
  | .error _ => false

/-- The rows of a fragment that pass, with their addresses. -/
def passingRows (mask : Option (Nat → Bool)) (filter : Filter R) (f : DataFragment) : Batch R :=
  ((rowsOf deletedBy mask f).filter (fun p => filter.isTrue (row f.id p))).map
    (fun p => (rowAddress f.id p, row f.id p))

/-- Candidates that are ascending and leave out no live row that passes. -/
def Answers (filter : Filter R) (answers : Candidates) (fragments : List DataFragment) : Prop :=
  ∀ f ∈ fragments, ∀ candidates, answers.find? f.id = some candidates →
    candidates.Pairwise (· < ·) ∧
      ∀ p ∈ rowsOf deletedBy none f, filter.isTrue (row f.id p) = true → p ∈ candidates

/-- A fragment is read by its candidates: the index left some, fewer than an
    eighth of its rows, and there is no mask. -/
def picks (mask : Option (Nat → Bool)) (answers : Candidates) (f : DataFragment) : Bool :=
  !f.files.isEmpty && mask.isNone && (answers.find? f.id).any (fun candidates =>
    !candidates.isEmpty && decide (candidates.length * 8 < f.physicalRows))

/-- What a plan reads of some fragments, the candidates of those with an id in
    `taken` being gone. -/
def takenRows (mask : Option (Nat → Bool)) (filter : Filter R) (answers : Candidates) :
    List Nat → List DataFragment → Batch R
  | _, [] => []
  | taken, f :: rest =>
    (if f.id ∈ taken then [] else passingRows row deletedBy mask filter f) ++
      takenRows mask filter answers (if picks mask answers f then f.id :: taken else taken) rest

end Fragments

/-! ## Candidates -/

theorem find?_takeOut (c : Candidates) (id x : Nat) :
    (c.takeOut id).find? x = if x = id then (c.find? x).map (fun _ => []) else c.find? x := by
  unfold Candidates.takeOut Candidates.find?
  induction c with
  | nil => split <;> rfl
  | cons e c ih =>
    rw [map_cons, find?_cons, find?_cons]
    have hkey : (if e.1 = id then (e.1, ([] : List Nat)) else e).1 = e.1 := by
      split <;> rfl
    rw [hkey]
    grind

/-- The candidates left when those of `taken` are gone. -/
def Left (answers : Candidates) (taken : List Nat) (c : Candidates) : Prop :=
  ∀ id, c.find? id = if id ∈ taken then (answers.find? id).map (fun _ => []) else answers.find? id

variable {taken : List Nat}

variable {c : Candidates}

theorem Left.takeOut {answers : Candidates} (h : Left answers taken c) (id : Nat) :
    Left answers (id :: taken) (c.takeOut id) := by
  intro x
  rw [find?_takeOut, h x]
  by_cases hx : x = id
  · rw [if_pos hx, if_pos (mem_cons.mpr (.inl hx))]
    split
    · rw [Option.map_map]
      rfl
    · rfl
  · rw [if_neg hx]
    by_cases hin : x ∈ taken
    · rw [if_pos hin, if_pos (.tail _ hin)]
    · rw [if_neg hin, if_neg (fun hc => (mem_cons.mp hc).elim hx hin)]

theorem Left.again {answers : Candidates} (h : Left answers taken c) {id : Nat} (hid : id ∈ taken) :
    Left answers (id :: taken) c := by
  intro x
  rw [h x]
  grind

/-! ## Planned files -/

section Plan

variable {R : Type} {store : Store R} {row : Nat → Nat → R} {deletedBy : Nat → List Nat}

variable {f : DataFragment} {mask : Option (Nat → Bool)} {filter : Filter R}

/-- A file planned either way is read to the rows of its fragment that pass. -/
theorem planned_read (h : Stored store row deletedBy f) (machine : Machine)
    {candidates : Option (List Nat)} (hfiles : f.files.isEmpty = false)
    (hpass : ∀ p ∈ rowsOf deletedBy mask f, filter.passes (row f.id p) =
      .ok (filter.isTrue (row f.id p)))
    (hcandidates : ∀ l, candidates = some l → mask = none ∧ l.Pairwise (· < ·) ∧
      ∀ p ∈ rowsOf deletedBy mask f, filter.isTrue (row f.id p) = true → p ∈ l) :
    ∃ batches, readDataFileBatches store machine
        { plannedOf mask f with candidates := candidates } (some filter) = .ok batches ∧
      addressed f.id batches.flatten = passingRows row deletedBy mask filter f := by
  have hlive : liveRows { plannedOf mask f with candidates := candidates }
      (deletedFrom deletedBy f) = rowsOf deletedBy mask f :=
    liveRows_planned mask candidates (plannedOf mask f).skip (plannedOf mask f).take hfiles
  have hwanted : wantedRows { plannedOf mask f with candidates := candidates }
      (deletedFrom deletedBy f) = rowsOf deletedBy mask f := by
    unfold wantedRows
    rw [if_neg, hlive]
    exact Bool.eq_false_iff.mp (plannedOf_part mask f)
  have hselects : Selects (some filter) filter.isTrue
      ((wantedRows { plannedOf mask f with candidates := candidates }
        (deletedFrom deletedBy f)).map (row f.id)) := by
    intro r hr
    grind
  rcases readDataFileBatches_rows (h.reads mask candidates _ _ (.inl ⟨rfl, rfl⟩)) machine
    (some filter) filter.isTrue
    (fun l hl => by
      rw [hlive]
      rcases hcandidates l hl with ⟨hmask, hasc, hcomplete⟩
      exact ⟨by rw [hmask]; rfl, hasc, hcomplete⟩) hselects with ⟨batches, hread, hrows⟩
  refine ⟨batches, hread, ?_⟩
  rw [hrows, hwanted]
  unfold addressed passing passingRows
  rw [map_map]
  rfl

theorem passingRows_eq_nil (h : ∀ p ∈ rowsOf deletedBy mask f, filter.isTrue (row f.id p) = false) :
    passingRows row deletedBy mask filter f = [] := by
  unfold passingRows
  rw [map_eq_nil_iff, filter_eq_nil_iff]
  exact fun p hp => Bool.eq_false_iff.mp (h p hp)

variable {rows : Batch R}

section Step

variable (machine : Machine) (request : ScanRequest R) (filter : Filter R) (answers : Candidates)
  (taken : List Nat) (f : DataFragment)
  (hfilter : request.filter = some filter)
  (hstored : f.files.isEmpty = false → Stored store row deletedBy f)
  (hpass : ∀ p ∈ rowsOf deletedBy request.rowMask f,
    filter.passes (row f.id p) = .ok (filter.isTrue (row f.id p)))
  (hanswers : ∀ l, answers.find? f.id = some l → l.Pairwise (· < ·) ∧
    ∀ p ∈ rowsOf deletedBy none f, filter.isTrue (row f.id p) = true → p ∈ l)
  (htaken : ∀ id ∈ taken, (answers.find? id).isSome = true)

include hfilter hstored hpass hanswers htaken

/-- A fragment read through or by its candidates, added to the files. -/
theorem planWhole_rows {files : List PlannedFile} (hfiles : f.files.isEmpty = false)
    (hleft : Left answers taken c) (hread : FilesRead store machine request.filter files rows) :
    Left answers (if picks request.rowMask answers f then f.id :: taken else taken)
        (planWhole request c (plannedOf request.rowMask f)).1 ∧
      FilesRead store machine request.filter
        (files ++ (planWhole request c (plannedOf request.rowMask f)).2.toList)
        (rows ++ if f.id ∈ taken then [] else
          passingRows row deletedBy request.rowMask filter f) := by
  -- A file planned with these candidates, when there are any, adds the rows.
  have hadd : ∀ candidates : Option (List Nat),
      (∀ l, candidates = some l → request.rowMask = none ∧ answers.find? f.id = some l) →
      FilesRead store machine request.filter
        (files ++ [{ plannedOf request.rowMask f with candidates := candidates }])
        (rows ++ passingRows row deletedBy request.rowMask filter f) := by
    intro candidates hcandidates
    rcases planned_read (hstored hfiles) machine hfiles hpass
      (fun l hl => ⟨(hcandidates l hl).1, (hanswers l (hcandidates l hl).2).1,
        fun p hp => (hanswers l (hcandidates l hl).2).2 p (rowsOf_mask_subset _ f hp)⟩)
      with ⟨batches, hbatches, hrows⟩
    rw [← hrows]
    exact hread.concat _ batches (by rw [hfilter]; exact hbatches)
  have hfind := hleft f.id
  unfold planWhole
  simp only [show (plannedOf request.rowMask f).fragmentId = f.id from rfl]
  by_cases hin : f.id ∈ taken
  · -- The candidates are gone, and the fragment with them.
    rcases Option.isSome_iff_exists.mp (htaken f.id hin) with ⟨l, hl⟩
    rw [if_pos hin, hl, Option.map_some] at hfind
    rw [hfind, if_pos hin]
    simp only [isEmpty_nil, if_true, Option.toList_none, append_nil]
    refine ⟨?_, hread⟩
    split
    · exact hleft.again hin
    · exact hleft
  · rw [if_neg hin] at hfind
    rw [hfind, if_neg hin]
    cases hl : answers.find? f.id with
    | none =>
      have hpicks : picks request.rowMask answers f = false := by simp [picks, hl]
      rw [hpicks]
      exact ⟨hleft, hadd none (fun l h => by cases h)⟩
    | some l =>
      simp only []
      by_cases hempty : l.isEmpty = true
      · -- The index left no row, so that none passes.
        have hpicks : picks request.rowMask answers f = false := by simp [picks, hl, hempty]
        have hnone : passingRows row deletedBy request.rowMask filter f = [] := by
          refine passingRows_eq_nil (fun p hp => Bool.eq_false_iff.mpr (fun htrue => ?_))
          have := (hanswers l hl).2 p (rowsOf_mask_subset _ f hp) htrue
          grind
        grind
      · have hpicks : picks request.rowMask answers f =
            (decide (l.length * 8 < f.physicalRows) && request.rowMask.isNone) := by grind [picks]
        rw [if_neg hempty, hpicks]
        simp only [show (plannedOf request.rowMask f).physicalRows = f.physicalRows from rfl]
        split
        · next hfew =>
          have hmask := Option.isNone_iff_eq_none.mp (Bool.and_eq_true_iff.mp hfew).2
          refine ⟨hleft.takeOut f.id, hadd (some l) (fun l' h => ⟨hmask, ?_⟩)⟩
          rw [hl]
          exact h
        · exact ⟨hleft, hadd none (fun l h => by cases h)⟩

/-- **One fragment added to a plan.** -/
theorem planFragment_rows {state : PlanState} (hleft : Left answers taken state.candidates)
    (hcursor : state.cursor + liveCount f ≤ 2 ^ 64 - 1)
    (hread : FilesRead store machine request.filter state.files rows) :
    ∃ after, planFragment request state f = .ok after ∧
      Left answers (if picks request.rowMask answers f then f.id :: taken else taken)
        after.candidates ∧
      after.cursor = state.cursor + liveCount f ∧
      FilesRead store machine request.filter after.files
        (rows ++ if f.id ∈ taken then [] else
          passingRows row deletedBy request.rowMask filter f) := by
  by_cases hfiles : f.files.isEmpty = true
  · -- No files: nothing is planned, and the fragment has no rows.
    have hnone : passingRows row deletedBy request.rowMask filter f = [] := by
      unfold passingRows rowsOf
      rw [if_pos hfiles]
      rfl
    have hpicks : picks request.rowMask answers f = false := by simp [picks, hfiles]
    refine ⟨state, if_pos hfiles, ?_, ?_, ?_⟩
    · rw [hpicks]
      exact hleft
    · rw [liveCount, if_pos hfiles]
      rfl
    · grind
  have hsome := Bool.eq_false_iff.mpr hfiles
  have hunranged : request.ranged = false := by simp [ScanRequest.ranged, hfilter]
  rw [planFragment_eq request hsome (hstored hsome).deleted_le.1 hcursor]
  by_cases hmask : (plannedOf request.rowMask f).maskKeep.any (fun keep => !keep.contains true) =
      true
  · -- The mask allows no row of the fragment.
    rcases masked_out deletedBy hmask with ⟨hmasked, hrows⟩
    have hpicks : picks request.rowMask answers f = false := by simp [picks, hmasked]
    have hnone : passingRows row deletedBy request.rowMask filter f = [] :=
      passingRows_eq_nil (by rw [hrows]; exact forall_mem_nil _)
    grind
  · have hplan := planWhole_rows machine request filter answers taken f hfilter hstored hpass
      hanswers htaken hsome hleft hread
    refine ⟨_, by rw [if_neg hmask, hunranged, if_neg (by decide)], hplan.1, rfl, hplan.2⟩

end Step

/-! ## A whole plan -/

/-- **All the fragments added to a plan.** -/
theorem planFragments_rows (machine : Machine) {request : ScanRequest R} {answers : Candidates}
    (hfilter : request.filter = some filter) {fragments : List DataFragment}
    (hstored : ∀ f ∈ fragments, f.files.isEmpty = false → Stored store row deletedBy f)
    (hpass : ∀ f ∈ fragments, ∀ p ∈ rowsOf deletedBy request.rowMask f, filter.passes (row f.id p) =
      .ok (filter.isTrue (row f.id p))) (hanswers : Answers row deletedBy filter answers fragments)
    (taken : List Nat) (htaken : ∀ id ∈ taken, (answers.find? id).isSome = true) (state : PlanState)
    (rows : Batch R) (hleft : Left answers taken state.candidates)
    (hcursor : state.cursor + (fragments.map liveCount).sum ≤ 2 ^ 64 - 1)
    (hread : FilesRead store machine request.filter state.files rows) :
    ∃ after, fragments.foldlM (planFragment request) state = .ok after ∧
      FilesRead store machine request.filter after.files
        (rows ++ takenRows row deletedBy request.rowMask filter answers taken fragments) := by
  induction fragments generalizing taken state rows with
  | nil => exact ⟨state, rfl, by rw [takenRows, append_nil]; exact hread⟩
  | cons f fragments ih =>
    rw [map_cons, sum_cons] at hcursor
    rcases planFragment_rows machine request filter answers taken f hfilter
      (hstored f (.head _)) (hpass f (.head _)) (hanswers f (.head _))
      htaken hleft (by omega) hread with ⟨mid, hmid, hleft', hcursor', hread'⟩
    have htaken' : ∀ id ∈ (if picks request.rowMask answers f then f.id :: taken else taken),
        (answers.find? id).isSome = true := by
      intro id hid
      split at hid
      · next hpicks =>
        rcases mem_cons.mp hid with rfl | hid
        · unfold picks at hpicks
          rw [Bool.and_eq_true] at hpicks
          cases hfind : answers.find? f.id with
          | none => grind
          | some l => rfl
        · exact htaken id hid
      · exact htaken id hid
    rcases ih (fun g hg => hstored g (.tail _ hg)) (fun g hg => hpass g (.tail _ hg))
      (fun g hg => hanswers g (.tail _ hg)) _ htaken' mid _ hleft'
      (by omega) hread' with ⟨after, hafter, hread''⟩
    refine ⟨after, ?_, ?_⟩
    · rw [foldlM_cons, hmid]
      exact hafter
    · rw [takenRows, ← append_assoc]
      exact hread''

variable {m : Manifest}

/-- **What a filtered scan returns.** -/
theorem scan_takenRows (machine : Machine) {request : ScanRequest R}
    (hfilter : request.filter = some filter) (hrange : request.range = {}) {answers : Candidates}
    {fragments : List DataFragment} (hfragments : readFragments request m = .ok fragments)
    (hstored : ∀ f ∈ fragments, f.files.isEmpty = false → Stored store row deletedBy f)
    (htotal : (fragments.map liveCount).sum < 2 ^ 64)
    (hpass : ∀ f ∈ fragments, ∀ p ∈ rowsOf deletedBy request.rowMask f, filter.passes (row f.id p) =
      .ok (filter.isTrue (row f.id p)))
    (hanswers : Answers row deletedBy filter (usedAnswers request m answers) fragments) :
    ∃ batches, scan store machine request m answers = .ok batches ∧
      batches.flatten = takenRows row deletedBy request.rowMask filter
        (usedAnswers request m answers) [] fragments := by
  rcases planFragments_rows machine hfilter hstored hpass hanswers [] nofun
    { candidates := usedAnswers request m answers } [] (fun id => by rw [if_neg not_mem_nil])
    (by rw [Nat.zero_add]; omega) (FilesRead.nil machine _) with ⟨after, hafter, batches, hread, hrows⟩
  have hunranged : request.ranged = false := by simp [ScanRequest.ranged, hfilter]
  have hplan : openReadPlan request m answers = .ok after.files :=
    (openReadPlan_eq_ok request m answers after.files).mpr
      ⟨fragments, after, hfragments, hafter, by rw [hunranged]; rfl, rfl⟩
  refine ⟨batches, ?_, hrows⟩
  have hpost : request.postRange = none := by
    simp [ScanRequest.postRange, RowRange.isWholeDataset, allRows, hrange]
  unfold scan readAllBatches
  simp [hplan, hread, hpost]

/-- A scan that reads every fragment through. -/
theorem wholeScan_ok {fragments : List DataFragment}
    (h : wholeScan row deletedBy mask filter fragments = .ok rows) :
    (∀ f ∈ fragments, ∀ p ∈ rowsOf deletedBy mask f,
      filter.passes (row f.id p) = .ok (filter.isTrue (row f.id p))) ∧
    rows = fragments.flatMap (passingRows row deletedBy mask filter) := by
  simp only [wholeScan, bind_eq_ok, pure_eq_ok] at h
  rcases h with ⟨parts, hparts, rfl⟩
  rw [mapM_eq_ok] at hparts
  rw [flatMap_def]
  induction hparts with
  | nil => exact ⟨forall_mem_nil _, rfl⟩
  | @cons f part fragments parts hpart _ ih =>
    simp only [bind_eq_ok, pure_eq_ok] at hpart
    rcases hpart with ⟨pass, hpass, rfl⟩
    have heach : ∀ p ∈ rowsOf deletedBy mask f,
        filter.passes (row f.id p) = .ok (filter.isTrue (row f.id p)) := by
      intro p hp
      rw [mapM_eq_ok, forall₂_map_left_iff] at hpass
      rcases (forall₂_partner hpass).1 p hp with ⟨b, -, hb⟩
      unfold Filter.isTrue
      rw [hb]
    have hflags : pass = (rowsOf deletedBy mask f).map (fun p => filter.isTrue (row f.id p)) := by
      have hok := mapM_ok filter.passes (fun r hr => by
          rcases mem_map.mp hr with ⟨p, hp, rfl⟩
          exact heach p hp)
      rw [hpass, map_map] at hok
      exact Except.ok.inj hok
    refine ⟨fun g hg => ?_, ?_⟩
    · grind
    · rw [map_cons, flatten_cons, flatten_cons, ih.2]
      congr 1
      unfold passingRows
      have hcompact := compact_map (fun p => filter.isTrue (row f.id p)) id
        (rowsOf deletedBy mask f)
      rw [map_id, map_id] at hcompact
      rw [hflags, hcompact]

/-! ## What is left out -/

section LeftOut

variable (row) (deletedBy) (mask : Option (Nat → Bool)) (filter : Filter R) (answers : Candidates)

theorem takenRows_length_le (taken : List Nat) (fragments : List DataFragment) :
    (takenRows row deletedBy mask filter answers taken fragments).length ≤
      (fragments.flatMap (passingRows row deletedBy mask filter)).length := by
  induction fragments generalizing taken with
  | nil => exact Nat.le_refl _
  | cons f fragments ih => grind [takenRows]

/-- **Nothing is left out** as long as no fragment with rows that pass is met
    again once its candidates are gone. -/
theorem takenRows_eq_iff (taken : List Nat) {fragments : List DataFragment}
    (hsame : ∀ f ∈ fragments, ∀ g ∈ fragments, f.id = g.id → f = g) :
    takenRows row deletedBy mask filter answers taken fragments =
        fragments.flatMap (passingRows row deletedBy mask filter) ↔
      ∀ f ∈ fragments, (f.id ∈ taken ∨
          (1 < (fragments.map (·.id)).count f.id ∧ picks mask answers f = true)) →
        passingRows row deletedBy mask filter f = [] := by
  induction fragments generalizing taken with
  | nil => exact ⟨fun _ => forall_mem_nil _, fun _ => rfl⟩
  | cons f fragments ih =>
    have hrest := ih (if picks mask answers f then f.id :: taken else taken)
      (fun g hg g' hg' => hsame g (.tail _ hg) g' (.tail _ hg'))
    -- The first fragment is whole, and so are the others.
    have hsplit : takenRows row deletedBy mask filter answers taken (f :: fragments) =
        (f :: fragments).flatMap (passingRows row deletedBy mask filter) ↔
        (f.id ∈ taken → passingRows row deletedBy mask filter f = []) ∧
        takenRows row deletedBy mask filter answers
          (if picks mask answers f then f.id :: taken else taken) fragments =
          fragments.flatMap (passingRows row deletedBy mask filter) := by
      rw [takenRows, flatMap_cons]
      by_cases hin : f.id ∈ taken
      · rw [if_pos hin, nil_append]
        refine ⟨fun heq => ?_, fun ⟨hnone, heq⟩ => by rw [hnone hin, nil_append, heq]⟩
        have hle := takenRows_length_le row deletedBy mask filter answers
          (if picks mask answers f then f.id :: taken else taken) fragments
        rw [heq, length_append] at hle
        grind
      · simp [hin]
    rw [hsplit, hrest]
    -- An id met again is gone when the first of its fragments is picked.
    have hcount : ∀ g ∈ fragments, 1 < ((f :: fragments).map (·.id)).count g.id ↔
        g.id = f.id ∨ 1 < (fragments.map (·.id)).count g.id := by
      intro g hg
      have hpos : 0 < (fragments.map (·.id)).count g.id :=
        count_pos_iff.mpr (mem_map_of_mem hg)
      grind
    have hgone : ∀ g ∈ fragments, (g.id ∈ (if picks mask answers f then f.id :: taken else taken) ∨
          (1 < (fragments.map (·.id)).count g.id ∧ picks mask answers g = true)) ↔
        (g.id ∈ taken ∨
          (1 < ((f :: fragments).map (·.id)).count g.id ∧ picks mask answers g = true)) := by
      intro g hg
      rw [hcount g hg]
      by_cases hid : g.id = f.id
      · grind
      · grind
    constructor
    · rintro ⟨hfirst, hothers⟩ g hg hlost
      rcases mem_cons.mp hg with rfl | hg
      · by_cases hin : g.id ∈ taken
        · exact hfirst hin
        · rcases hlost with hin' | ⟨hmany, hpicks⟩
          · exact absurd hin' hin
          · -- The fragment is met again further on.
            rw [map_cons, count_cons_self] at hmany
            have hpos : 0 < (fragments.map (·.id)).count g.id := by omega
            rcases mem_map.mp (count_pos_iff.mp hpos) with ⟨g', hg', hid⟩
            grind
      · exact hothers g hg ((hgone g hg).mpr hlost)
    · grind

end LeftOut

/-- A fragment id names one of the fragments a scan reads. -/
theorem readFragments_same {request : ScanRequest R} (hids : (m.fragments.map (·.id)).Nodup)
    {fragments : List DataFragment} (h : readFragments request m = .ok fragments) :
    ∀ f ∈ fragments, ∀ g ∈ fragments, f.id = g.id → f = g := by
  simp only [readFragments, bind_eq_ok, pure_eq_ok] at h
  rcases h with ⟨requested, hrequested, rfl⟩
  have hlisted : ∀ f ∈ requested, f ∈ m.fragments := by
    intro f hf
    unfold requestedFragments at hrequested
    split at hrequested
    · rw [mapM_eq_ok] at hrequested
      rcases (forall₂_partner hrequested).2 f hf with ⟨id, -, hid⟩
      split at hid
      · next g hg =>
        cases hid
        exact mem_of_find?_eq_some hg
      · cases hid
    · cases hrequested
      exact (mem_sortFragments f _).mp hf
  intro f hf g hg hid
  split at hf
  · next hinclude =>
    rw [if_pos hinclude] at hg
    rcases mem_map.mp hf with ⟨f', hf', rfl⟩
    rcases mem_map.mp hg with ⟨g', hg', rfl⟩
    rw [inj_on_of_nodup_map hids (hlisted f' hf') (hlisted g' hg') hid]
  · next hinclude =>
    rw [if_neg hinclude] at hg
    exact inj_on_of_nodup_map hids (hlisted f hf) (hlisted g hg) hid

end Plan

/-- **A filtered scan returns the rows that pass** exactly as long as no
    fragment with such a row is asked for again and read by its candidates. -/
theorem filtered_scan_rows_iff {R : Type} (store : Store R) (row : Nat → Nat → R)
    (deletedBy : Nat → List Nat) (machine : Machine) (request : ScanRequest R) (filter : Filter R)
    (hfilter : request.filter = some filter) (hrange : request.range = {}) (m : Manifest)
    (hids : (m.fragments.map (·.id)).Nodup) (answers : Candidates) (fragments : List DataFragment)
    (hfragments : readFragments request m = .ok fragments)
    (hstored : ∀ f ∈ fragments, f.files.isEmpty = false → Stored store row deletedBy f)
    (htotal : (fragments.map liveCount).sum < 2 ^ 64)
    (hanswers : Answers row deletedBy filter (usedAnswers request m answers) fragments)
    (rows : Batch R) (hwhole : wholeScan row deletedBy request.rowMask filter fragments = .ok rows) :
    (∃ batches, scan store machine request m answers = .ok batches ∧ batches.flatten = rows) ↔
      ∀ f ∈ fragments, 1 < (fragments.map (·.id)).count f.id →
        picks request.rowMask (usedAnswers request m answers) f = true →
        passingRows row deletedBy request.rowMask filter f = [] := by
  rcases wholeScan_ok hwhole with ⟨hpass, hrows⟩
  rcases scan_takenRows machine hfilter hrange hfragments hstored
    htotal hpass hanswers with ⟨batches, hscan, htaken⟩
  have hiff := takenRows_eq_iff row deletedBy request.rowMask filter
    (usedAnswers request m answers) []
    (readFragments_same hids hfragments)
  have hreturned : (∃ batches, scan store machine request m answers = .ok batches ∧
      batches.flatten = rows) ↔ batches.flatten = rows := by
    refine ⟨fun ⟨batches', hscan', heq⟩ => ?_, fun heq => ⟨batches, hscan, heq⟩⟩
    rw [hscan] at hscan'
    cases hscan'
    exact heq
  rw [hreturned, htaken, hrows, hiff]
  constructor
  · exact fun h f hf hmany hpicks => h f hf (.inr ⟨hmany, hpicks⟩)
  · rintro h f hf (hin | ⟨hmany, hpicks⟩)
    · nomatch hin
    · exact h f hf hmany hpicks

/-! ## A fragment asked for twice -/

def isThree : Filter Nat := ⟨fun r => .ok (r = 3), true, false⟩

def indexedNine : Manifest :=
  { fragments := [nineFragment], indices := [{ uuid := 0, name := "idx" }] }

/-- The row three of the fragments listed. -/
def threeOf (ids : List Nat) : ScanRequest Nat :=
  { fragmentIds := some ids, filter := some isThree }

theorem nineFragment_answers (fragments : List DataFragment)
    (h : ∀ f ∈ fragments, f = nineFragment) :
    Answers (fun _ p => p) (fun _ => []) isThree [(0, [3])] fragments := by
  intro f hf candidates hfind
  rw [h f hf] at hfind ⊢
  cases hfind
  exact ⟨pairwise_singleton _ _, by decide⟩

/-- The second time a fragment is asked for, its row that passes is not
    returned: its candidates are gone. -/
theorem repeated_fragment_left_out :
    readFragments (threeOf [0, 0]) indexedNine = .ok [nineFragment, nineFragment] ∧
    Stored nineRows (fun _ p => p) (fun _ => []) nineFragment ∧
    Answers (fun _ p => p) (fun _ => []) isThree
      (usedAnswers (threeOf [0, 0]) indexedNine [(0, [3])]) [nineFragment, nineFragment] ∧
    wholeScan (fun _ p => p) (fun _ => []) none isThree [nineFragment, nineFragment] =
      .ok [(3, 3), (3, 3)] ∧
    scan nineRows oneThread (threeOf [0, 0]) indexedNine [(0, [3])] = .ok [[(3, 3)]] :=
  ⟨rfl, nineFragment_stored, nineFragment_answers _ (by decide), rfl, rfl⟩

/-- Asked for once, it is read whole. -/
theorem filtered_scan_rows_once :
    ∃ batches, scan nineRows oneThread (threeOf [0]) indexedNine [(0, [3])] = .ok batches ∧
      batches.flatten = [(3, 3)] :=
  (filtered_scan_rows_iff nineRows (fun _ p => p) (fun _ => []) oneThread (threeOf [0]) isThree rfl
    rfl indexedNine (by decide) [(0, [3])] [nineFragment] rfl
    (fun f hf _ => by rw [mem_singleton.mp hf]; exact nineFragment_stored) (by decide)
    (nineFragment_answers _ (by decide)) [(3, 3)] rfl).mpr
    (fun f hf hmany => by
      rw [mem_singleton.mp hf] at hmany
      exact absurd hmany (by decide))

end Scan

end NanoLance
