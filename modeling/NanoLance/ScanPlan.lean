import NanoLance.ScanRows

/-!
# The Plan of a Scan

A plan goes over the fragments asked for, in order, and gives a planned file
for each that has data files and rows a mask allows. What is planned of a
fragment is the same value for every request (`plannedOf`), to which a row range
adds how much of it is wanted and an index which rows to look at.

`Stored` is what the rest of the development assumes of a dataset: a fragment's
data files and deletion file hold what the manifest says of them.
-/

namespace NanoLance

namespace Scan

open List Lib

section Fragments

variable {R : Type} (store : Store R) (row : Nat → Nat → R) (deletedBy : Nat → List Nat)

/-- The files of a fragment hold the rows the manifest says, and its deletion
    file as many of their offsets as the manifest says. -/
structure Stored (f : DataFragment) : Prop where
  decodes : Decodes store row f.id f.physicalRows
  deletions : ∀ file, f.deletionFile = some file →
    store.deleted f.id = .ok (deletedBy f.id) ∧ (deletedBy f.id).Nodup ∧
      (∀ p ∈ deletedBy f.id, p < f.physicalRows) ∧
      file.numDeletedRows = (deletedBy f.id).length

/-- The deleted rows of a fragment. -/
def deletedFrom (f : DataFragment) : List Nat :=
  match f.deletionFile with
  | none => []
  | some _ => deletedBy f.id

/-- The rows of a fragment that are not deleted, and that a mask allows. -/
def rowsOf (mask : Option (Nat → Bool)) (f : DataFragment) : List Nat :=
  if f.files.isEmpty then []
  else (range f.physicalRows).filter (fun p =>
    decide (p ∉ deletedFrom deletedBy f) && mask.all (fun allows => allows (rowAddress f.id p)))

/-- The candidates a request makes use of. -/
def usedAnswers (request : ScanRequest R) (m : Manifest) (answers : Candidates) : Candidates :=
  if request.filter.isSome && request.useScalarIndex && !request.includeDeletedRows &&
    !m.indices.isEmpty then answers else []

/-- The fragments a request reads, as it reads them. -/
def readFragments (request : ScanRequest R) (m : Manifest) : Except String (List DataFragment) := do
  let fragments ← requestedFragments m request.fragmentIds
  return if request.includeDeletedRows then
    fragments.map (fun f => { f with deletionFile := none }) else fragments

end Fragments

/-! ## Planned files -/

variable (mask : Option (Nat → Bool))

variable {f : DataFragment}

section Plan

variable {R : Type} {store : Store R} {row : Nat → Nat → R} {deletedBy : Nat → List Nat}

/-- Planned files that are read to `rows`. -/
def FilesRead (store : Store R) (machine : Machine) (filter : Option (Filter R))
    (files : List PlannedFile) (rows : Batch R) : Prop :=
  ∃ batches, readFiles store machine filter files = .ok batches ∧ batches.flatten = rows

theorem FilesRead.nil (machine : Machine) (filter : Option (Filter R)) :
    FilesRead store machine filter [] [] := ⟨[], rfl, rfl⟩

theorem FilesRead.concat {machine : Machine} {filter : Option (Filter R)}
    {files : List PlannedFile} {rows : Batch R} (h : FilesRead store machine filter files rows)
    (planned : PlannedFile) (batches : List (Batch R))
    (hread : readDataFileBatches store machine planned filter = .ok batches) :
    FilesRead store machine filter (files ++ [planned])
      (rows ++ addressed planned.fragmentId batches.flatten) := by
  rcases h with ⟨earlier, hearlier, hrows⟩
  simp only [readFiles, bind_eq_ok, pure_eq_ok] at hearlier
  rcases hearlier with ⟨parts, hparts, rfl⟩
  refine ⟨(parts ++ [batches.map (addressed planned.fragmentId)]).flatten, ?_, ?_⟩
  · have hall : (files ++ [planned]).mapM (fun planned => do
        let batches ← readDataFileBatches store machine planned filter
        return batches.map (addressed planned.fragmentId)) =
        .ok (parts ++ [batches.map (addressed planned.fragmentId)]) := by
      rw [mapM_eq_ok] at hparts ⊢
      refine rel_append hparts (List.Forall₂.cons ?_ List.Forall₂.nil)
      simp [hread]
    unfold readFiles
    rw [hall]
    rfl
  · rw [flatten_append, flatten_append, hrows]
    simp only [flatten_cons, flatten_nil, append_nil]
    unfold addressed
    rw [map_flatten]

/-- The flags of a mask, and the rows it allows. -/
theorem maskFlag {p : Nat} (hp : p < f.physicalRows) :
    (mask.map (fun allows => (range f.physicalRows).map
      (fun r => allows (rowAddress f.id r)))).all (fun m => m.getD p false) =
      mask.all (fun allows => allows (rowAddress f.id p)) := by
  cases mask with
  | none => rfl
  | some allows => simp [hp]

/-- The file planned for a fragment that is read through. -/
def plannedOf (mask : Option (Nat → Bool)) (f : DataFragment) : PlannedFile where
  fragmentId := f.id
  deletionFile := f.deletionFile
  physicalRows := f.physicalRows
  rows := f.physicalRows - (f.deletionFile.map (·.numDeletedRows)).getD 0
  take := f.physicalRows - (f.deletionFile.map (·.numDeletedRows)).getD 0
  maskKeep := mask.map (fun allows =>
    (range f.physicalRows).map (fun r => allows (rowAddress f.id r)))

theorem plannedOf_part (f : DataFragment) :
    (plannedOf mask f).part = false := by simp [PlannedFile.part, plannedOf]

theorem Stored.deleted_le (h : Stored store row deletedBy f) :
    (f.deletionFile.map (·.numDeletedRows)).getD 0 ≤ f.physicalRows ∧
    f.physicalRows - (f.deletionFile.map (·.numDeletedRows)).getD 0 =
      ((range f.physicalRows).filter
        (fun p => decide (p ∉ deletedFrom deletedBy f))).length := by
  unfold deletedFrom
  cases hfile : f.deletionFile with
  | none => simp
  | some file =>
    rcases h.deletions file hfile with ⟨-, hnodup, hwithin, hcount⟩
    simp only [Option.map_some, Option.getD_some, hcount]
    -- The deleted rows and the others are all of them.
    have hsplit := length_eq_length_filter_add (l := range f.physicalRows)
      (fun p => decide (p ∈ deletedBy f.id))
    have hperm : ((range f.physicalRows).filter (fun p => decide (p ∈ deletedBy f.id))).Perm
        (deletedBy f.id) := by
      refine (perm_ext_iff_of_nodup (nodup_range.filter _) hnodup).mpr (fun p => ?_)
      grind
    have hnot : (range f.physicalRows).filter (fun p => !decide (p ∈ deletedBy f.id)) =
        (range f.physicalRows).filter (fun p => decide (p ∉ deletedBy f.id)) :=
      filter_congr (fun p _ => by rw [decide_not])
    rw [hnot, hperm.length_eq, length_range] at hsplit
    omega

/-- A part of a fragment is planned only without a mask, and within its rows. -/
theorem Stored.reads (h : Stored store row deletedBy f) (mask : Option (Nat → Bool))
    (candidates : Option (List Nat)) (skip take : Nat)
    (hpart : (plannedOf mask f).skip = skip ∧ (plannedOf mask f).take = take ∨ mask = none ∧
      skip + take ≤ (plannedOf mask f).rows) :
    Reads store row { plannedOf mask f with candidates := candidates, skip := skip, take := take }
      (deletedFrom deletedBy f) := by
  refine ⟨h.decodes, ?_, ?_, h.deleted_le.2, ?_, ?_⟩
  · unfold deletedOf deletedFrom
    cases hfile : f.deletionFile with
    | none => simp only [plannedOf, hfile]
    | some file =>
      simp only [plannedOf, hfile]
      exact (h.deletions file hfile).1
  · unfold deletedFrom
    cases hfile : f.deletionFile with
    | none => exact fun p hp => absurd hp not_mem_nil
    | some file => exact (h.deletions file hfile).2.2.1
  · intro m hm
    rcases Option.map_eq_some_iff.mp hm with ⟨allows, -, rfl⟩
    rw [length_map, length_range]
    rfl
  · intro hp
    rcases hpart with ⟨rfl, rfl⟩ | ⟨rfl, hle⟩
    · exact absurd hp (Bool.eq_false_iff.mp (plannedOf_part mask f))
    · exact ⟨rfl, hle⟩

theorem liveRows_planned (candidates : Option (List Nat)) (skip take : Nat)
    (hfiles : f.files.isEmpty = false) :
    liveRows { plannedOf mask f with candidates := candidates, skip := skip, take := take }
      (deletedFrom deletedBy f) = rowsOf deletedBy mask f := by
  unfold liveRows rowsOf
  rw [hfiles, if_neg (by decide)]
  refine filter_congr (fun p hp => ?_)
  congr 1
  exact maskFlag mask (mem_range.mp hp)

theorem rowsOf_mask_subset (f : DataFragment) :
    rowsOf deletedBy mask f ⊆ rowsOf deletedBy none f := by
  intro p hp
  grind [rowsOf]

/-- The rows live in a fragment, by its manifest entry. -/
def liveCount (f : DataFragment) : Nat :=
  if f.files.isEmpty then 0
  else f.physicalRows - (f.deletionFile.map (·.numDeletedRows)).getD 0

/-- A fragment with files, added to a plan. -/
theorem planFragment_eq (request : ScanRequest R) {state : PlanState}
    (hfiles : f.files.isEmpty = false)
    (hdeleted : (f.deletionFile.map (·.numDeletedRows)).getD 0 ≤ f.physicalRows)
    (hcursor : state.cursor + liveCount f ≤ 2 ^ 64 - 1) :
    planFragment request state f = .ok (
      if (plannedOf request.rowMask f).maskKeep.any (fun keep => !keep.contains true) then
        { state with cursor := state.cursor + liveCount f }
      else if request.ranged then
        { state with
          cursor := state.cursor + liveCount f
          files := state.files ++
            (planRange request.range state.cursor (plannedOf request.rowMask f)).toList }
      else
        { candidates := (planWhole request state.candidates (plannedOf request.rowMask f)).1
          cursor := state.cursor + liveCount f
          files := state.files ++
            (planWhole request state.candidates (plannedOf request.rowMask f)).2.toList }) := by
  have hnot : ¬ f.files.isEmpty = true := Bool.eq_false_iff.mp hfiles
  have hlive : liveCount f = f.physicalRows - (f.deletionFile.map (·.numDeletedRows)).getD 0 := by
    rw [liveCount, if_neg hnot]
  have hcount : (!decide (f.physicalRows <
      (f.deletionFile.map (·.numDeletedRows)).getD 0)) = true := by grind
  have hbound : (!decide (2 ^ 64 - 1 - state.cursor <
      f.physicalRows - (f.deletionFile.map (·.numDeletedRows)).getD 0)) = true := by
    rw [← hlive, decide_eq_false (by omega)]
    rfl
  unfold planFragment
  rw [if_neg hnot, hlive]
  simp only [hcount, hbound, ensure, if_true, bind, Except.bind, pure, Except.pure]
  by_cases hmask : (plannedOf request.rowMask f).maskKeep.any (fun keep => !keep.contains true) =
      true
  · rw [if_pos hmask]
    exact if_pos hmask
  · rw [if_neg hmask]
    refine (if_neg hmask).trans ?_
    by_cases hranged : request.ranged = true
    · rw [if_pos hranged, if_pos hranged]
      rfl
    · rw [if_neg hranged, if_neg hranged]
      rfl

/-- A fragment all of whose rows are masked out has none. -/
theorem masked_out (deletedBy : Nat → List Nat) {mask : Option (Nat → Bool)}
    (h : (plannedOf mask f).maskKeep.any (fun keep => !keep.contains true) = true) :
    mask.isNone = false ∧ rowsOf deletedBy mask f = [] := by
  cases mask with
  | none => cases h
  | some allows =>
    refine ⟨rfl, ?_⟩
    have hno : ∀ p < f.physicalRows, allows (rowAddress f.id p) = false := by
      intro p hp
      grind [plannedOf]
    unfold rowsOf
    split
    · rfl
    · rw [filter_eq_nil_iff]
      grind

/-- A whole plan: the fragments are added one after the other, and a row range
    may not start past the last of them. -/
theorem openReadPlan_eq_ok (request : ScanRequest R) (m : Manifest) (answers : Candidates)
    (files : List PlannedFile) :
    openReadPlan request m answers = .ok files ↔
      ∃ fragments state, readFragments request m = .ok fragments ∧
        fragments.foldlM (planFragment request)
          { candidates := usedAnswers request m answers } = .ok state ∧
        (!(request.ranged && decide (state.cursor < request.range.offset))) = true ∧
        state.files = files := by
  simp only [openReadPlan, readFragments, bind_eq_ok, pure_eq_ok, ensure_eq_ok]
  constructor
  · rintro ⟨requested, hrequested, state, hstate, -, hoffset, hfiles⟩
    exact ⟨_, state, ⟨requested, hrequested, rfl⟩, hstate, hoffset, hfiles⟩
  · rintro ⟨_, state, ⟨requested, hrequested, rfl⟩, hstate, hoffset, hfiles⟩
    exact ⟨requested, hrequested, state, hstate, (), hoffset, hfiles⟩

end Plan

/-! ## A stored fragment -/

/-- Fragments of nine rows, each its own offset. -/
def nineRows : Store Nat where
  lengths _ := [9]
  deleted _ := .ok []
  columns _ _ := []
  whole _ := .ok (range 9)
  range _ first count := .ok (range' first count)
  rows _ picked := .ok picked

def oneThread : Machine := ⟨1, 0, fun _ _ => false⟩

def nineFragment : DataFragment :=
  { id := 0, files := [{ path := "data", fields := [0] }], physicalRows := 9 }

theorem nineFragment_stored :
    Stored nineRows (fun _ p => p) (fun _ => []) nineFragment := by
  refine ⟨⟨⟨by decide, by decide⟩, rfl, fun first count _ => ?_, fun picked _ _ => ?_⟩, ?_⟩
  · rw [map_id']
    rfl
  · rw [map_id']
    rfl
  · intro file h
    cases h

end Scan

end NanoLance
