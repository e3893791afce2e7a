import NanoLance.Manifest

/-!
# Index Maintenance

What a commit does to the indices it carries over. A segment whose fields left
the schema goes, and so does a segment that covers none of the dataset's
fragments, unless it is the last one of its name.

The two system indices are never dropped for their fields, and the fragment
reuse index is never dropped at all. A segment without a coverage bitmap has
unknown coverage, which is not empty coverage.

## Main definitions

* `isSystemIndex`: An index the table layer keeps for itself.

## Theorems

* `mem_retainRelevantIndices`: A retained index is one of the old ones.
* `mem_retain_of_covers`: An index on live fields that covers a fragment is
  retained.
-/

namespace NanoLance

open List

/-- `__lance_frag_reuse`. -/
def fragReuseIndex : String := "__lance_frag_reuse"

/-- `__lance_mem_wal`. -/
def memWalIndex : String := "__lance_mem_wal"

def isSystemIndex (index : IndexMetadata) : Bool :=
  index.name = fragReuseIndex || index.name = memWalIndex

/-- Every field of the index is in the schema. -/
def fieldsLive (fields : List Field) (index : IndexMetadata) : Bool :=
  index.fields.all (fun id => fields.any (fun f => f.id = id))

/-- None of the fragments the segment covers exists. Coverage holds 32-bit
    ids, so the fragments' ids are cut to 32 bits for the comparison. -/
def coversNothing (fragments : List DataFragment) (index : IndexMetadata) : Bool :=
  index.fragmentIds.all (fun id => !fragments.any (fun f => f.id % 2 ^ 32 = id))

/-- Coverage known, and not the fragment reuse index: the segments that are
    weighed against the others of their name. -/
def weighed (index : IndexMetadata) : Bool :=
  index.hasFragmentBitmap && index.name ≠ fragReuseIndex

/-- The oldest of some segments with their positions, the first of equals. -/
def oldest : List (IndexMetadata × Nat) → Option (IndexMetadata × Nat)
  | [] => none
  | x :: rest =>
    match oldest rest with
    | none => some x
    | some y => if y.1.datasetVersion < x.1.datasetVersion then some y else some x

/-- The verdict on the segment at one position: kept when it is not weighed,
    when it is alone under its name, when it covers a fragment, and, where no
    segment of the name covers one, when it is the oldest. -/
def keepSegment (fragments : List DataFragment) (indices : List IndexMetadata)
    (segment : IndexMetadata × Nat) : Bool :=
  if !weighed segment.1 then true
  else
    let segments := indices.zipIdx.filter (fun s => weighed s.1 && s.1.name = segment.1.name)
    if segments.length = 1 then true
    else if segments.any (fun s => !coversNothing fragments s.1) then
      !coversNothing fragments segment.1
    else (oldest segments).map Prod.snd = some segment.2

/-- The indices a commit carries over. -/
def retainRelevantIndices (indices : List IndexMetadata) (fields : List Field)
    (fragments : List DataFragment) : List IndexMetadata :=
  let live := indices.filter (fun i => isSystemIndex i || fieldsLive fields i)
  (live.zipIdx.filter (keepSegment fragments live)).map Prod.fst

/-- Coverage without the fragments of `gone`. -/
def dropFragmentsFromIndices (indices : List IndexMetadata) (gone : List Nat) :
    List IndexMetadata :=
  indices.map (fun index =>
    if !index.hasFragmentBitmap then index
    else
      let ids := index.fragmentIds.filter (fun id => id ∉ gone)
      if ids.length ≠ index.fragmentIds.length then
        { index with fragmentIds := ids, fragmentBitmapChanged := true }
      else index)

/-- The first id above every covered one. Coverage is ascending, so the source
    looks at the last id of each segment only. -/
def firstFragmentIdAfterIndices (indices : List IndexMetadata) : Nat :=
  indices.foldl (fun next index =>
    match index.fragmentIds.getLast? with
    | none => next
    | some id => max next (id + 1)) 0

variable {fragments : List DataFragment} {index : IndexMetadata} {indices : List IndexMetadata}

theorem mem_retainRelevantIndices {fields : List Field}
    (h : index ∈ retainRelevantIndices indices fields fragments) :
    index ∈ indices ∧ (isSystemIndex index || fieldsLive fields index) = true := by
  rw [retainRelevantIndices] at h
  rcases mem_map.mp h with ⟨⟨i, pos⟩, hmem, rfl⟩
  have hlive := fst_mem_of_mem_zipIdx (mem_of_mem_filter hmem)
  exact mem_filter.mp hlive

/-- A segment that covers a fragment is kept, whatever else has its name. -/
theorem keepSegment_of_covers {segment : IndexMetadata × Nat} (hmem : segment ∈ indices.zipIdx)
    (hcov : coversNothing fragments segment.1 = false) :
    keepSegment fragments indices segment = true := by
  rw [keepSegment]
  by_cases hw : weighed segment.1 = true
  · rw [if_neg (by rw [hw]; decide)]
    simp only []
    split
    · rfl
    · grind
  · rw [if_pos (by simpa using hw)]

theorem mem_retain_of_covers {fields : List Field} {fragments : List DataFragment}
    (hmem : index ∈ indices) (hlive : (isSystemIndex index || fieldsLive fields index) = true)
    (hcov : coversNothing fragments index = false) :
    index ∈ retainRelevantIndices indices fields fragments := by
  have hfil : index ∈ indices.filter (fun i => isSystemIndex i || fieldsLive fields i) :=
    mem_filter.mpr ⟨hmem, hlive⟩
  rcases mem_iff_getElem.mp hfil with ⟨n, hn, hget⟩
  have hz : (index, n) ∈
      (indices.filter (fun i => isSystemIndex i || fieldsLive fields i)).zipIdx := by
    rw [mk_mem_zipIdx_iff_getElem?, getElem?_eq_getElem hn, hget]
  rw [retainRelevantIndices]
  exact mem_map.mpr ⟨(index, n), mem_filter.mpr ⟨hz, keepSegment_of_covers hz hcov⟩, rfl⟩

end NanoLance
