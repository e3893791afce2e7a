import NanoLance.FragmentIds

/-!
# Concurrent Deletions

A Delete or a row-rewriting Update that lost the race to other Deletes and
Updates is not made again: `merge_deletion_vectors` reads what the others
deleted from each fragment it touches, refuses when a row it deletes is among
them, and otherwise gives the fragment a deletion file with both sets of rows.
A fragment left with no row goes. The merged operation is then rebased.

What the files of the deletions hold is read through `DeletionFiles`, of which
only `ReadsBack` is known: a read is ascending, and a written file reads as
the rows it was written from.

## Theorems

* `mergeUpdated_ok`: The fragments and the removals of a merged operation.
* `deletions_merge`: The result is the union, and an overlap is a conflict.
-/

namespace NanoLance

open List Lib

/-- The deletion files of a dataset: the rows a file lists, and the id under which rows are written.
    Names are drawn at random, so a file is written once. -/
structure DeletionFiles where
  rows : List BasePath → Nat → DeletionFile → Except String (List Nat)
  put : Nat → Nat → List Nat → Except String Nat

/-- A fragment without a deletion file has no deleted rows. -/
def readDeletionVector (files : DeletionFiles) (bases : List BasePath) (id : Nat) :
    Option DeletionFile → Except String (List Nat)
  | none => .ok []
  | some file => files.rows bases id file

def writeDeletionFile (files : DeletionFiles) (id version : Nat) (rows : List Nat) :
    Except String DeletionFile := do
  let name ← files.put id version rows
  return { fileType := 0, readVersion := version, id := name, numDeletedRows := rows.length }

def retryableError (version : Nat) (ours theirs : String) : String :=
  s!"commit conflict: Retryable commit conflict for version {version}: This {ours} transaction " ++
    s!"was preempted by concurrent transaction {theirs} at version {version}. Please retry."

/-- The first addresses of the rows two changes both deleted. -/
def sharedAddresses (id : Nat) (both : List Nat) : String :=
  ", ".intercalate ((both.take 5).map (fun row => toString ((id <<< 32) % 2 ^ 64 ||| row)))

def preemptedError (version : Nat) (ours theirs addresses : String) : String :=
  s!"commit conflict: This {ours} transaction was preempted by concurrent transaction {theirs} " ++
    s!"at version {version} (both modified rows at addresses [{addresses}]). Please retry."

def isConflict (error : String) : Bool :=
  "commit conflict".toList.isPrefixOf error.toList

section Merge

variable (files : DeletionFiles) (base latest : Manifest) (latestVersion : Nat)
  (affected : Nat → List Nat) (theirsName : String)

/-- The union of the latest deletions of a fragment and the affected rows; empty where no one
    changed its deletion file since the base. -/
def mergeFragment (oursName : String) (id : Nat) : Except String (List Nat) :=
  match base.fragment? id, latest.fragment? id with
  | some was, some now =>
    if was.deletionFile = now.deletionFile then .ok []
    else do
      let existing ← readDeletionVector files latest.bases id now.deletionFile
      let ours := ascending (affected id)
      let both := existing.filter (fun row => row ∈ ours)
      Lib.ensure both.isEmpty
        (preemptedError latestVersion oursName theirsName (sharedAddresses id both))
      return ascending (existing ++ ours)
  | _, _ => .error (retryableError latestVersion oursName theirsName)

/-- The removed fragments are checked only. -/
def checkRemoved (oursName : String) : List Nat → Except String Unit
  | [] => .ok ()
  | id :: rest => do
    let _ ← mergeFragment files base latest latestVersion affected theirsName oursName id
    checkRemoved oursName rest

/-- The updated fragments, each with the merged deletions, and the removed ids with those of the
    fragments that have no row left. -/
def mergeUpdated (oursName : String) :
    List DataFragment → List Nat → Except String (List DataFragment × List Nat)
  | [], removed => .ok ([], removed)
  | u :: rest, removed => do
    let merged ← mergeFragment files base latest latestVersion affected theirsName oursName u.id
    if merged.isEmpty then
      let out ← mergeUpdated oursName rest removed
      return (u :: out.1, out.2)
    else if ((latest.fragment? u.id).map (·.physicalRows)).getD 0 ≤ merged.length then
      mergeUpdated oursName rest (removed ++ [u.id])
    else
      let file ← writeDeletionFile files u.id latestVersion merged
      let out ← mergeUpdated oursName rest removed
      return ({ u with deletionFile := some file } :: out.1, out.2)

/-- The change with the others' deletions merged into its own. -/
def mergeDeletionVectors (mine : Operation) : Except String Operation := do
  let oursName := operationName mine.kind
  checkRemoved files base latest latestVersion affected theirsName oursName mine.removedIds
  let out ← mergeUpdated files base latest latestVersion affected theirsName oursName
    mine.updatedFragments mine.removedIds
  return { mine with updatedFragments := out.1, removedIds := out.2 }

end Merge

/-- Reads ascend, and what was written reads back. -/
structure ReadsBack (files : DeletionFiles) : Prop where
  sorted : ∀ bases id file rows, files.rows bases id file = .ok rows → rows.Pairwise (· < ·)
  back : ∀ bases id version rows file, rows.Pairwise (· < ·) →
    writeDeletionFile files id version rows = .ok file → files.rows bases id file = .ok rows

/-- What of a fragment says which rows it has. -/
def rowsOf (f : DataFragment) : Nat × Option DeletionFile := (f.physicalRows, f.deletionFile)

/-- The rows of the fragment with an id. -/
def rowsAt (m : Manifest) (id : Nat) : Option (Nat × Option DeletionFile) :=
  (m.fragment? id).map rowsOf

/-- A row of fragment `id` that is deleted in `m`: all are when the fragment is gone. -/
def DeletedRow (files : DeletionFiles) (m : Manifest) (id row : Nat) : Prop :=
  match rowsAt m id with
  | none => True
  | some (_, file) => ∃ rows, readDeletionVector files m.bases id file = .ok rows ∧ row ∈ rows

/-- A deletion file that reads, with rows of the fragment, and not with all. -/
def KeepsARow (files : DeletionFiles) (bases : List BasePath) (id count : Nat)
    (file : Option DeletionFile) : Prop :=
  ∃ rows, readDeletionVector files bases id file = .ok rows ∧ (∀ r ∈ rows, r < count) ∧
    ∃ r, r < count ∧ r ∉ rows

/-- Every fragment has a row left, and the mark is above every id. -/
structure WellDeleted (files : DeletionFiles) (m : Manifest) : Prop where
  keeps : ∀ id count file, rowsAt m id = some (count, file) → KeepsARow files m.bases id count file
  marked : ∀ f ∈ m.fragments, Below m f.id
  small : ∀ top, m.maxFragmentId = some top → top < 2 ^ 32

/-- A change made from `base` that deletes the affected rows, all of them live: a fragment left
    without a row is removed, and of one that is carried the deletion file lists the base's
    deletions and the affected rows. -/
structure DeletesRows (files : DeletionFiles) (base : Manifest) (affected : Nat → List Nat)
    (ours : Operation) : Prop where
  kind : ours.kind = .delete ∨ ours.kind = .update
  live : ∀ id count file, rowsAt base id = some (count, file) → ∀ r ∈ affected id,
    r < count ∧ ¬ DeletedRow files base id r
  removed : ∀ id count file, rowsAt base id = some (count, file) →
    (id ∈ ours.removedIds ↔ ∀ r < count, DeletedRow files base id r ∨ r ∈ affected id)
  touched : ∀ id, affected id ≠ [] → id ∈ deleteUpdateIds ours
  carries : ∀ u ∈ ours.updatedFragments, ∀ count file, rowsAt base u.id = some (count, file) →
    u.physicalRows = count ∧ ∃ rows, readDeletionVector files base.bases u.id u.deletionFile =
      .ok rows ∧ ∀ r, r ∈ rows ↔ DeletedRow files base u.id r ∨ r ∈ affected u.id

/-- A Delete or an Update made on `m`: no fragment it carries has other rows or fewer deletions than
    before, or none left, and those it adds are new. -/
structure OnlyDeletes (files : DeletionFiles) (m : Manifest) (op : Operation) : Prop where
  kind : op.kind = .delete ∨ op.kind = .update
  carries : ∀ u ∈ op.updatedFragments, ∀ count file, rowsAt m u.id = some (count, file) →
    u.physicalRows = count ∧ KeepsARow files m.bases u.id count u.deletionFile ∧
      ∀ r, DeletedRow files m u.id r →
        ∃ rows, readDeletionVector files m.bases u.id u.deletionFile = .ok rows ∧ r ∈ rows
  added : ∀ f ∈ op.fragments, f.id = 0 ∨ nextFragmentId m ≤ f.id
  small : ∀ f ∈ (assignIds op.fragments (nextFragmentId m)).1, f.id < 2 ^ 32

/-- The versions reached from `base` by Deletes and Updates that are compatible with `ours`. -/
inductive RowChanges (files : DeletionFiles) (base : Manifest) (ours : Operation) : Manifest → Prop
  | base : RowChanges files base ours base
  | step (m next : Manifest) (op : Operation) (version : Nat)
      (before : RowChanges files base ours m) (deletes : OnlyDeletes files m op)
      (compatible : checkTxnWithAffectedRows ours op base = .compatible)
      (applied : applyOperation (some m) op false version = .ok next) :
      RowChanges files base ours next

/-- Fragment `id`, which had `count` rows, with the latest deletions and the affected rows deleted:
    gone exactly when that is all of them, and with a deletion file of exactly these rows otherwise;
    no affected row was deleted by the others. -/
structure MergedRows (files : DeletionFiles) (latest result : Manifest) (id count : Nat)
    (affected : List Nat) : Prop where
  absent : rowsAt result id = none ↔ ∀ r < count, DeletedRow files latest id r ∨ r ∈ affected
  present : ∀ count' file, rowsAt result id = some (count', file) → count' = count ∧
    ∃ rows, readDeletionVector files result.bases id file = .ok rows ∧
      ∀ r, r ∈ rows ↔ DeletedRow files latest id r ∨ r ∈ affected
  disjoint : ∀ r ∈ affected, ¬ DeletedRow files latest id r

variable {stable : Bool} {base : Manifest} {id count latestVersion : Nat} {ours : Operation}
  {file : Option DeletionFile} {merged : List Nat} {affected : Nat → List Nat} {theirsName : String}

variable {version : Nat}

/-- Appended fragments come after the others, under the ids they were given. -/
theorem appendFragments_after {next out : Manifest} {fragments : List DataFragment} {nextId : Nat}
    (h : appendFragments next fragments nextId stable version = .ok out) :
    out.bases = next.bases ∧ ∃ added, out.fragments = next.fragments ++ added ∧
      added.map (·.id) = (assignIds fragments nextId).1.map (·.id) := by
  rw [appendFragments] at h
  cases stable with
  | false => grind [pure_eq_ok]
  | true =>
    simp only [if_true, bind_eq_ok, pure_eq_ok] at h
    rcases h with ⟨stamped, hstamp, rfl⟩
    exact ⟨rfl, stamped.1, rfl, stampMissingRowMeta_ids _ _ stamped hstamp⟩

/-- The rows an Update leaves in the fragments it does not remove. -/
theorem updateFragments_rows {next : Manifest} {op : Operation} {kept : List DataFragment}
    (h : updateFragments next op stable version = .ok kept) (id : Nat) :
    (kept.find? (fun f => f.id = id)).map rowsOf = if id ∈ op.removedIds then none
      else (next.fragment? id).map
        (fun f => rowsOf ((op.updatedFragments.find? (fun f => f.id = id)).getD f)) := by
  have hfind := find_substitute op.removedIds
    (fun id => op.updatedFragments.find? (fun f => f.id = id))
    (fun id u hu => key_of_find hu) id next.fragments
  have hrows : (kept.find? (fun f => f.id = id)).map rowsOf =
      ((substitute op.removedIds (fun id => op.updatedFragments.find? (fun f => f.id = id))
        next.fragments).find? (fun f => f.id = id)).map rowsOf := by
    unfold updateFragments at h
    simp only [] at h
    split at h
    · -- A stamp does not touch rows, so the keyed rows are the same.
      rw [map_find_key (fun f : DataFragment => f.id) rowsOf,
        map_find_key (fun f : DataFragment => f.id) rowsOf,
        stampUpdatedRows_map (fun _ _ => rfl) _ _ kept h]
    · rw [← Except.ok.inj h]
  rw [hrows, hfind, Manifest.fragment?]
  split
  · rfl
  · rw [Option.map_map]
    rfl

variable {files : DeletionFiles} {m latest next : Manifest} {op : Operation} {version : Nat}

theorem applied_bases (hkind : op.kind = .delete ∨ op.kind = .update)
    (h : applyOperation (some m) op false version = .ok next) : next.bases = m.bases := by
  rcases applyOperation_ok (some m) op h with ⟨stable, applied, happlied, rfl⟩
  rcases hkind with hkind | hkind
  · simp only [applyKind, hkind, Except.ok.injEq] at happlied
    exact happlied ▸ rfl
  · simp only [applyKind, hkind, applyUpdate, bind_eq_ok, pure_eq_ok] at happlied
    rcases happlied with ⟨kept, -, out, hout, rfl⟩
    exact (appendFragments_after hout).1

/-- The rows of an old fragment after a Delete or an Update. -/
theorem applied_rows (id : Nat) (hkind : op.kind = .delete ∨ op.kind = .update)
    (hadded : op.kind = .update → ∀ f ∈ op.fragments, f.id = 0 ∨ nextFragmentId m ≤ f.id)
    (hid : id < nextFragmentId m) (h : applyOperation (some m) op false version = .ok next) :
    rowsAt next id = if id ∈ op.removedIds then none
      else (m.fragment? id).map (fun f => rowsOf ((carried op id).getD f)) := by
  rcases hkind with hkind | hkind
  · rw [rowsAt, deleted_fragment id hkind h]
    split
    · rfl
    · rw [Option.map_map]
      rfl
  · rcases applyOperation_ok (some m) op h with ⟨stable, applied, happlied, rfl⟩
    simp only [applyKind, hkind, applyUpdate, bind_eq_ok, pure_eq_ok] at happlied
    rcases happlied with ⟨kept, hkept, out, hout, rfl⟩
    rcases appendFragments_after hout with ⟨-, added, hfragments, hids⟩
    have hnew : added.find? (fun f => f.id = id) = none := by
      rw [find?_eq_none]
      intro g hg hgid
      rcases mem_map.mp (hids ▸ mem_map_of_mem hg) with ⟨a, ha, haid⟩
      have hge := assignIds_above op.fragments (nextFragmentId m) (le_refl _) (hadded hkind) a ha
      grind
    have hrows := updateFragments_rows hkept id
    have hcarried : carried op id = op.updatedFragments.find? (fun f => f.id = id) := by
      rw [carried, hkind, if_neg (by simp only [reduceCtorEq, not_false_eq_true])]
    have hout : ((retainIndices out).fragments.find? (fun f => f.id = id)) =
        kept.find? (fun f => f.id = id) := by
      show out.fragments.find? _ = _
      rw [hfragments, find?_append, hnew, Option.or_none]
    rw [rowsAt, finish_fragment, Option.map_map, Manifest.fragment?, hout, hcarried]
    exact hrows

/-- And after it is rebased. -/
theorem rebased_rows (made result : Manifest) (ours : Operation) (theirs : List Operation)
    (version id : Nat) (hkind : ours.kind = .delete ∨ ours.kind = .update)
    (hid : id < nextFragmentId latest)
    (h : rebaseOperation latest made ours theirs version = .ok result) :
    result.bases = latest.bases ∧ rowsAt result id = if id ∈ ours.removedIds then none
      else (latest.fragment? id).map (fun f => rowsOf ((carried ours id).getD f)) := by
  have hren : (renumbered ours).removedIds = ours.removedIds ∧
      carried (renumbered ours) id = carried ours id ∧ (renumbered ours).kind = ours.kind := by
    unfold renumbered
    split
    · exact ⟨rfl, rfl, rfl⟩
    · exact ⟨rfl, rfl, rfl⟩
  rcases hren with ⟨hremoved, hcarried, hsame⟩
  have happly : applyOperation (some latest) (renumbered ours) false version = .ok result := by
    grind [rebaseOperation, bind_eq_ok, pure_eq_ok]
  have hrows := applied_rows id (hsame ▸ hkind) ?_ hid happly
  · rw [hremoved, hcarried] at hrows
    exact ⟨applied_bases (hsame ▸ hkind) happly, hrows⟩
  · grind [renumbered]

/-- The ids a Delete or an Update leaves. -/
theorem applied_ids (hkind : op.kind = .delete ∨ op.kind = .update)
    (h : applyOperation (some m) op false version = .ok next) :
    next.maxFragmentId = highWater m.maxFragmentId next.fragments ∧
      ∀ f ∈ next.fragments, f.id ∈ m.fragments.map (·.id) ∨
        f.id ∈ (assignIds op.fragments (nextFragmentId m)).1.map (·.id) := by
  rcases applyOperation_ok (some m) op h with ⟨stable, applied, happlied, rfl⟩
  have hmark := applyKind_mark happlied
  have hids : ∀ id ∈ applied.fragments.map (·.id), id ∈ m.fragments.map (·.id) ∨
      id ∈ (assignIds op.fragments (nextFragmentId m)).1.map (·.id) := by
    intro id hid
    rcases hkind with hkind | hkind
    · simp only [applyKind, hkind, Except.ok.injEq] at happlied
      have hkept : applied.fragments.map (·.id) =
          (m.fragments.map (·.id)).filter (fun id => id ∉ op.removedIds) := by
        rw [← happlied]
        exact substitute_ids op.removedIds (lastWithId op.updatedFragments)
          (fun id u hu => key_of_find hu) m.fragments
      exact .inl (mem_of_mem_filter (hkept ▸ hid))
    · simp only [applyKind, hkind, applyUpdate, bind_eq_ok, pure_eq_ok] at happlied
      rcases happlied with ⟨kept, hkept, out, hout, rfl⟩
      rcases appendFragments_ok hout with ⟨-, -, hall⟩
      have hsplit : id ∈ kept.map (·.id) ++
          (assignIds op.fragments (nextFragmentId m)).1.map (·.id) := hall ▸ hid
      refine (mem_append.mp hsplit).imp_left fun hin => ?_
      rw [updateFragments_ids _ hkept] at hin
      exact mem_of_mem_filter hin
  refine ⟨?_, fun f hf => hids f.id ((finish_ids).mp (mem_map_of_mem hf))⟩
  have hnot : op.kind ≠ .reserveFragments := by grind
  rw [if_neg hnot] at hmark
  have hstart : (startManifest (some m) op).maxFragmentId = m.maxFragmentId := rfl
  rw [← hstart, ← hmark]
  rfl

/-- Nothing a compatible change removes is touched by ours. -/
theorem compatible_removed {theirs : Operation} (hours : ours.kind = .delete ∨ ours.kind = .update)
    (htheirs : theirs.kind = .delete ∨ theirs.kind = .update)
    (h : checkTxnWithAffectedRows ours theirs base = .compatible) (hid : id ∈ theirs.removedIds) :
    id ∉ deleteUpdateIds ours := by
  intro hmine
  have hboth : ((ours.kind = .delete || ours.kind = .update) &&
      (theirs.kind = .delete || theirs.kind = .update)) = true := by
    rcases hours with h | h <;> rcases htheirs with h' | h' <;> simp only [h, h'] <;> decide
  have hmeets : intersects (deleteUpdateIds ours) (deleteUpdateIds theirs) = true :=
    any_eq_true.mpr ⟨id, mem_append_right _ hid, decide_eq_true hmine⟩
  have hplain : checkTxn ours theirs = .retryable := by
    unfold checkTxn
    rcases hours with h | h <;> rcases htheirs with h' | h' <;>
      simp only [h, h', deleteCheck, updateCheck, unlessDisjoint, hmeets, if_true, reduceCtorEq,
        decide_false, Bool.false_and, Bool.and_false, updatesSchemaOrFieldMetadata, Bool.or_self,
        Bool.false_eq_true, if_false, ite_self]
  grind [checkTxnWithAffectedRows]

theorem below_of_rowsAt (hmarked : ∀ f ∈ m.fragments, Below m f.id)
    {rows : Nat × Option DeletionFile} (h : rowsAt m id = some rows) : Below m id := by
  rcases Option.map_eq_some_iff.mp h with ⟨f, hf, -⟩
  have hid := key_of_find hf
  exact hid ▸ hmarked f (mem_of_find?_eq_some hf)

/-- What is left of the base's fragments in a version reached by others. -/
structure KeptRows (files : DeletionFiles) (base : Manifest) (ours : Operation) (m : Manifest) :
    Prop where
  bases : m.bases = base.bases
  marked : ∀ f ∈ m.fragments, Below m f.id
  small : ∀ top, m.maxFragmentId = some top → top < 2 ^ 32
  below : ∀ id rows, rowsAt base id = some rows → Below m id
  rows : ∀ id count file, rowsAt base id = some (count, file) →
    (rowsAt m id = none ∧ id ∉ deleteUpdateIds ours) ∨
      ∃ file', rowsAt m id = some (count, file') ∧
        KeepsARow files base.bases id count file' ∧
        ∀ r, DeletedRow files base id r → DeletedRow files m id r

theorem deletedRow_of_rowsAt (files : DeletionFiles) (row : Nat)
    (h : rowsAt m id = some (count, file)) :
    DeletedRow files m id row ↔
      ∃ rows, readDeletionVector files m.bases id file = .ok rows ∧ row ∈ rows := by
  rw [DeletedRow, h]

/-- The run of the others: what each leaves of an old fragment. -/
theorem RowChanges.kept (base : Manifest) (ours : Operation) (hbase : WellDeleted files base)
    (hours : ours.kind = .delete ∨ ours.kind = .update) (m : Manifest)
    (h : RowChanges files base ours m) : KeptRows files base ours m := by
  induction h with
  | base =>
    refine ⟨rfl, hbase.marked, hbase.small, fun id rows hrows =>
      below_of_rowsAt hbase.marked hrows, fun id count file hrows => .inr ?_⟩
    exact ⟨file, hrows, hbase.keeps id count file hrows, fun r hr => hr⟩
  | step m next op version before deletes compatible applied ih =>
    rcases applied_ids deletes.kind applied with ⟨hmark, hids⟩
    have hsmall : ∀ f ∈ next.fragments, f.id < 2 ^ 32 := by
      intro f hf
      rcases hids f hf with hold | hnew
      · rcases mem_map.mp hold with ⟨g, hg, hgid⟩
        rcases ih.marked g hg with ⟨top, htop, hle⟩
        have := ih.small top htop
        omega
      · rcases mem_map.mp hnew with ⟨g, hg, hgid⟩
        exact hgid ▸ deletes.small g hg
    rcases highWater_used (by decide) (le_refl _) ih.small hsmall with ⟨hgrows, hmarked, htop⟩
    rw [← hmark] at hgrows hmarked htop
    have hbases := applied_bases deletes.kind applied
    have hbelow : ∀ id rows, rowsAt base id = some rows → Below next id := by
      intro id rows hrows
      rcases ih.below id rows hrows with ⟨top, hmtop, hle⟩
      rcases hgrows top hmtop with ⟨new, hnew, hle'⟩
      exact ⟨new, hnew, hle.trans hle'⟩
    refine ⟨hbases.trans ih.bases, hmarked, htop, hbelow, fun id count file hrows => ?_⟩
    have hnext := applied_rows id deletes.kind (fun _ => deletes.added)
      (below_lt_nextFragmentId (ih.below id _ hrows)) applied
    rcases ih.rows id count file hrows with ⟨hgone, hours'⟩ | ⟨file', hthere, hkeeps, hmore⟩
    · have hnone := Option.map_eq_none_iff.mp hgone
      grind
    · by_cases hremoved : id ∈ op.removedIds
      · rw [if_pos hremoved] at hnext
        exact .inl ⟨hnext, compatible_removed hours deletes.kind compatible hremoved⟩
      · right
        rcases Option.map_eq_some_iff.mp hthere with ⟨f, hf, hfrows⟩
        rw [if_neg hremoved, hf, Option.map_some] at hnext
        cases hcarried : carried op id with
        | none =>
          rw [hcarried, Option.getD_none, hfrows] at hnext
          refine ⟨file', hnext, hkeeps, fun r hr => ?_⟩
          rw [deletedRow_of_rowsAt files r hnext, hbases]
          exact (deletedRow_of_rowsAt files r hthere).mp (hmore r hr)
        | some u =>
          rcases carried_id hcarried with ⟨rfl, hu⟩
          rcases deletes.carries u hu count file' hthere with ⟨hcount, hleft, hgrow⟩
          rw [hcarried, Option.getD_some, rowsOf, hcount] at hnext
          rw [ih.bases] at hleft
          refine ⟨u.deletionFile, hnext, hleft, fun r hr => ?_⟩
          rw [deletedRow_of_rowsAt files r hnext, hbases]
          exact hgrow r (hmore r hr)

variable {u v : DataFragment} {result : Manifest} {oursName : String}

theorem MergedRows.of_absent {affected : List Nat} (hresult : rowsAt result id = none)
    (hall : ∀ r < count, DeletedRow files latest id r ∨ r ∈ affected)
    (hdisjoint : ∀ r ∈ affected, ¬ DeletedRow files latest id r) :
    MergedRows files latest result id count affected := by
  refine ⟨⟨fun _ => hall, fun _ => hresult⟩, fun count' file hthere => ?_, hdisjoint⟩
  cases (hresult.symm.trans hthere)

theorem MergedRows.of_present {affected rows : List Nat}
    (hresult : rowsAt result id = some (count, file))
    (hread : readDeletionVector files result.bases id file = .ok rows)
    (hmem : ∀ r, r ∈ rows ↔ DeletedRow files latest id r ∨ r ∈ affected)
    (hnotall : ¬ ∀ r < count, DeletedRow files latest id r ∨ r ∈ affected)
    (hdisjoint : ∀ r ∈ affected, ¬ DeletedRow files latest id r) :
    MergedRows files latest result id count affected := by
  refine ⟨⟨fun hnone => ?_, fun hall => absurd hall hnotall⟩, fun count' file' hthere => ?_,
    hdisjoint⟩
  · cases (hresult.symm.trans hnone)
  · grind

section Merged

variable {files : DeletionFiles} {base latest : Manifest} {latestVersion : Nat}
  {affected : Nat → List Nat} {theirsName oursName : String}

theorem mergeFragment_ok
    (h : mergeFragment files base latest latestVersion affected theirsName oursName id = .ok merged) :
    ∃ was now, base.fragment? id = some was ∧ latest.fragment? id = some now ∧
      ((was.deletionFile = now.deletionFile ∧ merged = []) ∨
        ∃ existing, readDeletionVector files latest.bases id now.deletionFile = .ok existing ∧
          (∀ r ∈ existing, r ∉ affected id) ∧
          merged = ascending (existing ++ ascending (affected id))) := by
  unfold mergeFragment at h
  split at h
  · rename_i was now hwas hnow
    refine ⟨was, now, hwas, hnow, ?_⟩
    split at h
    · grind
    · simp only [bind_eq_ok, pure_eq_ok, ensure_eq_ok, List.isEmpty_iff,
        filter_eq_nil_iff, mem_ascending, decide_eq_true_eq] at h
      grind
  · cases h

theorem checkRemoved_ok : ∀ ids : List Nat,
    checkRemoved files base latest latestVersion affected theirsName oursName ids = .ok () →
    ∀ id ∈ ids, ∃ merged, mergeFragment files base latest latestVersion affected theirsName oursName
      id = .ok merged := by
  intro ids
  induction ids with
  | nil => exact nofun
  | cons x rest ih => grind [checkRemoved, bind_eq_ok]

variable (files base latest latestVersion affected theirsName oursName)

/-- No row of a fragment is left after the merge. -/
def Emptied (id : Nat) : Prop :=
  ∃ merged, mergeFragment files base latest latestVersion affected theirsName oursName id =
    .ok merged ∧ merged ≠ [] ∧
      ((latest.fragment? id).map (·.physicalRows)).getD 0 ≤ merged.length

/-- A carried fragment after the merge: as it was where nothing was merged, and with a new deletion
    file where rows are left. -/
def MergedFragment (u v : DataFragment) : Prop :=
  ∃ merged, mergeFragment files base latest latestVersion affected theirsName oursName u.id =
    .ok merged ∧ ((merged = [] ∧ v = u) ∨
      (merged ≠ [] ∧ merged.length < ((latest.fragment? u.id).map (·.physicalRows)).getD 0 ∧
        ∃ file, writeDeletionFile files u.id latestVersion merged = .ok file ∧
          v = { u with deletionFile := some file }))

/-- The updated fragments and the removed ids a merge leaves. -/
structure MergedUpdates (us : List DataFragment) (removed : List Nat)
    (out : List DataFragment × List Nat) : Prop where
  each : ∀ u ∈ us,
    Emptied files base latest latestVersion affected theirsName oursName u.id ∨
      ∃ v ∈ out.1, MergedFragment files base latest latestVersion affected theirsName oursName u v
  only : ∀ v ∈ out.1, ∃ u ∈ us,
    MergedFragment files base latest latestVersion affected theirsName oursName u v
  removed : ∀ id, id ∈ out.2 ↔ id ∈ removed ∨ (id ∈ us.map (·.id) ∧
    Emptied files base latest latestVersion affected theirsName oursName id)

variable {files base latest latestVersion affected theirsName oursName}

theorem MergedFragment.id_eq
    (h : MergedFragment files base latest latestVersion affected theirsName oursName u v) :
    v.id = u.id := by
  rcases h with ⟨merged, -, ⟨-, rfl⟩ | ⟨-, -, file, -, rfl⟩⟩
  · rfl
  · rfl

/-- One more fragment that is kept, under its own id. -/
theorem MergedUpdates.keep {rest : List DataFragment} {removed : List Nat}
    {out : List DataFragment × List Nat}
    (hv : MergedFragment files base latest latestVersion affected theirsName oursName u v)
    (hnot : ¬ Emptied files base latest latestVersion affected theirsName oursName u.id)
    (h : MergedUpdates files base latest latestVersion affected theirsName oursName rest removed
      out) :
    MergedUpdates files base latest latestVersion affected theirsName oursName (u :: rest) removed
      (v :: out.1, out.2) := by
  refine ⟨fun x hx => ?_, fun x hx => ?_, fun id => ?_⟩
  · rcases mem_cons.mp hx with rfl | hin
    · exact .inr ⟨v, mem_cons_self, hv⟩
    · exact (h.each x hin).imp_right (fun ⟨y, hy, hxy⟩ => ⟨y, mem_cons_of_mem v hy, hxy⟩)
  · rcases mem_cons.mp hx with rfl | hin
    · exact ⟨u, mem_cons_self, hv⟩
    · rcases h.only x hin with ⟨y, hy, hyx⟩
      exact ⟨y, mem_cons_of_mem u hy, hyx⟩
  · rw [h.removed id, map_cons, mem_cons]
    grind

theorem mergeUpdated_ok : ∀ (us : List DataFragment) (removed : List Nat)
    (out : List DataFragment × List Nat),
    mergeUpdated files base latest latestVersion affected theirsName oursName us removed = .ok out →
    MergedUpdates files base latest latestVersion affected theirsName oursName us removed out := by
  intro us
  induction us with
  | nil =>
    intro removed out h
    rw [mergeUpdated, Except.ok.injEq] at h
    subst h
    refine ⟨forall_mem_nil _, forall_mem_nil _, fun id => ?_⟩
    simp
  | cons u rest ih =>
    intro removed out h
    simp only [mergeUpdated, bind_eq_ok] at h
    rcases h with ⟨merged, hmerged, h⟩
    -- The merge of the fragment is one value, so the three branches exclude each other.
    have hempty : Emptied files base latest latestVersion affected theirsName oursName u.id ↔
        merged ≠ [] ∧ ((latest.fragment? u.id).map (·.physicalRows)).getD 0 ≤ merged.length := by
      simp [Emptied, hmerged]
    split at h
    · rename_i hnil
      rw [List.isEmpty_iff] at hnil
      simp only [bind_eq_ok, pure_eq_ok] at h
      rcases h with ⟨others, hothers, rfl⟩
      exact MergedUpdates.keep ⟨merged, hmerged, .inl ⟨hnil, rfl⟩⟩
        (fun he => (hempty.mp he).1 hnil) (ih removed others hothers)
    · rename_i hne
      rw [List.isEmpty_iff] at hne
      split at h
      · rename_i hall
        have hrest := ih (removed ++ [u.id]) out h
        have hgone := hempty.mpr ⟨hne, hall⟩
        refine ⟨fun x hx => ?_, fun v hv => ?_, fun id => ?_⟩
        · rcases mem_cons.mp hx with rfl | hin
          · exact .inl hgone
          · exact hrest.each x hin
        · rcases hrest.only v hv with ⟨y, hy, hyv⟩
          exact ⟨y, mem_cons_of_mem u hy, hyv⟩
        · rw [hrest.removed id, mem_append, mem_singleton, map_cons, mem_cons]
          constructor
          · grind
          · grind
      · rename_i hsome
        simp only [bind_eq_ok, pure_eq_ok] at h
        rcases h with ⟨file, hfile, others, hothers, rfl⟩
        refine MergedUpdates.keep ⟨merged, hmerged, .inr ⟨hne, by omega, file, hfile, rfl⟩⟩
          (fun he => hsome (hempty.mp he).2) (ih removed others hothers)

variable (hours : DeletesRows files base affected ours)
  (hrows : rowsAt base id = some (count, file)) (hkept : KeptRows files base ours latest)

include hours hrows

/-- The rows of the version the others left are rows of the fragment, and so
    are the affected ones. -/
theorem union_lt {file' : Option DeletionFile} (hlatest : rowsAt latest id = some (count, file'))
    (hkeeps : KeepsARow files latest.bases id count file') {r : Nat}
    (hr : DeletedRow files latest id r ∨ r ∈ affected id) : r < count := by
  rcases hr with hdel | haff
  · rcases (deletedRow_of_rowsAt files r hlatest).mp hdel with ⟨rows, hread, hin⟩
    rcases hkeeps with ⟨rows', hread', hlt, -⟩
    grind
  · exact (hours.live id count file hrows r haff).1

include hkept

/-- What a merge of one fragment's deletions says of its rows. -/
theorem mergeFragment_rows
    (h : mergeFragment files base latest latestVersion affected theirsName oursName id = .ok merged) :
    (∀ r ∈ affected id, ¬ DeletedRow files latest id r) ∧
      (∃ file', rowsAt latest id = some (count, file')) ∧
      (merged = [] → ∀ r, (DeletedRow files base id r ∨ r ∈ affected id ↔
        DeletedRow files latest id r ∨ r ∈ affected id)) ∧
      (merged ≠ [] → merged.Pairwise (· < ·) ∧
        ∀ r, r ∈ merged ↔ DeletedRow files latest id r ∨ r ∈ affected id) := by
  rcases mergeFragment_ok h with ⟨was, now, hwas, hnow, hcases⟩
  have hthere : rowsAt latest id = some (rowsOf now) := by rw [rowsAt, hnow, Option.map_some]
  rcases hkept.rows id count file hrows with ⟨hgone, -⟩ | ⟨file', hlatest, -, hmore⟩
  · grind
  have hwasFile : was.deletionFile = file := by grind [rowsAt, rowsOf]
  have hnowFile : now.deletionFile = file' := by grind [rowsOf]
  have hdeleted := fun r => deletedRow_of_rowsAt files r hlatest
  rcases hcases with ⟨hsame, rfl⟩ | ⟨existing, hread, hdisjoint, rfl⟩
  · -- No one changed the deletion file, so the latest deletions are the base's.
    have hiff : ∀ r, DeletedRow files latest id r ↔ DeletedRow files base id r := by
      intro r
      rw [hdeleted r, deletedRow_of_rowsAt files r hrows, hkept.bases,
        ← hnowFile, ← hwasFile, hsame]
    refine ⟨fun r hr hdel => ?_, ⟨file', hlatest⟩, fun _ r => by rw [hiff r],
      fun hne => absurd rfl hne⟩
    exact (hours.live id count file hrows r hr).2 ((hiff r).mp hdel)
  · have hiff : ∀ r, DeletedRow files latest id r ↔ r ∈ existing := by grind
    have hmem : ∀ r, r ∈ ascending (existing ++ ascending (affected id)) ↔
        DeletedRow files latest id r ∨ r ∈ affected id := by
      intro r
      rw [mem_ascending, mem_append, mem_ascending, hiff r]
    refine ⟨fun r hr hdel => hdisjoint r ((hiff r).mp hdel) hr, ⟨file', hlatest⟩,
      fun hnil r => ?_, fun _ => ⟨ascending_pairwise _, hmem⟩⟩
    -- An empty union: neither side has a row, and the base had none more.
    grind

/-- A merge has all rows by count exactly when the union has them. -/
theorem merged_all_iff (hne : merged ≠ [])
    (h : mergeFragment files base latest latestVersion affected theirsName oursName id = .ok merged) :
    ((latest.fragment? id).map (·.physicalRows)).getD 0 = count ∧
      (count ≤ merged.length ↔ ∀ r < count, DeletedRow files latest id r ∨ r ∈ affected id) := by
  rcases mergeFragment_rows hours hrows hkept h with ⟨-, ⟨file', hlatest⟩, -, hsome⟩
  rcases hsome hne with ⟨hsorted, hmem⟩
  rcases hkept.rows id count file hrows with ⟨hgone, -⟩ | ⟨file'', hthere, hkeeps, -⟩
  · cases (hgone.symm.trans hlatest)
  · rw [← hkept.bases] at hkeeps
    have hlt : ∀ r ∈ merged, r < count := fun r hr =>
      union_lt hours hrows hthere hkeeps ((hmem r).mp hr)
    refine ⟨?_, ?_⟩
    · rcases Option.map_eq_some_iff.mp hlatest with ⟨now, hnow, hrowsOf⟩
      grind [rowsOf]
    · rw [le_length_iff_all (hsorted.imp (fun h => h.ne)) hlt]
      exact ⟨fun hall r hr => (hmem r).mp (hall r hr), fun hall r hr => (hmem r).mpr (hall r hr)⟩

omit hrows in
/-- The rows of a fragment the merged change carries. -/
theorem mergedFragment_union (hfiles : ReadsBack files) (hu : u ∈ ours.updatedFragments)
    (hnot : u.id ∉ ours.removedIds) (hrows : rowsAt base u.id = some (count, file))
    (h : MergedFragment files base latest latestVersion affected theirsName oursName u v) :
    (¬ ∀ r < count, DeletedRow files latest u.id r ∨ r ∈ affected u.id) ∧
      v.physicalRows = count ∧
      ∃ rows, readDeletionVector files latest.bases u.id v.deletionFile = .ok rows ∧
        ∀ r, r ∈ rows ↔ DeletedRow files latest u.id r ∨ r ∈ affected u.id := by
  rcases hours.carries u hu count file hrows with ⟨hcount, own, hread, hown⟩
  rcases h with ⟨merged, hmerged, ⟨hnil, rfl⟩ | ⟨hne, hlen, new, hwrite, rfl⟩⟩
  · -- Nothing was merged: the change's own file has the union already.
    rcases mergeFragment_rows hours hrows hkept hmerged with ⟨-, -, hempty, -⟩
    refine ⟨fun hall => hnot ?_, hcount, own, hkept.bases ▸ hread,
      fun r => (hown r).trans (hempty hnil r)⟩
    exact (hours.removed v.id count file hrows).mpr (fun r hr => (hempty hnil r).mpr (hall r hr))
  · rcases mergeFragment_rows hours hrows hkept hmerged with ⟨-, -, -, hsome⟩
    rcases hsome hne with ⟨hsorted, hmem⟩
    rcases merged_all_iff hours hrows hkept hne hmerged with ⟨hphysical, hall⟩
    rw [hphysical] at hlen
    refine ⟨fun h => ?_, hcount, merged, hfiles.back latest.bases u.id latestVersion merged new
      hsorted hwrite, hmem⟩
    have := hall.mpr h
    omega

/-- A merge that goes through has found no affected row deleted. -/
theorem merge_disjoint {merged : Operation}
    (hmerge : mergeDeletionVectors files base latest latestVersion affected theirsName ours =
      .ok merged) : ∀ r ∈ affected id, ¬ DeletedRow files latest id r := by
  intro r hr
  simp only [mergeDeletionVectors, bind_eq_ok, pure_eq_ok] at hmerge
  rcases hmerge with ⟨_, hremoved, out, hout, -⟩
  have hmerged : ∃ merged, mergeFragment files base latest latestVersion affected theirsName
      (operationName ours.kind) id = .ok merged := by
    rcases mem_append.mp (hours.touched id (ne_nil_of_mem hr)) with hup | hrem
    · rcases mem_map.mp hup with ⟨u, hu, rfl⟩
      have hupdates := mergeUpdated_ok _ _ _ hout
      rcases hupdates.each u hu with ⟨rows, hmerged, -⟩ | ⟨v, -, rows, hmerged, -⟩
      · exact ⟨rows, hmerged⟩
      · exact ⟨rows, hmerged⟩
    · exact checkRemoved_ok _ hremoved id hrem
  rcases hmerged with ⟨rows, hmerged⟩
  exact (mergeFragment_rows hours hrows hkept hmerged).1 r hr

/-- A merged and rebased change leaves every old fragment with the union. -/
theorem merged_rows (hfiles : ReadsBack files) {made : Manifest} {merged : Operation}
    {theirs : List Operation}
    (hmerge : mergeDeletionVectors files base latest latestVersion affected theirsName ours =
      .ok merged) (hrebase : rebaseOperation latest made merged theirs version = .ok result) :
    MergedRows files latest result id count (affected id) := by
  have hdisjoint := merge_disjoint hours hrows hkept hmerge
  simp only [mergeDeletionVectors, bind_eq_ok, pure_eq_ok] at hmerge
  rcases hmerge with ⟨_, -, out, hout, rfl⟩
  have hupdates := mergeUpdated_ok _ _ _ hout
  rcases rebased_rows made result
    { ours with updatedFragments := out.1, removedIds := out.2 } theirs version id hours.kind
    (below_lt_nextFragmentId (hkept.below id _ hrows)) hrebase with ⟨hbases, hresult⟩
  have hfree : id ∉ deleteUpdateIds ours → affected id = [] := fun hnot =>
    Decidable.of_not_not (fun hne => hnot (hours.touched id hne))
  rcases hkept.rows id count file hrows with ⟨hgone, hnot⟩ | ⟨file', hlatest, hkeeps, hmore⟩
  · -- The others removed the fragment, which ours does not touch.
    rw [Option.map_eq_none_iff.mp hgone, Option.map_none, ite_self] at hresult
    refine MergedRows.of_absent hresult (fun r _ => .inl ?_)
      (fun r hr => absurd (hfree hnot ▸ hr) not_mem_nil)
    rw [DeletedRow, hgone]
    trivial
  · rcases Option.map_eq_some_iff.mp hlatest with ⟨now, hnow, hnowRows⟩
    rw [hnow, Option.map_some] at hresult
    by_cases hgone : id ∈ out.2
    · rw [if_pos hgone] at hresult
      refine MergedRows.of_absent hresult (fun r hr => ?_) hdisjoint
      rcases (hupdates.removed id).mp hgone with hrem | ⟨-, rows, hmerged, hne, hlen⟩
      · exact ((hours.removed id count file hrows).mp hrem r hr).imp_left (hmore r)
      · rcases merged_all_iff hours hrows hkept hne hmerged with ⟨hphysical, hiff⟩
        exact hiff.mp (hphysical ▸ hlen) r hr
    · rw [if_neg hgone] at hresult
      have hrem : id ∉ ours.removedIds := fun hin => hgone ((hupdates.removed id).mpr (.inl hin))
      cases hcarried : carried { ours with updatedFragments := out.1, removedIds := out.2 } id with
      | some v =>
        rcases carried_id hcarried with ⟨hvid, hv⟩
        rcases hupdates.only v hv with ⟨u, hu, huv⟩
        have huid : u.id = id := (MergedFragment.id_eq huv).symm.trans hvid
        subst huid
        rcases mergedFragment_union hours hkept hfiles hu hrem hrows huv with ⟨hnotall, hcount,
          rows, hread, hmem⟩
        rw [hcarried, Option.getD_some, rowsOf, hcount] at hresult
        exact MergedRows.of_present hresult (hbases ▸ hread) hmem hnotall hdisjoint
      | none =>
        -- Neither removed nor carried, so nothing of it is affected.
        have huntouched : affected id = [] := by
          refine hfree fun htouched => ?_
          rcases mem_append.mp htouched with hup | hin
          · rcases mem_map.mp hup with ⟨u, hu, rfl⟩
            rcases hupdates.each u hu with hempty | ⟨v, hv, huv⟩
            · exact hgone ((hupdates.removed u.id).mpr (.inr ⟨hup, hempty⟩))
            · have hvid := MergedFragment.id_eq huv
              rcases carried_isSome { ours with updatedFragments := out.1, removedIds := out.2 }
                u.id (mem_map.mpr ⟨v, hv, hvid⟩) with ⟨w, hw⟩
              grind
          · exact hrem hin
        rw [hcarried, Option.getD_none, hnowRows] at hresult
        rw [← hkept.bases] at hkeeps
        rcases hkeeps with ⟨rows, hread, -, live, hlive, hnotin⟩
        have hmem : ∀ r, r ∈ rows ↔ DeletedRow files latest id r ∨ r ∈ affected id := by
          intro r
          rw [deletedRow_of_rowsAt files r hlatest, hread, huntouched]
          simp
        exact MergedRows.of_present hresult
          (hbases ▸ hread) hmem (fun hall => hnotin ((hmem live).mpr (hall live hlive))) hdisjoint

end Merged

theorem isConflict_append {s : String} (t : String) (h : isConflict s = true) :
    isConflict (s ++ t) = true := by
  simp only [isConflict, String.toList_append, isPrefixOf_iff_prefix] at h ⊢
  exact h.trans (prefix_append _ _)

theorem isConflict_retryable (ours theirs : String) :
    isConflict (retryableError version ours theirs) = true := by
  have hhead : isConflict "commit conflict: Retryable commit conflict for version " = true := by
    decide
  unfold retryableError
  simp only [String.append_assoc]
  exact isConflict_append _ hhead

theorem isConflict_preempted (ours theirs addresses : String) :
    isConflict (preemptedError version ours theirs addresses) = true := by
  have hhead : isConflict "commit conflict: This " = true := by decide
  unfold preemptedError
  simp only [String.append_assoc]
  exact isConflict_append _ hhead

/-- Where the latest deletions read, a merge of one fragment fails with a conflict only. -/
theorem mergeFragment_conflict (hkept : KeptRows files base ours latest) {e : String}
    (h : mergeFragment files base latest latestVersion affected theirsName oursName id = .error e) :
    isConflict e = true := by
  unfold mergeFragment at h
  split at h
  · rename_i was now hwas hnow
    have hrows : rowsAt base id = some (was.physicalRows, was.deletionFile) := by
      rw [rowsAt, hwas, Option.map_some, rowsOf]
    have hlatest : rowsAt latest id = some (rowsOf now) := by rw [rowsAt, hnow, Option.map_some]
    rcases hkept.rows id _ _ hrows with ⟨hgone, -⟩ | ⟨file', hthere, ⟨rows, hread, -⟩, -⟩
    · cases (hgone.symm.trans hlatest)
    have hfile : now.deletionFile = file' := by grind [rowsOf]
    split at h
    · cases h
    · rw [hfile, hkept.bases, hread] at h
      simp only [bind_eq_error, ensure_eq_error, pure_ne_error, reduceCtorEq,
        Except.ok.injEq, false_or, exists_eq_left', and_false, exists_false, or_false] at h
      rw [← h.2]
      exact isConflict_preempted _ _ _
  · rw [Except.error.injEq] at h
    exact h ▸ isConflict_retryable _ _

theorem checkRemoved_error (e : String) : ∀ ids : List Nat,
    checkRemoved files base latest latestVersion affected theirsName oursName ids = .error e →
    ∃ id, mergeFragment files base latest latestVersion affected theirsName oursName id =
      .error e := by
  intro ids
  induction ids with
  | nil => exact nofun
  | cons x rest ih => grind [checkRemoved, bind_eq_error]

theorem mergeUpdated_error (hput : ∀ id version rows, ∃ name, files.put id version rows = .ok name)
    (e : String) : ∀ (us : List DataFragment) (removed : List Nat),
    mergeUpdated files base latest latestVersion affected theirsName oursName us removed =
      .error e →
    ∃ id, mergeFragment files base latest latestVersion affected theirsName oursName id =
      .error e := by
  intro us
  induction us with
  | nil =>
    exact nofun
  | cons u rest ih =>
    intro removed h
    simp only [mergeUpdated, bind_eq_error] at h
    rcases h with hu | ⟨merged, -, h⟩
    · exact ⟨u.id, hu⟩
    · split at h
      · grind [bind_eq_error, pure_ne_error]
      · split at h
        · exact ih (removed ++ [u.id]) h
        · rcases hput u.id latestVersion merged with ⟨name, hname⟩
          grind [bind_eq_error, writeDeletionFile, pure_ne_error]

/-- Whatever compatible Deletes and Updates went before, a change that merges and rebases leaves
    every fragment of its base with the union of the two sets of deleted rows, and one of whose rows
    another deleted is refused with a conflict. -/
theorem deletions_merge (files : DeletionFiles) (hfiles : ReadsBack files)
    (base latest made : Manifest) (ours : Operation) (affected : Nat → List Nat)
    (theirsName : String) (theirs : List Operation) (latestVersion version : Nat)
    (hbase : WellDeleted files base) (hours : DeletesRows files base affected ours)
    (hlatest : RowChanges files base ours latest) :
    (∀ merged result,
      mergeDeletionVectors files base latest latestVersion affected theirsName ours = .ok merged →
      rebaseOperation latest made merged theirs version = .ok result →
      ∀ id count file, rowsAt base id = some (count, file) →
        MergedRows files latest result id count (affected id)) ∧
      ((∃ id count file r, rowsAt base id = some (count, file) ∧ r ∈ affected id ∧
          DeletedRow files latest id r) →
        ∃ e, mergeDeletionVectors files base latest latestVersion affected theirsName ours =
          .error e ∧
          ((∀ id version rows, ∃ name, files.put id version rows = .ok name) →
            isConflict e = true)) := by
  have hkept := RowChanges.kept base ours hbase hours.kind latest hlatest
  refine ⟨fun merged result hmerge hrebase id count file hrows =>
    merged_rows hours hrows hkept hfiles hmerge hrebase, ?_⟩
  rintro ⟨id, count, file, r, hrows, hr, hdel⟩
  cases hmerge : mergeDeletionVectors files base latest latestVersion affected theirsName ours with
  | ok merged =>
    exact absurd hdel (merge_disjoint hours hrows hkept hmerge r hr)
  | error e =>
    refine ⟨e, rfl, fun hput => ?_⟩
    have hfailed : ∃ id, mergeFragment files base latest latestVersion affected theirsName
        (operationName ours.kind) id = .error e := by
      simp only [mergeDeletionVectors, bind_eq_error, pure_ne_error, and_false,
        exists_false, or_false] at hmerge
      rcases hmerge with hremoved | ⟨_, -, hupdated⟩
      · exact checkRemoved_error e _ hremoved
      · exact mergeUpdated_error hput e _ _ hupdated
    rcases hfailed with ⟨id, hid⟩
    exact mergeFragment_conflict hkept hid

/-- Deletion files of a fragment of three rows, by the rows they list. -/
def threeRowFiles : DeletionFiles where
  rows := fun _ _ file =>
    .ok (if file.id = 1 then [0] else if file.id = 2 then [1] else if file.id = 3 then [0, 1] else [])
  put := fun _ _ rows =>
    if rows = [0] then .ok 1 else if rows = [1] then .ok 2 else if rows = [0, 1] then .ok 3
    else .error "failed to write the deletion file"

def threeRows : DataFragment :=
  { id := 0, files := [{ path := "a.lance", fields := [0] }], physicalRows := 3 }

def threeRowBase : Manifest :=
  { version := 1, fields := [{ name := "a", id := 0 }], fragments := [threeRows],
    maxFragmentId := some 0 }

/-- A Delete of one row of the fragment. -/
def deleteOne (name : Nat) : Operation :=
  { kind := .delete, updatedFragments := [{ threeRows with
      deletionFile := some { readVersion := 1, id := name, numDeletedRows := 1 } }] }

/-- Row 0 deleted by another writer. -/
def firstRowGone : Manifest :=
  finish (applyDelete threeRowBase (deleteOne 1)) false

theorem threeRowFiles_readsBack : ReadsBack threeRowFiles := by
  refine ⟨fun bases id file rows h => ?_, fun bases id version rows file _ h => ?_⟩
  · rw [← Except.ok.inj h]
    grind
  · simp only [writeDeletionFile, threeRowFiles, bind_eq_ok, pure_eq_ok] at h
    rcases h with ⟨name, hname, rfl⟩
    split at hname
    · rename_i hrows
      rw [← Except.ok.inj hname, hrows]
      rfl
    · split at hname
      · rename_i hrows
        rw [← Except.ok.inj hname, hrows]
        rfl
      · split at hname
        · rename_i hrows
          rw [← Except.ok.inj hname, hrows]
          rfl
        · cases hname

theorem rowsAt_threeRowBase (h : rowsAt threeRowBase id = some (count, file)) :
    id = 0 ∧ count = 3 ∧ file = none := by
  by_cases hid : id = 0
  · subst hid
    simp only [rowsAt, Manifest.fragment?, threeRowBase, threeRows, find?_cons, decide_true,
      Option.map_some, rowsOf, Option.some.injEq, Prod.mk.injEq] at h
    exact ⟨rfl, h.1.symm, h.2.symm⟩
  · have hne : ¬ 0 = id := fun h => hid h.symm
    simp only [rowsAt, Manifest.fragment?, threeRowBase, threeRows, find?_cons, hne,
      decide_false, find?_nil, Option.map_none, reduceCtorEq] at h

theorem threeRowBase_deleted (r : Nat) : ¬ DeletedRow threeRowFiles threeRowBase 0 r := by
  rintro ⟨rows, hread, hr⟩
  rw [← Except.ok.inj hread] at hr
  nomatch hr

theorem threeRowBase_wellDeleted : WellDeleted threeRowFiles threeRowBase := by
  refine ⟨fun id count file h => ?_, fun f hf => ⟨0, rfl, ?_⟩, fun top htop => ?_⟩
  · rcases rowsAt_threeRowBase h with ⟨rfl, rfl, rfl⟩
    exact ⟨[], rfl, by decide, 0, by decide, by decide⟩
  · rw [mem_singleton.mp hf]
    exact le_refl 0
  · rw [← Option.some.inj htop]
    decide

/-- The rows the Delete below affects. -/
def secondRow (id : Nat) : List Nat := if id = 0 then [1] else []

theorem deleteOne_deletesRows :
    DeletesRows threeRowFiles threeRowBase secondRow (deleteOne 2) := by
  refine ⟨.inl rfl, fun id count file h r hr => ?_, fun id count file h => ?_, fun id h => ?_,
    fun u hu count file h => ?_⟩
  · rcases rowsAt_threeRowBase h with ⟨rfl, rfl, rfl⟩
    rw [mem_singleton.mp hr]
    exact ⟨by decide, threeRowBase_deleted 1⟩
  · rcases rowsAt_threeRowBase h with ⟨rfl, rfl, rfl⟩
    refine ⟨nofun, fun hall => ?_⟩
    rcases hall 0 (by decide) with hdel | hin
    · exact absurd hdel (threeRowBase_deleted 0)
    · exact absurd hin (by decide)
  · by_cases hid : id = 0
    · rw [hid]
      decide
    · exact absurd (if_neg hid) h
  · rw [mem_singleton.mp hu] at h ⊢
    rcases rowsAt_threeRowBase h with ⟨-, rfl, rfl⟩
    refine ⟨rfl, [1], rfl, fun r => ?_⟩
    constructor
    · exact fun hr => .inr hr
    · exact fun hor => hor.resolve_left (threeRowBase_deleted r)

theorem firstRowGone_reached :
    RowChanges threeRowFiles threeRowBase (deleteOne 2) firstRowGone := by
  refine RowChanges.step threeRowBase firstRowGone (deleteOne 1) 2 RowChanges.base ?_ (by decide) rfl
  refine ⟨.inl rfl, fun u hu count file h => ?_, nofun,
    nofun⟩
  rw [mem_singleton.mp hu] at h ⊢
  rcases rowsAt_threeRowBase h with ⟨-, rfl, rfl⟩
  refine ⟨rfl, ⟨[0], rfl, by decide, 1, by decide, by decide⟩, fun r hr => ?_⟩
  exact absurd hr (threeRowBase_deleted r)

theorem deletions_merge_two_rows :
    ∃ merged result,
      mergeDeletionVectors threeRowFiles threeRowBase firstRowGone 2 secondRow "Delete"
        (deleteOne 2) = .ok merged ∧
      rebaseOperation firstRowGone threeRowBase merged [deleteOne 1] 3 = .ok result ∧
      MergedRows threeRowFiles firstRowGone result 0 3 [1] := by
  refine ⟨_, _, rfl, rfl, ?_⟩
  exact (deletions_merge threeRowFiles threeRowFiles_readsBack threeRowBase firstRowGone
    threeRowBase (deleteOne 2) secondRow "Delete" [deleteOne 1] 2 3 threeRowBase_wellDeleted
    deleteOne_deletesRows firstRowGone_reached).1 _ _ rfl rfl 0 3 none rfl

end NanoLance
