import Mathlib.Logic.Equiv.List
import NanoLance.Lib.Runs
import NanoLance.SegmentBuilds

/-!
# Runs of Requests and Their Optimizes

A dataset starts without indices and takes requests one after the other. The
segments its optimizes build are complete and free of repeats exactly when
every optimize that commits meets clean indices. Up to the first one that does
not, the dataset is `Sound`.

Two histories leave an index unclean. A deferred compaction moves a segment's
coverage to the fragment it wrote, while the segment's files go on naming the
fragment it replaced. An optimize does not translate those addresses: it drops
them as rows of a fragment that is gone, and does not scan the new fragment
because it is covered. An in-place update takes a fragment out of a segment's
coverage and leaves its rows in the files. The next optimize keeps them, since
the fragment is present, and scans the fragment as well.

## Theorems

* `optimize_sound_iff`: A run.
* `optimize_loses_and_repeats`: The two histories.
-/

namespace NanoLance

open Lib

/-- A dataset without indices, and without stable row ids. -/
structure Unindexed (m : Manifest) : Prop where
  indices : m.indices = []
  unstable : isStable m = false
  fields : ∀ f ∈ m.fields, 0 ≤ f.id ∧ f.id < 2 ^ 31
  small : ∀ top, m.maxFragmentId = some top → top < 2 ^ 32 - 1
  ids : (m.fragments.map (·.id)).Nodup
  rows : ∀ f ∈ m.fragments, Used m f.id ∧ f.physicalRows ≤ 2 ^ 32

/-- A request stays within 32-bit fragment ids, row offsets and field ids, and
    names no index as the table layer names its own. -/
def Fits (s : Dataset) : Request → Prop
  | .append added => nextFragmentId s.manifest + added.length ≤ 2 ^ 32 - 1 ∧
      ∀ r ∈ added, r.rows ≤ 2 ^ 32
  | .compact _ c => nextFragmentId s.manifest + c.created.length ≤ 2 ^ 32 - 1 ∧
      ∀ f ∈ c.created, f.physicalRows ≤ 2 ^ 32
  | .replaceData replacements => ∀ r ∈ replacements, ∀ id ∈ r.2.fields, id < 2 ^ 31
  | .createIndex request =>
      request.indexName ≠ fragReuseIndex ∧ request.indexName ≠ memWalIndex
  | .delete _ | .update _ | .optimize _ => True

instance (s : Dataset) : ∀ request, Decidable (Fits s request)
  | .append _ => inferInstanceAs (Decidable (_ ∧ _))
  | .compact _ c => inferInstanceAs (Decidable (_ ∧ ∀ f ∈ c.created, f.physicalRows ≤ 2 ^ 32))
  | .replaceData replacements =>
      inferInstanceAs (Decidable (∀ r ∈ replacements, ∀ id ∈ r.2.fields, id < 2 ^ 31))
  | .createIndex _ => inferInstanceAs (Decidable (_ ∧ _))
  | .delete _ => inferInstanceAs (Decidable True)
  | .update _ => inferInstanceAs (Decidable True)
  | .optimize _ => inferInstanceAs (Decidable True)

section Runs

variable {V : Type} (format : TableFormat V)

/-- Every index an optimize has work for is clean. -/
def Clean (s : Dataset) : Request → Prop
  | .optimize options => ∀ name, (options.indexNames = [] ∨ name ∈ options.indexNames) →
      HasWork s.manifest options name (segmentsNamed s.manifest name) →
        OptimizeClean format s options name
  | _ => True

variable {format}

theorem Unindexed.sound (s : Dataset) (h : Unindexed s.manifest) : Sound format s := by
  have hnone : ∀ i, i ∉ s.manifest.indices := by
    rw [h.indices]
    exact fun i => List.not_mem_nil
  have hhistory : reuseHistory s.manifest = [] :=
    reuseHistory_eq (fun i hi => absurd hi (hnone i)) (.inl rfl)
  refine ⟨⟨h.unstable, h.fields, h.small, h.ids, h.rows, fun i hi => absurd hi (hnone i), ?_, ?_⟩,
    fun i hi => absurd hi (hnone i), fun i hi => absurd hi (hnone i),
    fun i hi => absurd hi (hnone i)⟩
  · simp [hhistory]
  · simp [hhistory]

variable {s' : Dataset} {built : List BuiltSegment}

/-- A request that builds nothing has nothing to be good. -/
theorem builds_nothing {α : Type} {commit : Except String α} {put : α → Dataset}
    (h : (do let a ← commit; pure (put a, [])) = Except.ok (s', built))
    (hput : ∀ a, commit = .ok a → Sound format (put a)) :
    ((∀ b ∈ built, SegmentGood format b) ↔ True) ∧ (True → Sound format s') := by
  simp only [bind_eq_ok, pure_eq_ok, Prod.mk.injEq] at h
  rcases h with ⟨a, ha, rfl, rfl⟩
  exact ⟨⟨fun _ => trivial, fun _ => List.forall_mem_nil _⟩, fun _ => hput a ha⟩

/-- One request on a sound dataset: what it builds is good exactly when it was
    clean, and then the dataset stays sound. -/
theorem commitRequest_step {s : Dataset} {request : Request} (hs : Sound format s)
    (hfits : Fits s request) (h : commitRequest format s request = .ok (s', built)) :
    ((∀ b ∈ built, SegmentGood format b) ↔ Clean format s request) ∧
      (Clean format s request → Sound format s') := by
  have hm := hs.toFragmentsSound
  have hbit : UserBitmaps s.manifest := fun i hi hsys => (hs.segments i hi hsys).bitmap
  cases request with
  | append added =>
    exact builds_nothing h fun m' hm' =>
      hs.carried (append_carries hm hbit hfits.1 hfits.2 hm')
  | delete deleted =>
    exact builds_nothing h fun m' hm' => hs.carried (delete_carries hm hm')
  | update writes =>
    exact builds_nothing h fun m' hm' => hs.carried (update_carries hm hbit hm')
  | replaceData replacements =>
    exact builds_nothing h fun m' hm' => hs.carried (replace_carries hm hbit hfits hm')
  | compact defer c =>
    exact builds_nothing h fun m' hm' => hs.carried (compact_carries hm
      (fun i hi hsys => ⟨hbit i hi hsys, (hs.segments i hi hsys).version⟩) hfits.1 hfits.2 hm')
  | createIndex request =>
    exact builds_nothing h fun next hnext => createIndex_sound hs hfits hnext
  | optimize options =>
    rcases optimizeIndices_step hs h with ⟨hiff, hsound⟩
    exact ⟨hiff, fun hclean => hsound (hiff.mpr hclean)⟩

/-- Over a run, every segment an optimize builds is complete and free of repeats
    exactly when every optimize that commits meets clean indices. -/
theorem optimize_sound_iff (format : TableFormat V) (start : Dataset) (requests : List Request)
    (hstart : Unindexed start.manifest)
    (hfits : Lib.EveryCommit (commitRequest format) Fits start requests) :
    (∀ b ∈ (Lib.runLog (commitRequest format) start requests).2, SegmentGood format b) ↔
      Lib.EveryCommit (commitRequest format) (Clean format) start requests :=
  Lib.runLog_iff (fun _ _ _ _ hs hfit h => commitRequest_step hs hfit h) requests
    start (Unindexed.sound start hstart) hfits

end Runs

/-- Texts as lists of tokens: every row of every file has the one token 1. -/
def tokenFormat : TableFormat (List Nat) where
  cells _ _ _ := some [1]
  vectors _ d :=
    match (Encodable.decode d.id : Option (List Nat)) with
    | some rows => .ok rows
    | none => .error "malformed deletion file"
  writeDeletions _ version rows :=
    { readVersion := version, id := Encodable.encode rows, numDeletedRows := rows.length }
  vectors_write := by
    intro fragment version rows
    simp only [Encodable.encodek]
  grams v := v
  words _ v := v
  elements v := v.length
  invertedDetails params element := .bytes [if element then 1 else 0, UInt8.ofNat params]
  listElement details :=
    match details with
    | .bytes (flag :: _) => flag = 1
    | _ => false
  listElement_details := by
    intro params element
    cases element <;> rfl
  external _ := .error "no external file"

/-- An empty table of one text column. -/
def emptyTable : Dataset where
  manifest := { version := 1, fields := [{ name := "text", id := 0 }] }
  segments _ := .ngram []

theorem emptyTable_unindexed : Unindexed emptyTable.manifest where
  indices := rfl
  unstable := by decide
  fields := by decide
  small := nofun
  ids := List.nodup_nil
  rows := List.forall_mem_nil _

/-- One row in a file of its own. -/
def oneRow (path : String) : NewRows := { files := [{ path := path, fields := [0] }], rows := 1 }

/-- Rows are appended, indexed, and more are appended and taken in. -/
def appendRun : List Request :=
  [.append [oneRow "a"], .createIndex { column := "text", kind := .inverted },
    .append [oneRow "b"], .optimize {}]

/-- The indexed fragment is compacted with its index remapped later. -/
def deferRun : List Request :=
  [.append [oneRow "a"], .createIndex { column := "text", kind := .inverted },
    .compact true { rewrites :=
      [{ oldFragmentIds := [0], newFragments := [newFragment (oneRow "c")] }] },
    .append [oneRow "b"], .optimize {}]

/-- The indexed column is updated in place. -/
def updateRun : List Request :=
  [.append [oneRow "a"], .createIndex { column := "text", kind := .inverted },
    .update [(0, { path := "c", fields := [0] })], .optimize {}]

/-- The segments the optimizes of a run from the empty table build. -/
def builtBy (requests : List Request) : List BuiltSegment :=
  (runLog (commitRequest tokenFormat) emptyTable requests).2

theorem optimize_sound_iff_appended :
    Unindexed emptyTable.manifest ∧
      Lib.EveryCommit (commitRequest tokenFormat) Fits emptyTable appendRun ∧
      (builtBy appendRun).map (fun b => (b.entry.fragmentIds, b.files)) =
        [([0, 1], .inverted 0 [rowAddress 0 0, rowAddress 1 0])] ∧
      ((∀ b ∈ builtBy appendRun, SegmentGood tokenFormat b) ↔
        Lib.EveryCommit (commitRequest tokenFormat) (Clean tokenFormat) emptyTable appendRun) :=
  ⟨emptyTable_unindexed, by decide, by decide,
    optimize_sound_iff tokenFormat emptyTable appendRun emptyTable_unindexed (by decide)⟩

/-- After the deferred compaction the new segment covers fragment 1 and does not
    hold its row; after the update it holds the row of fragment 0 twice. -/
theorem optimize_loses_and_repeats :
    (Lib.EveryCommit (commitRequest tokenFormat) Fits emptyTable deferRun ∧
      (builtBy deferRun).map (fun b => (b.entry.fragmentIds, b.files)) =
        [([1, 2], .inverted 0 [rowAddress 2 0])] ∧
      ∃ b ∈ builtBy deferRun, ¬ SegmentGood tokenFormat b) ∧
    Lib.EveryCommit (commitRequest tokenFormat) Fits emptyTable updateRun ∧
      (builtBy updateRun).map (fun b => (b.entry.fragmentIds, b.files)) =
        [([0], .inverted 0 [rowAddress 0 0, rowAddress 0 0])] ∧
      ∃ b ∈ builtBy updateRun, ¬ SegmentGood tokenFormat b := by
  refine ⟨⟨by decide, by decide, (builtBy deferRun).get ⟨0, by decide⟩, List.get_mem _ _,
    fun hgood => ?_⟩, by decide, by decide, (builtBy updateRun).get ⟨0, by decide⟩, List.get_mem _ _,
    fun hgood => ?_⟩
  · have hheld := hgood.complete
      { id := 1, files := [{ path := "c", fields := [0] }], physicalRows := 1 } (by decide) (by decide)
      0 (by decide) 0 (by decide)
    exact absurd hheld (by decide)
  · have honce := hgood.once 0 [rowAddress 0 0, rowAddress 0 0] (by decide) (by decide)
    exact absurd honce (by decide)

end NanoLance
