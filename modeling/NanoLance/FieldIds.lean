import NanoLance.Columns
import NanoLance.Lib.Runs

/-!
# Field Ids Over Runs of Column Operations

A fragment read finds a column by its field id in the files' `fields` lists,
the first file that lists it winning. An id handed to a new column while a
data file still lists it would make the new column read a dropped column's
bytes, so the question is whether that can happen.

The allocator looks only at the live schema. Adding columns and changing a
type leave every listed id at or below the largest live one (`Bounded`), and
over such a manifest the ids handed out are fresh. Dropping columns is the
exception: a file that still holds another field stays with the dropped ids
listed in it, and when one of them is above every remaining field the next
allocation starts at or below it. `ColumnOp.keepsTop` is the condition on a
drop that rules this out, and `columnRun_fresh` is the statement over runs.

`dropped_id_handed_out` is the failure itself, two requests long.

## Theorems

* `mapFields_le`: Numbering from `n` gives ids from `n` on.
* `alterColumn_keeps`, `dropColumns_keeps`: What a request preserves.
* `columnStep_keeps`: The step lemma.
* `columnRun_fresh`: In a run whose drops keep the top, every id handed out is
  fresh.
* `dropped_id_handed_out`: Dropping the last column and adding another hands
  the dropped id out again.
-/

namespace NanoLance

open List Lib

/-- Every field id some data file of the manifest lists. -/
def listedIds (m : Manifest) : List Int :=
  m.fragments.flatMap (fun f => f.files.flatMap (fun file => file.fields))

/-- No listed id is above the live schema's largest. -/
def Bounded (m : Manifest) : Prop :=
  ∀ id ∈ listedIds m, id ≤ maxFieldId m.fields

/-- Each fragment's files list exactly the schema's ids. -/
def ListsSchema (m : Manifest) : Prop :=
  ∀ f ∈ m.fragments, ∀ id,
    id ∈ f.files.flatMap (fun file => file.fields) ↔ id ∈ m.fields.map (·.id)

/-- No data file of the manifest lists an id handed out over it. -/
def Grant.Fresh (g : Grant) : Prop :=
  ∀ id ∈ g.ids, id ∉ listedIds g.manifest

/-- No file a drop leaves in place lists an id above the fields it leaves. -/
def keepsTop (m : Manifest) (gone : List Int) : Bool :=
  let kept := remainingFields m gone
  m.fragments.all (fun f => (keepFiles kept f).files.all
    (fun file => file.fields.all (fun id => id ≤ maxFieldId kept)))

/-- The condition on a request: a drop leaves no listed id above the schema. -/
def ColumnOp.keepsTop (fuel : Nat) (m : Manifest) : ColumnOp → Bool
  | .drop columns =>
    match goneIds fuel m columns [] with
    | .error _ => true
    | .ok gone => NanoLance.keepsTop m gone
  | _ => true

theorem mem_listedIds (m : Manifest) (id : Int) :
    id ∈ listedIds m ↔ ∃ f ∈ m.fragments, ∃ file ∈ f.files, id ∈ file.fields := by simp [listedIds]

/-- The largest field id, by what bounds it. -/
theorem maxFieldId_le_iff (fields : List Field) (k : Int) :
    maxFieldId fields ≤ k ↔ -1 ≤ k ∧ ∀ f ∈ fields, f.id ≤ k := by
  have hfold : ∀ (l : List Field) (a : Int),
      l.foldl (fun maxId f => max maxId f.id) a ≤ k ↔ a ≤ k ∧ ∀ f ∈ l, f.id ≤ k := by
    intro l
    induction l with
    | nil => simp
    | cons x rest ih =>
      intro a
      rw [foldl_cons, ih, Int.max_le, and_assoc, forall_mem_cons]
  exact hfold fields (-1)

theorem le_maxFieldId {fields : List Field} {f : Field} (hf : f ∈ fields) :
    f.id ≤ maxFieldId fields :=
  ((maxFieldId_le_iff fields _).mp (le_refl _)).2 f hf

/-- A schema with more fields has at least as large an id. -/
theorem maxFieldId_mono {a b : List Field} (h : ∀ f ∈ a, ∃ g ∈ b, f.id ≤ g.id) :
    maxFieldId a ≤ maxFieldId b := by
  rw [maxFieldId_le_iff]
  refine ⟨((maxFieldId_le_iff b _).mp (le_refl _)).1, fun f hf => ?_⟩
  rcases h f hf with ⟨g, hg, hle⟩
  exact le_trans hle (le_maxFieldId hg)

mutual

/-- Numbering one field from `n` gives ids from `n` on, and goes on above `n`. -/
theorem mapField_le (f : ArrowField) (parent n c : Int) :
    n < (mapField parent n c f).2.1 ∧ ∀ g ∈ (mapField parent n c f).1, n ≤ g.id := by
  cases f with
  | mk name logicalType nullable physical onDisk children =>
    have hrest := mapFields_le children n (n + 1) (if physical then c + 1 else c)
    grind [mapField]

theorem mapFields_le (fs : List ArrowField) (parent n c : Int) :
    n ≤ (mapFields parent n c fs).2.1 ∧ ∀ g ∈ (mapFields parent n c fs).1, n ≤ g.id := by
  cases fs with
  | nil => simp [mapFields]
  | cons f rest =>
    have hf := mapField_le f parent n c
    have hr := mapFields_le rest parent (mapField parent n c f).2.1 (mapField parent n c f).2.2
    grind [mapFields]

end

/-- The ids a writer opened at `base` gives start at `base`. -/
theorem shiftIds_le (base : Int) (schema : List ArrowField) (g : LanceField)
    (hg : g ∈ shiftIds base (mapArrowSchema schema)) : base ≤ g.id := by
  rcases mem_map.mp hg with ⟨f, hf, rfl⟩
  have := (mapFields_le schema (-1) 0 0).2 f hf
  simp only
  omega

theorem mapping_le {staged : Staged} {base : Int} {g : LanceField}
    (hg : g ∈ staged.mapping base) : base ≤ g.id := by
  rw [Staged.mapping] at hg
  split at hg
  · nomatch hg
  · exact shiftIds_le base _ g (mem_of_mem_filter hg)

variable {m next : Manifest} {mapping : List LanceField} {r : Manifest × List Grant}
  {staged : Except String (List NewFragment)} {schema : List ArrowField} {fuel : Nat}
  {a : ColumnAlteration} {field : Field}

/-- Over a bounded manifest, ids above the largest live one are fresh. -/
theorem fresh_of_bounded (hb : Bounded m) (ids : List Int)
    (hids : ∀ id ∈ ids, maxFieldId m.fields + 1 ≤ id) : Grant.Fresh ⟨m, ids⟩ := by
  intro id hid hlisted
  have hle := hb id hlisted
  have hge := hids id hid
  omega

/-- Two schemas with the same ids have the same largest one. -/
theorem maxFieldId_congr {a b : List Field} (h : a.map (·.id) = b.map (·.id)) :
    maxFieldId a = maxFieldId b := by
  have hmap : ∀ l : List Field, maxFieldId l = (l.map (·.id)).foldl max (-1) := by
    intro l
    rw [foldl_map]
    rfl
  rw [hmap, hmap, h]

/-- The files of the fragments after attaching: the old ones, and ones that list only ids of the
    mapping. -/
theorem attachFiles_files :
    ∀ (pairs : List (Nat × NewFragment)) (fragments next : List DataFragment),
      attachFiles mapping pairs fragments = .ok next →
      ∀ f ∈ next, ∀ file ∈ f.files,
        (∃ g ∈ fragments, file ∈ g.files) ∨ ∀ id ∈ file.fields, id ∈ mapping.map (·.id) := by
  intro pairs
  induction pairs with
  | nil => grind [attachFiles]
  | cons pair rest ih =>
    intro fragments next h f hf file hfile
    rcases pair with ⟨fid, new⟩
    rw [attachFiles] at h
    split at h
    · cases h
    · split at h
      · cases h
      · rcases ih _ _ h f hf file hfile with ⟨g, hg, hgf⟩ | hnew
        · -- The fragment is an old one, or an old one with the new file at its end.
          rcases mem_modifyFirst _ _ hg with hold | ⟨g', hg', _, rfl⟩
          · exact .inl ⟨g, hold, hgf⟩
          · grind [manifestDataFile]
        · exact .inr hnew

variable {ids : List Nat} {files : List NewFragment}

/-- What attaching columns adds to the schema and lists. -/
theorem attachColumns_listed {next : Manifest} {mapping : List LanceField}
    (h : attachColumns m ids mapping files = .ok next) :
    next.fields = m.fields ++ mapping.map makeManifestField ∧ files.length = ids.length ∧
      ∀ id ∈ listedIds next, id ∈ listedIds m ∨ id ∈ mapping.map (·.id) := by
  rw [attachColumns] at h
  split at h
  · cases h
  · rename_i hlen
    split at h
    · cases h
    · rename_i fragments hfiles
      rw [Except.ok.injEq] at h
      rw [← h]
      refine ⟨rfl, not_not.mp hlen, fun id hid => ?_⟩
      rcases (mem_listedIds _ id).mp hid with ⟨f, hf, file, hfile, hin⟩
      rcases attachFiles_files _ _ _ hfiles f hf file hfile with ⟨g, hg, hgf⟩ | hnew
      · exact .inl ((mem_listedIds m id).mpr ⟨g, hg, file, hgf, hin⟩)
      · exact .inr (hnew id hin)

/-- A field of the mapping is a field of the schema it was added to. -/
theorem le_maxFieldId_of_mapping (fields : List Field) {id : Int}
    (hin : ∀ f ∈ mapping, makeManifestField f ∈ fields) (hid : id ∈ mapping.map (·.id)) :
    id ≤ maxFieldId fields := by
  rcases mem_map.mp hid with ⟨f, hf, rfl⟩
  exact le_maxFieldId (hin f hf)

theorem attachColumns_bounded {next : Manifest} {mapping : List LanceField}
    (h : attachColumns m ids mapping files = .ok next) (hb : Bounded m) : Bounded next := by
  rcases attachColumns_listed h with ⟨hfields, _, hlisted⟩
  intro id hid
  rw [hfields]
  rcases hlisted id hid with hold | hnew
  · exact le_trans (hb id hold)
      (maxFieldId_mono (fun f hf => ⟨f, mem_append_left _ hf, le_refl _⟩))
  · exact le_maxFieldId_of_mapping _ (fun f hf => mem_append_right _ (mem_map_of_mem hf)) hnew

/-- Committing lists what was listed and keeps the schema. -/
theorem commit_bounded (hb : Bounded m) : Bounded (commit m) := by
  intro id hid
  rcases (mem_listedIds _ id).mp hid with ⟨f, hf, file, hfile, hin⟩
  exact hb id ((mem_listedIds m id).mpr ⟨f, (mem_sortFragments f _).mp hf, file, hfile, hin⟩)

/-- What a request promises: from a bounded manifest it commits a bounded one, and every id it hands
    out is fresh. -/
def Keeps (m : Manifest) (r : Manifest × List Grant) : Prop :=
  Bounded m → Bounded r.1 ∧ ∀ g ∈ r.2, g.Fresh

/-- Staged columns attached at the end of the schema and committed. -/
theorem attach_keeps {next : Manifest} {staged : Staged}
    (h : attachColumns m (fragmentIds m) (staged.mapping (maxFieldId m.fields + 1)) staged.files =
      .ok next) :
    Keeps m (commit next, [⟨m, (staged.mapping (maxFieldId m.fields + 1)).map (·.id)⟩]) := by
  intro hb
  refine ⟨commit_bounded (attachColumns_bounded h hb), fun g hg => ?_⟩
  rw [mem_singleton.mp hg]
  refine fresh_of_bounded hb _ (fun id hid => ?_)
  rcases mem_map.mp hid with ⟨f, hf, rfl⟩
  exact mapping_le hf

theorem addColumnsSql_keeps {columns : List (String × String)} {types : List ArrowField}
    (h : addColumnsSql m columns types staged = .ok r) :
    Keeps m r := by
  simp only [addColumnsSql, bind_eq_ok, pure_eq_ok] at h
  rcases h with ⟨_, _, _, _, files, _, next, hattach, rfl⟩
  exact attach_keeps hattach

theorem addColumnsStream_keeps (h : addColumnsStream m schema staged = .ok r) : Keeps m r := by
  simp only [addColumnsStream, bind_eq_ok, pure_eq_ok] at h
  rcases h with ⟨_, _, _, _, files, _, next, hattach, rfl⟩
  exact attach_keeps hattach

theorem addColumnsNulls_keeps (h : addColumnsNulls m schema = .ok r) : Keeps m r := by
  simp only [addColumnsNulls, bind_eq_ok, pure_eq_ok] at h
  rcases h with ⟨_, _, _, _, rfl⟩
  intro hb
  refine ⟨commit_bounded (fun id hid => ?_), fun g hg => ?_⟩
  · -- No file is written, so what is listed is what was.
    exact le_trans (hb id hid)
      (maxFieldId_mono (fun f hf => ⟨f, mem_append_left _ hf, le_refl _⟩))
  · rw [mem_singleton.mp hg]
    refine fresh_of_bounded hb _ (fun id hid => ?_)
    rcases mem_map.mp hid with ⟨f, hf, rfl⟩
    rcases mem_map.mp hf with ⟨f', hf', rfl⟩
    exact shiftIds_le _ schema f' hf'

theorem dropColumns_keeps {columns : List (List String)} (h : dropColumns fuel m columns = .ok r)
    (hgood : (ColumnOp.drop columns).keepsTop fuel m = true) : Keeps m r := by
  simp only [dropColumns, bind_eq_ok, pure_eq_ok] at h
  rcases h with ⟨_, _, gone, hgone, _, _, rfl⟩
  simp only [ColumnOp.keepsTop, hgone, keepsTop, all_eq_true, decide_eq_true_eq] at hgood
  intro _
  refine ⟨commit_bounded (fun id hid => ?_), forall_mem_nil _⟩
  rcases (mem_listedIds _ id).mp hid with ⟨f, hf, file, hfile, hin⟩
  grind

theorem alterNullable_ids {r : Manifest × Field} (h : alterNullable m a field = .ok r) :
    r.1.fields.map (·.id) = m.fields.map (·.id) ∧ r.1.fragments = m.fragments := by
  rw [alterNullable] at h
  cases hn : a.nullable with
  | none => grind [pure_eq_ok]
  | some nullable =>
    simp only [hn, bind_eq_ok, pure_eq_ok] at h
    rcases h with ⟨_, _, _, _, rfl⟩
    refine ⟨map_modifyFirst _ _ (fun x hx => ?_) _, rfl⟩
    rw [of_decide_eq_true hx]

theorem alterName_ids {field : Option Field} (h : alterName m a field = .ok next) :
    next.fields.map (·.id) = m.fields.map (·.id) ∧ next.fragments = m.fragments := by
  rw [alterName] at h
  cases hr : a.rename with
  | none => grind [pure_eq_ok]
  | some name =>
    cases field with
    | none => simp only [hr, throw, throwThe, MonadExceptOf.throw, reduceCtorEq] at h
    | some field =>
      simp only [hr, bind_eq_ok, pure_eq_ok] at h
      rcases h with ⟨_, _, rfl⟩
      refine ⟨map_modifyFirst _ _ (fun x _ => ?_) _, rfl⟩
      rfl

/-- An edit that keeps the ids and the fragments keeps the bound. -/
theorem bounded_of_ids (hids : next.fields.map (·.id) = m.fields.map (·.id))
    (hfrag : next.fragments = m.fragments) (hb : Bounded m) : Bounded next := by
  intro id hid
  rw [maxFieldId_congr hids]
  rw [listedIds, hfrag] at hid
  exact hb id hid

/-- A writer that wrote a file of one column has its field in the mapping. -/
theorem mapping_ne_nil (f : ArrowField) (base : Int) (hfiles : files ≠ []) :
    ∃ g, g ∈ (Staged.mapping ⟨[f], files⟩ base) := by
  cases f with
  | mk name logicalType nullable physical onDisk children =>
    have hne : files.isEmpty = false := by grind
    rw [Staged.mapping, if_neg (by simp only [hne, Bool.false_eq_true, not_false_eq_true])]
    -- The column itself, which is top-level and so never left out.
    let top : LanceField :=
      { name, logicalType, id := 0, parentId := -1,
        columnIndex := if physical then 0 else -1, nullable, onDisk }
    have hmem : top ∈ mapArrowSchema [.mk name logicalType nullable physical onDisk children] := by
      grind [mapArrowSchema, mapFields, mapField]
    refine ⟨_, mem_filter.mpr ⟨mem_map.mpr ⟨top, hmem, rfl⟩, ?_⟩⟩
    simp [top]

theorem alterType_keeps (h : alterType m a field = .ok r) : Keeps m r := by
  rw [alterType] at h
  intro hb
  cases ht : a.dataType with
  | none => grind [pure_eq_ok]
  | some dataType =>
    simp only [ht, bind_eq_ok, pure_eq_ok] at h
    rcases h with ⟨_, _, files, _, next, hattach, rfl⟩
    set mapping := Staged.mapping ⟨[dataType.retarget field.name field.nullable], files⟩
      (maxFieldId m.fields + 1) with hmapping
    set erased := m.fields.eraseIdx (m.fields.findIdx (fun f => f.id = field.id))
    rcases attachColumns_listed hattach with ⟨hfields, hlen, hlisted⟩
    have hge : ∀ g ∈ mapping, maxFieldId m.fields + 1 ≤ g.id :=
      fun g hg => mapping_le hg
    -- The new fields are at the end of the schema before the rotation.
    have hin : ∀ g ∈ mapping, makeManifestField g ∈
        rotateFrom (m.fields.findIdx (fun f => f.id = field.id)) erased.length next.fields := by
      grind [rotateFrom]
    refine ⟨fun id hid => ?_, fun g hg => ?_⟩
    · rcases hlisted id hid with hold | hnew
      · -- An old id is below the base, and the base is the new column's id.
        rcases (mem_listedIds _ id).mp hold with ⟨f, hf, _⟩
        have hfiles : files ≠ [] := by grind [fragmentIds]
        rcases mapping_ne_nil (dataType.retarget field.name field.nullable)
          (maxFieldId m.fields + 1) hfiles with ⟨g, hg⟩
        have hold' := hb id hold
        have hgid := hge g hg
        have htop := le_maxFieldId (hin g hg)
        simp only [makeManifestField] at htop ⊢
        omega
      · exact le_maxFieldId_of_mapping _ hin hnew
    · rw [mem_singleton.mp hg]
      refine fresh_of_bounded hb _ (fun id hid => ?_)
      grind

theorem alterColumn_keeps (h : alterColumn m a = .ok r) : Keeps m r := by
  rw [alterColumn] at h
  intro hb
  split at h
  · simp only [throw, throwThe, MonadExceptOf.throw, reduceCtorEq] at h
  · simp only [bind_eq_ok, pure_eq_ok] at h
    rcases h with ⟨⟨m₁, field₁⟩, hnull, ⟨m₂, grants⟩, htype, m₃, hname, rfl⟩
    rcases alterNullable_ids hnull with ⟨hids₁, hfrag₁⟩
    rcases alterType_keeps htype (bounded_of_ids hids₁ hfrag₁ hb) with ⟨hb₂, hg₂⟩
    rcases alterName_ids hname with ⟨hids₃, hfrag₃⟩
    exact ⟨bounded_of_ids hids₃ hfrag₃ hb₂, hg₂⟩

/-- The alterations of one request, by induction over them. -/
theorem alterEach_keeps : ∀ (alterations : List ColumnAlteration) (m : Manifest)
    (r : Manifest × List Grant), alterEach m alterations = .ok r → Keeps m r := by
  intro alterations
  induction alterations with
  | nil =>
    intro m r h hb
    grind [alterEach]
  | cons a rest ih =>
    intro m r h hb
    simp only [alterEach, bind_eq_ok, pure_eq_ok] at h
    rcases h with ⟨⟨next, grants⟩, ha, ⟨last, others⟩, hrest, rfl⟩
    rcases alterColumn_keeps ha hb with ⟨hbn, hgrants⟩
    rcases ih next _ hrest hbn with ⟨hbl, hothers⟩
    grind

theorem alterColumns_keeps {alterations : List ColumnAlteration}
    (h : alterColumns m alterations = .ok r) : Keeps m r := by
  simp only [alterColumns, bind_eq_ok, pure_eq_ok] at h
  rcases h with ⟨_, _, ⟨next, grants⟩, heach, rfl⟩
  intro hb
  rcases alterEach_keeps alterations m _ heach hb with ⟨hbn, hgrants⟩
  exact ⟨commit_bounded hbn, hgrants⟩

/-- The step lemma: one request over a bounded manifest. -/
theorem columnStep_keeps {op : ColumnOp} (h : columnStep fuel m op = .ok r)
    (hgood : op.keepsTop fuel m = true) : Keeps m r := by
  cases op with
  | addSql columns types staged => exact addColumnsSql_keeps h
  | addStream schema staged => exact addColumnsStream_keeps h
  | addNulls schema => exact addColumnsNulls_keeps h
  | drop columns => exact dropColumns_keeps h hgood
  | alter alterations => exact alterColumns_keeps h

/-- Files that list exactly the schema's ids list none above its largest. -/
theorem bounded_of_listsSchema (m : Manifest) (h : ListsSchema m) : Bounded m := by
  intro id hid
  rcases (mem_listedIds m id).mp hid with ⟨f, hf, file, hfile, hin⟩
  have hid' := (h f hf id).mp (mem_flatMap.mpr ⟨file, hfile, hin⟩)
  rcases mem_map.mp hid' with ⟨field, hfield, rfl⟩
  exact le_maxFieldId hfield

/-- In a run over a dataset whose files list exactly the schema's ids, every drop that succeeds
    leaving no listed id above the fields it keeps, no request hands out an id that a data file
    still lists. -/
theorem columnRun_fresh (fuel : Nat) (m : Manifest) (ops : List ColumnOp)
    (hstart : ListsSchema m)
    (hdrops : Lib.EveryCommit (columnStep fuel) (fun m op => op.keepsTop fuel m = true) m ops) :
    ∀ g ∈ (Lib.runLog (columnStep fuel) m ops).2, g.Fresh :=
  (runLog_safe (fun _ _ _ _ hs hgood hok => columnStep_keeps hok hgood hs)
    ops m (bounded_of_listsSchema m hstart) hdrops).2

/-- A dataset of two columns `a` and `b` in one data file of three rows. -/
def twoColumns : Manifest :=
  { version := 1
    fields := [{ name := "a", id := 0 }, { name := "b", id := 1 }]
    fragments := [{ id := 0, physicalRows := 3, files := [{ path := "0.lance", fields := [0, 1] }] }] }

/-- A column `c` computed from `a`, staged in one file. -/
def addC : ColumnOp :=
  .addSql [("c", "a + 1")] [.mk "" "int64" true true true []] (.ok [{ path := "1.lance", rows := 3 }])

theorem twoColumns_listsSchema : ListsSchema twoColumns := by
  intro f hf id
  grind [twoColumns]

/-- Dropping the first column leaves the largest id live, and the column added after it takes a
    fresh one. -/
theorem columnRun_fresh_drop_first :
    ListsSchema twoColumns ∧
      ∀ g ∈ (Lib.runLog (columnStep 2) twoColumns [.drop [["a"]], addC]).2, g.Fresh :=
  ⟨twoColumns_listsSchema,
    columnRun_fresh 2 twoColumns _ twoColumns_listsSchema (by decide)⟩

/-- Dropping the last column and adding another hands the dropped id out while the file of the two
    columns still lists it. -/
theorem dropped_id_handed_out :
    ListsSchema twoColumns ∧
      ∃ g ∈ (Lib.runLog (columnStep 2) twoColumns [.drop [["b"]], addC]).2, ¬ g.Fresh := by
  refine ⟨twoColumns_listsSchema,
    ⟨{ twoColumns with version := 2, fields := [{ name := "a", id := 0 }] }, [1]⟩,
    by decide, fun hfresh => ?_⟩
  exact hfresh 1 (by decide) (by decide)

end NanoLance
