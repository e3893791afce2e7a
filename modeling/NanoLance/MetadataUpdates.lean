import Mathlib.Data.List.Induction
import NanoLance.Conflicts
import NanoLance.Transaction

/-!
# Metadata Updates

An UpdateConfig changes up to four kinds of string-keyed maps: the config, the
table metadata, the schema metadata and the metadata of single fields. Two of
them that the conflict table lets through are committed one over the other, in
the order they arrive, and a schema projection is committed over one.

A map is what its keys look up to, so maps are compared key by key
(`SameMap`), and an update is what it does to one key (`UpdateMap.effect`). The
order of two updates matters only where one of them empties the map:
`updateConfig_commute_iff` says so for a compatible pair, since the check on
config keys does not look at `replace`.

A Project carries the whole schema of the version it was made from, field
metadata included, and puts it in place of the latest one's.
`project_keeps_metadata_iff` says when nothing is lost by that.

## Theorems

* `applyFieldMetadata_ok`, `find_foldl_updateField`: The field updates, all of
  them and at one field.
* `updateConfig_commute_iff`: When two compatible metadata changes commute.
* `project_keeps_metadata_iff`: When a rebased projection keeps the metadata.
-/

namespace NanoLance

open List Lib

section Maps

variable {α : Type}

/-- Two maps with the same value under every key. -/
def SameMap (a b : StringMap α) : Prop := ∀ key, a.lookup key = b.lookup key

/-- What an update says of a key: the last of its entries for it. -/
def UpdateMap.entry (update : UpdateMap) (key : String) : Option (Option String) :=
  update.entries.reverse.lookup key

/-- The value an update leaves under a key that had `old`. -/
def UpdateMap.effect (convert : String → α) (update : UpdateMap) (key : String)
    (old : Option α) : Option α :=
  match update.entry key with
  | some value => value.map convert
  | none => if update.replace then none else old

theorem lookup_mapErase (target : StringMap α) (key other : String) :
    (mapErase target key).lookup other = if other = key then none else target.lookup other := by
  induction target with
  | nil => simp only [mapErase, filter_nil, lookup_nil, ite_self]
  | cons e rest ih =>
    rw [mapErase] at ih ⊢
    rcases e with ⟨name, value⟩
    by_cases hname : name = key
    · grind
    · grind

theorem lookup_mapInsert (target : StringMap α) (key other : String) (value : α) :
    (mapInsert target key value).lookup other =
      if other = key then some value else target.lookup other := by
  rw [mapInsert, lookup_cons]
  by_cases hother : other = key
  · rw [beq_iff_eq.mpr hother, if_pos hother]
  · have herase := lookup_mapErase target key other
    rw [if_neg hother] at herase
    rw [beq_eq_false_iff_ne.mpr hother, if_neg hother]
    exact herase

/-- An update read key by key. -/
theorem lookup_applyUpdateMap (convert : String → α) (target : StringMap α) (update : UpdateMap)
    (key : String) :
    (applyUpdateMap convert target update).lookup key =
      update.effect convert key (target.lookup key) := by
  rcases update with ⟨entries, replace⟩
  unfold applyUpdateMap UpdateMap.effect UpdateMap.entry
  -- The last entry is the one that counts, so the induction is from the end.
  induction entries using reverseRecOn with
  | nil => cases replace <;> rfl
  | append_singleton entries e ih =>
    rcases e with ⟨name, value⟩
    rw [foldl_append, foldl_cons, foldl_nil, reverse_append,
      reverse_singleton, singleton_append, lookup_cons]
    by_cases hname : key = name
    · grind [lookup_mapErase, lookup_mapInsert]
    · rw [beq_eq_false_iff_ne.mpr hname]
      cases value with
      | none => simpa only [lookup_mapErase, hname, if_false] using ih
      | some v => simpa only [lookup_mapInsert, hname, if_false] using ih

end Maps

variable {key : String} {op a b : Operation} {α : Type} {u : UpdateMap} (convert : String → α)

section Commuting

variable {α : Type}

/-- No key that one update sets is mentioned by the other. -/
def Apart (a b : UpdateMap) : Prop :=
  (∀ e ∈ a.entries, e.2.isSome = true → e.1 ∉ b.entries.map Prod.fst) ∧
    ∀ e ∈ b.entries, e.2.isSome = true → e.1 ∉ a.entries.map Prod.fst

/-- One update empties the map of which another leaves a key set. -/
def Empties (b a : UpdateMap) : Prop :=
  b.replace = true ∧ ∃ key value, a.entry key = some (some value)

theorem Apart.symm (a b : UpdateMap) (h : Apart a b) : Apart b a := ⟨h.2, h.1⟩

theorem mem_of_entry {update : UpdateMap} {value : Option String}
    (h : update.entry key = some value) : (key, value) ∈ update.entries := by
  rcases lookup_eq_some_iff.mp h with ⟨before, after, heq, -⟩
  rw [← mem_reverse, heq]
  exact mem_append_right before (.head _)

/-- An update that says nothing of a key another update sets. -/
theorem Apart.entry_eq_none {a b : UpdateMap} (h : Apart a b) {key value : String}
    (hset : a.entry key = some (some value)) : b.entry key = none := by
  cases hother : b.entry key with
  | none => rfl
  | some other =>
    have hmem := mem_map_of_mem (f := Prod.fst) (mem_of_entry hother)
    exact absurd hmem (h.1 (key, some value) (mem_of_entry hset) rfl)

/-- Two updates that set no common key leave the same under a key in either order, unless one
    empties the map of which the other set the key. -/
theorem effect_comm (convert : String → α) {a b : UpdateMap} (h : Apart a b)
    (hab : ¬ Empties b a) (hba : ¬ Empties a b) (key : String) (old : Option α) :
    b.effect convert key (a.effect convert key old) =
      a.effect convert key (b.effect convert key old) := by
  have hkeep : ∀ x y : UpdateMap, ¬ Empties y x → ∀ value, x.entry key = some (some value) →
      y.replace = false := by
    intro x y hno value hset
    rw [← Bool.not_eq_true]
    exact fun hreplace => hno ⟨hreplace, key, value, hset⟩
  unfold UpdateMap.effect
  rcases ha : a.entry key with _ | _ | v
  · -- Only the other update can say something of the key.
    rcases hb : b.entry key with _ | _ | w
    · grind
    · simp
    · simp [hkeep b a hba w hb]
  · rcases hb : b.entry key with _ | _ | w
    · simp
    · rfl
    · have hnone := Apart.entry_eq_none h.symm hb
      cases (hnone.symm.trans ha)
  · have hb := Apart.entry_eq_none h ha
    simp [hb, hkeep a b hab v ha]

/-- Where one does, the key is lost in one order and kept in the other. -/
theorem effect_ne_of_empties {a b : UpdateMap} (h : Apart a b) (hempties : Empties b a) :
    ∃ key, ∀ old, b.effect convert key (a.effect convert key old) ≠
      a.effect convert key (b.effect convert key old) := by
  rcases hempties with ⟨hreplace, key, value, hset⟩
  have hb := Apart.entry_eq_none h hset
  refine ⟨key, fun old => ?_⟩
  simp [UpdateMap.effect, hset, hb, hreplace]

end Commuting

/-- The stored form of a metadata value. -/
def metadataBytes (s : String) : Bytes := s.toUTF8.toList

/-- A field with its metadata updated. -/
def updated (update : UpdateMap) (f : Field) : Field :=
  { f with metadata := applyUpdateMap metadataBytes f.metadata update }

/-- The update of one field of a schema. -/
def updateField (fields : List Field) (update : Int × UpdateMap) : List Field :=
  Lib.modifyFirst (fun f => f.id = update.1) (updated update.2) fields

variable (m : Manifest) {updates : List (Int × UpdateMap)} {stable : Bool} (fields : List Field)

theorem updateField_ids (update : Int × UpdateMap) :
    (updateField fields update).map (·.id) = fields.map (·.id) :=
  map_modifyFirst _ (updated update.2) (fun _ _ => rfl) fields

/-- The field updates run one after the other when all their fields exist. -/
theorem applyFieldMetadata_eq (h : ∀ u ∈ updates, u.1 ∈ fields.map (·.id)) :
    applyFieldMetadata updates fields = .ok (updates.foldl updateField fields) := by
  induction updates generalizing fields with
  | nil => rfl
  | cons u rest ih =>
    rcases u with ⟨id, update⟩
    rcases forall_mem_cons.mp h with ⟨hid, hrest⟩
    rcases mem_map.mp hid with ⟨f, hf, hfid⟩
    have hfound : (fields.find? (fun f => f.id = id)).isSome = true :=
      find?_isSome.mpr ⟨f, hf, decide_eq_true hfid⟩
    rcases Option.isSome_iff_exists.mp hfound with ⟨g, hg⟩
    rw [applyFieldMetadata, hg]
    exact ih (updateField fields (id, update))
      (fun v hv => updateField_ids fields (id, update) ▸ hrest v hv)

/-- They run only then. -/
theorem applyFieldMetadata_ok (out : List Field) (h : applyFieldMetadata updates fields = .ok out) :
    out = updates.foldl updateField fields := by
  induction updates generalizing fields with
  | nil => exact (Except.ok.inj h).symm
  | cons u rest ih =>
    rcases u with ⟨id, update⟩
    rw [applyFieldMetadata] at h
    cases hfind : fields.find? (fun f => f.id = id) with
    | none => rw [hfind] at h; cases h
    | some f => rw [hfind] at h; exact ih _ h

theorem foldl_updateField_ids :
    (updates.foldl updateField fields).map (·.id) = fields.map (·.id) := by
  induction updates generalizing fields with
  | nil => rfl
  | cons u rest ih => rw [foldl_cons, ih, updateField_ids]

/-- What the updates leave at one field: those of its id, in order. -/
theorem find_foldl_updateField (id : Int) (updates : List (Int × UpdateMap)) (fields : List Field) :
    (updates.foldl updateField fields).find? (fun f => f.id = id) =
      (fields.find? (fun f => f.id = id)).map (fun f => { f with
        metadata := (updates.filter (fun u => u.1 = id)).foldl
          (fun acc u => applyUpdateMap metadataBytes acc u.2) f.metadata }) := by
  induction updates generalizing fields with
  | nil => simp only [foldl_nil, filter_nil, Option.map_id']
  | cons u rest ih =>
    rw [foldl_cons, ih]
    by_cases hid : u.1 = id
    · rw [updateField, hid,
        find_modifyFirst_self (fun f : Field => f.id) (updated u.2) id (fun x hx => hx),
        Option.map_map]
      simp only [filter_cons, hid, decide_true, if_true, foldl_cons]
      rfl
    · rw [updateField, find_modifyFirst_other (fun x hx => ?_),
        filter_cons_of_neg (by rw [decide_eq_true_eq]; exact hid)]
      have hx : x.id = u.1 := of_decide_eq_true hx
      exact ⟨hx ▸ hid, hx ▸ hid⟩

/-- Updates of different fields may be made in either order. -/
theorem updateField_comm {u v : Int × UpdateMap} (hne : u.1 ≠ v.1) (fields : List Field) :
    updateField (updateField fields u) v = updateField (updateField fields v) u :=
  modifyFirst_comm (fun f : Field => f.id) hne.symm (updated v.2) (updated u.2)
    (fun _ => rfl) (fun _ => rfl) fields

/-- The four kinds of metadata of two versions, the same. -/
structure SameMetadata (m n : Manifest) : Prop where
  config : SameMap m.config n.config
  tableMetadata : SameMap m.tableMetadata n.tableMetadata
  schemaMetadata : SameMap m.schemaMetadata n.schemaMetadata
  fields : m.fields = n.fields

/-- A change that empties the config of which another leaves a key set. -/
def EmptiesConfigOf (b a : Operation) : Prop :=
  ∃ u w, b.configUpdates = some u ∧ a.configUpdates = some w ∧ Empties u w

/-- What an UpdateConfig leaves, its fields being there. -/
def withUpdates (m : Manifest) (op : Operation) : Manifest :=
  { m with
    config := updateIfGiven id m.config op.configUpdates
    tableMetadata := updateIfGiven id m.tableMetadata op.tableMetadataUpdates
    schemaMetadata := updateIfGiven metadataBytes m.schemaMetadata op.schemaMetadataUpdates
    fields := op.fieldMetadataUpdates.foldl updateField m.fields }

theorem applyOperation_updateConfig (stable : Bool) (version : Nat)
    (hkind : op.kind = .updateConfig) (hnone : op.schemaMetadata = none)
    (h : ∀ u ∈ op.fieldMetadataUpdates, u.1 ∈ m.fields.map (·.id)) :
    applyOperation (some m) op stable version =
      .ok (finish (withUpdates m op) (isStable m)) := by
  have hvalid : operationValid (some m) op = .ok () := by simp [operationValid, ensure, hkind]
  have hstart : startManifest (some m) op = m := by
    simp [startManifest, Operation.hasSchema, hkind, hnone]
  have hstable : (isStable m || (stable && ((some m).isNone || decide (op.kind = .overwrite)))) =
      isStable m := by
    rw [hkind]
    simp
  have hfields := applyFieldMetadata_eq m.fields h
  have hkindEffect : ∀ nextId, applyKind m op nextId (isStable m) version =
      .ok (withUpdates m op) := by
    intro nextId
    simp only [applyKind, hkind, applyUpdateConfig, hfields, bind, Except.bind, pure, Except.pure]
    rfl
  simp only [applyOperation, hvalid, hstart, hstable, hkindEffect, bind, Except.bind, pure,
    Except.pure]

/-- Two UpdateConfigs applied in turn, as one update after the other of each map. -/
theorem applyInTurn_updateConfig {m : Manifest} (version : Nat) (ha : a.kind = .updateConfig)
    (hb : b.kind = .updateConfig) (hanone : a.schemaMetadata = none)
    (hbnone : b.schemaMetadata = none)
    (hafields : ∀ u ∈ a.fieldMetadataUpdates, u.1 ∈ m.fields.map (·.id))
    (hbfields : ∀ u ∈ b.fieldMetadataUpdates, u.1 ∈ m.fields.map (·.id)) :
    ∃ n, applyInTurn stable version m [a, b] = .ok n ∧
      n.config = updateIfGiven id (updateIfGiven id m.config a.configUpdates) b.configUpdates ∧
      n.tableMetadata = updateIfGiven id (updateIfGiven id m.tableMetadata a.tableMetadataUpdates)
        b.tableMetadataUpdates ∧
      n.schemaMetadata = updateIfGiven metadataBytes
        (updateIfGiven metadataBytes m.schemaMetadata a.schemaMetadataUpdates)
        b.schemaMetadataUpdates ∧
      n.fields = b.fieldMetadataUpdates.foldl updateField
        (a.fieldMetadataUpdates.foldl updateField m.fields) := by
  have hids : (finish (withUpdates m a) (isStable m)).fields.map (·.id) = m.fields.map (·.id) :=
    foldl_updateField_ids m.fields
  have hsecond := applyOperation_updateConfig (finish (withUpdates m a) (isStable m)) stable
    (version + 1) hb hbnone (fun u hu => hids ▸ hbfields u hu)
  refine ⟨finish (withUpdates (finish (withUpdates m a) (isStable m)) b)
    (isStable (finish (withUpdates m a) (isStable m))), ?_, rfl, rfl, rfl, rfl⟩
  simp only [applyInTurn, applyOperation_updateConfig m stable version ha hanone hafields,
    hsecond, bind, Except.bind]

theorem lookup_updateIfGiven (target : StringMap α) (update : UpdateMap) (key : String) :
    (updateIfGiven convert target (some update)).lookup key =
      update.effect convert key (target.lookup key) :=
  lookup_applyUpdateMap convert target update key

/-- Two given updates in either order, where they commute key by key. -/
theorem sameMap_updateIfGiven (target : StringMap α) {a b : Option UpdateMap}
    (h : ∀ u w, a = some u → b = some w → Apart u w ∧ ¬ Empties w u ∧ ¬ Empties u w) :
    SameMap (updateIfGiven convert (updateIfGiven convert target a) b)
      (updateIfGiven convert (updateIfGiven convert target b) a) := by
  intro key
  cases a with
  | none => rfl
  | some u =>
    cases b with
    | none => rfl
    | some w =>
      rcases h u w rfl rfl with ⟨hapart, hwu, huw⟩
      simp only [lookup_updateIfGiven]
      exact effect_comm convert hapart hwu huw key _

/-- A key an update sets is among the config keys its change sets. -/
theorem mem_upsertedConfigKeys (hkind : op.kind = .updateConfig) (hu : op.configUpdates = some u)
    {e : String × Option String} (he : e ∈ u.entries) (hset : e.2.isSome = true) :
    e.1 ∈ upsertedConfigKeys op := by grind [upsertedConfigKeys]

/-- A key an update mentions is one its change sets or removes. -/
theorem mem_configKeys (hkind : op.kind = .updateConfig) (hu : op.configUpdates = some u)
    (h : key ∈ u.entries.map Prod.fst) :
    key ∈ upsertedConfigKeys op ∨ key ∈ deletedConfigKeys op := by
  rcases mem_map.mp h with ⟨e, he, rfl⟩
  by_cases hset : e.2.isSome = true
  · exact .inl (mem_upsertedConfigKeys hkind hu he hset)
  · refine .inr ?_
    simp only [deletedConfigKeys, hkind, hu, Option.getD_some]
    refine mem_map_of_mem (mem_filter.mpr ⟨he, ?_⟩)
    rw [← Option.not_isSome, Bool.eq_false_iff.mpr hset, Bool.not_false]

/-- Without a conflict on config keys, no key set by one is mentioned by the other. -/
theorem upsertKeyConflict_apart (ha : a.kind = .updateConfig) (hb : b.kind = .updateConfig)
    (h : upsertKeyConflict a b = false) (u w : UpdateMap) (hu : a.configUpdates = some u)
    (hw : b.configUpdates = some w) : Apart u w := by
  simp only [upsertKeyConflict, Bool.or_eq_false_iff, any_eq_false, Bool.or_eq_true,
    decide_eq_true_eq] at h
  refine ⟨fun e he hset hmem => ?_, fun e he hset hmem => ?_⟩
  · exact h.1 e.1 (mem_upsertedConfigKeys ha hu he hset) (mem_configKeys hb hw hmem)
  · exact h.2 e.1 (mem_upsertedConfigKeys hb hw he hset) (mem_configKeys ha hu hmem)

/-- Nor do two updates without a conflict of maps mention a common key or empty the map. -/
theorem updateMapsConflict_apart (u w : UpdateMap)
    (h : updateMapsConflict (some u) (some w) = false) :
    Apart u w ∧ ¬ Empties w u ∧ ¬ Empties u w := by
  simp only [updateMapsConflict, Bool.or_eq_false_iff, any_eq_false, decide_eq_true_eq] at h
  rcases h with ⟨⟨hu, hw⟩, hkeys⟩
  refine ⟨⟨fun e he _ hmem => ?_, fun e he _ hmem => hkeys e he hmem⟩, fun hno => ?_, fun hno => ?_⟩
  · grind
  · exact absurd (hw.symm.trans hno.1) (by decide)
  · exact absurd (hu.symm.trans hno.1) (by decide)

/-- What a verdict of compatible on two UpdateConfigs rules out. -/
theorem checkTxn_updateConfig (ha : a.kind = .updateConfig) (hb : b.kind = .updateConfig)
    (h : checkTxn a b = .compatible) :
    upsertKeyConflict a b = false ∧
      updateMapsConflict a.tableMetadataUpdates b.tableMetadataUpdates = false ∧
      (a.schemaMetadataUpdates = none ∨ b.schemaMetadataUpdates = none) ∧
      ∀ x ∈ a.fieldMetadataUpdates, ∀ y ∈ b.fieldMetadataUpdates, x.1 ≠ y.1 := by
  have hcheck : updateConfigCheck a b = .compatible := by
    simpa only [checkTxn, mayAlterNullability, suppliesValues, ha, hb, reduceCtorEq,
      decide_false, Bool.or_self, Bool.false_and, Bool.and_false, Bool.false_eq_true,
      if_false] using h
  have hno : (upsertKeyConflict a b || modifiesSameMetadata a b) = false := by
    grind [updateConfigCheck]
  simp only [modifiesSameMetadata, ha, hb, decide_true, Bool.true_and, Bool.or_eq_false_iff,
    Bool.and_eq_false_iff, Option.isSome_eq_false_iff, Option.isNone_iff_eq_none,
    any_eq_false, decide_eq_true_eq] at hno
  grind

/-- Two compatible metadata changes give the same metadata in either order exactly when neither
    empties the config of which the other leaves a key set. -/
theorem updateConfig_commute_iff (m : Manifest) (a b : Operation) (stable : Bool) (version : Nat)
    (ha : a.kind = .updateConfig) (hb : b.kind = .updateConfig)
    (hanone : a.schemaMetadata = none) (hbnone : b.schemaMetadata = none)
    (hcompatible : checkTxn a b = .compatible)
    (hafields : ∀ u ∈ a.fieldMetadataUpdates, u.1 ∈ m.fields.map (·.id))
    (hbfields : ∀ u ∈ b.fieldMetadataUpdates, u.1 ∈ m.fields.map (·.id)) :
    ∃ ab ba, applyInTurn stable version m [a, b] = .ok ab ∧
      applyInTurn stable version m [b, a] = .ok ba ∧
      (SameMetadata ab ba ↔ ¬ EmptiesConfigOf a b ∧ ¬ EmptiesConfigOf b a) := by
  rcases applyInTurn_updateConfig version ha hb hanone hbnone hafields hbfields with
    ⟨ab, hab, habConfig, habTable, habSchema, habFields⟩
  rcases applyInTurn_updateConfig version hb ha hbnone hanone hbfields hafields with
    ⟨ba, hba, hbaConfig, hbaTable, hbaSchema, hbaFields⟩
  rcases checkTxn_updateConfig ha hb hcompatible with ⟨hkeys, htable, hschema, hfields⟩
  have hapart := upsertKeyConflict_apart ha hb hkeys
  refine ⟨ab, ba, hab, hba, fun hsame => ?_, fun hkeep => ⟨?_, ?_, ?_, ?_⟩⟩
  · -- A key that one of them loses in one order only tells the two apart.
    have hconfig := hsame.config
    rw [habConfig, hbaConfig] at hconfig
    refine ⟨?_, ?_⟩
    · rintro ⟨u, w, hu, hw, hempties⟩
      rcases effect_ne_of_empties id (hapart u w hu hw).symm hempties with ⟨key, hne⟩
      refine hne (m.config.lookup key) ?_
      simpa only [hu, hw, lookup_updateIfGiven] using (hconfig key).symm
    · rintro ⟨w, u, hw, hu, hempties⟩
      rcases effect_ne_of_empties id (hapart u w hu hw) hempties with ⟨key, hne⟩
      refine hne (m.config.lookup key) ?_
      simpa only [hu, hw, lookup_updateIfGiven] using hconfig key
  · rw [habConfig, hbaConfig]
    refine sameMap_updateIfGiven id m.config (fun u w hu hw => ⟨hapart u w hu hw, ?_, ?_⟩)
    · exact fun h => hkeep.2 ⟨w, u, hw, hu, h⟩
    · exact fun h => hkeep.1 ⟨u, w, hu, hw, h⟩
  · rw [habTable, hbaTable]
    refine sameMap_updateIfGiven id m.tableMetadata (fun u w hu hw => ?_)
    exact updateMapsConflict_apart u w (hu ▸ hw ▸ htable)
  · -- At most one of the two updates the schema metadata.
    rw [habSchema, hbaSchema]
    refine sameMap_updateIfGiven metadataBytes m.schemaMetadata (fun u w hu hw => ?_)
    grind
  · rw [habFields, hbaFields]
    exact foldl_comm
      (fun x hx y hy fields => updateField_comm (hfields x hx y hy) fields) m.fields

/-- A table of one column `a` with one config key. -/
def configured : Manifest := { fields := [{ name := "a", id := 0 }], config := [("y", "2")] }

/-- Sets a config key and the unit of column `a`. -/
def setX : Operation :=
  { kind := .updateConfig
    configUpdates := some { entries := [("x", some "1")] }
    fieldMetadataUpdates := [(0, { entries := [("unit", some "m")] })] }

def removeY : Operation :=
  { kind := .updateConfig, configUpdates := some { entries := [("y", none)] } }

/-- Replaces the config by one of a single key. -/
def replaceByX : Operation :=
  { kind := .updateConfig
    configUpdates := some { entries := [("x", some "1")], replace := true } }

def setZ : Operation :=
  { kind := .updateConfig, configUpdates := some { entries := [("z", some "3")] } }

/-- A change that sets one key (and the unit of a column) and one that removes another. -/
theorem updateConfig_commute_iff_two_keys :
    checkTxn setX removeY = .compatible ∧
      ∃ ab ba, applyInTurn false 2 configured [setX, removeY] = .ok ab ∧
        applyInTurn false 2 configured [removeY, setX] = .ok ba ∧
        (SameMetadata ab ba ↔ ¬ EmptiesConfigOf setX removeY ∧ ¬ EmptiesConfigOf removeY setX) :=
  ⟨by decide, updateConfig_commute_iff configured setX removeY false 2 rfl rfl rfl rfl
    (by decide) (by decide) (by decide)⟩

/-- A change that replaces the config and one that sets another key are compatible, and the key is
    kept or lost with the order. -/
theorem config_replace_loses_key :
    checkTxn replaceByX setZ = .compatible ∧
      ∃ ab ba, applyInTurn false 2 configured [replaceByX, setZ] = .ok ab ∧
        applyInTurn false 2 configured [setZ, replaceByX] = .ok ba ∧
        ab.config.lookup "z" = some "3" ∧ ba.config.lookup "z" = none :=
  ⟨by decide, _, _, rfl, rfl, by decide, by decide⟩

/-- No metadata of `latest` is lost in `next`: what remains of the schema has the field metadata it
    has there, and the other maps are the same. -/
structure KeepsMetadata (latest next : Manifest) : Prop where
  fields : ∀ f ∈ next.fields, ∃ g, latest.fields.find? (fun g => g.id = f.id) = some g ∧
    SameMap f.metadata g.metadata
  schemaMetadata : SameMap next.schemaMetadata latest.schemaMetadata
  tableMetadata : SameMap next.tableMetadata latest.tableMetadata
  config : SameMap next.config latest.config

/-- A projection made from a version: every field it keeps is one of the version's, with the
    metadata it has there. -/
def ProjectedFrom (base : Manifest) (ours : Operation) : Prop :=
  ∀ f ∈ ours.schema, ∃ g, base.fields.find? (fun g => g.id = f.id) = some g ∧
    SameMap f.metadata g.metadata

/-- An update that leaves every key of a map as it is. -/
def UpdateMap.Idle (update : UpdateMap) (metadata : StringMap Bytes) : Prop :=
  ∀ key, update.effect metadataBytes key (metadata.lookup key) = metadata.lookup key

theorem UpdateMap.effect_congr (update : UpdateMap) (x y : StringMap Bytes) (h : SameMap x y) :
    update.Idle x ↔ update.Idle y :=
  forall_congr' (fun key => by rw [h key])

/-- A projection applied: its schema, and everything else as it was. -/
theorem rebaseOperation_project (latest made : Manifest) {ours : Operation}
    (theirs : List Operation) (version : Nat) (hkind : ours.kind = .project)
    (hnone : ours.schemaMetadata = none) :
    ∃ next, rebaseOperation latest made ours theirs version = .ok next ∧
      next.fields = ours.schema ∧ next.schemaMetadata = latest.schemaMetadata ∧
      next.tableMetadata = latest.tableMetadata ∧ next.config = latest.config := by
  have hrenumbered : renumbered ours = ours := by simp [renumbered, hkind]
  have hstart : startManifest (some latest) ours = { latest with fields := ours.schema } := by
    simp [startManifest, Operation.hasSchema, hkind, hnone]
  have happly : ∃ stable, applyOperation (some latest) ours false version =
      .ok (finish (applyProject { latest with fields := ours.schema }) stable) := by
    refine ⟨isStable { latest with fields := ours.schema }, ?_⟩
    simp [applyOperation, operationValid, applyKind, hkind, hstart, ensure]
  rcases happly with ⟨stable, happly⟩
  refine ⟨finish (applyProject { latest with fields := ours.schema }) stable, ?_, rfl, rfl, rfl, rfl⟩
  simp [rebaseOperation, hkind, hrenumbered, happly, ensure]

/-- The metadata of one field after an UpdateConfig, whose field updates are a map: updated if it is
    named, and as it was if not. -/
theorem updateConfig_find {base latest : Manifest} {theirs : Operation} {stable : Bool}
    {version : Nat} (hkind : theirs.kind = .updateConfig)
    (hkeys : (theirs.fieldMetadataUpdates.map Prod.fst).Nodup)
    (h : applyOperation (some base) theirs stable version = .ok latest) {id : Int} {g : Field}
    (hg : base.fields.find? (fun f => f.id = id) = some g) :
    ∃ l, latest.fields.find? (fun f => f.id = id) = some l ∧
      ((∀ u, (id, u) ∉ theirs.fieldMetadataUpdates) → l.metadata = g.metadata) ∧
      ∀ u, (id, u) ∈ theirs.fieldMetadataUpdates →
        l.metadata = applyUpdateMap metadataBytes g.metadata u := by
  simp only [applyOperation, applyKind, hkind, applyUpdateConfig, bind_eq_ok, pure_eq_ok] at h
  rcases h with ⟨-, -, applied, ⟨fields, hfields, rfl⟩, rfl⟩
  have hbase : (startManifest (some base) theirs).fields = base.fields := by
    simp [startManifest, Operation.hasSchema, hkind]
  have hall := applyFieldMetadata_ok _ _ hfields
  rw [hbase] at hall
  have hfind := find_foldl_updateField id theirs.fieldMetadataUpdates base.fields
  rw [hg, Option.map_some, ← hall] at hfind
  refine ⟨_, hfind, fun hno => ?_, fun u hu => ?_⟩
  · have hempty : theirs.fieldMetadataUpdates.filter (fun u => u.1 = id) = [] := by
      refine filter_eq_nil_iff.mpr (fun u hu heq => hno u.2 ?_)
      grind
    simp [hempty]
  · have hone : theirs.fieldMetadataUpdates.filter (fun u => u.1 = id) = [(id, u)] :=
      filter_key_eq hkeys hu
    simp [hone]

/-- A projection rebased over a metadata change keeps the metadata exactly when the change says
    nothing new of the fields the projection keeps. -/
theorem project_keeps_metadata_iff (base latest made : Manifest) (theirs ours : Operation)
    (stable : Bool) (version : Nat) (htheirs : theirs.kind = .updateConfig)
    (hkeys : (theirs.fieldMetadataUpdates.map Prod.fst).Nodup)
    (hlatest : applyOperation (some base) theirs stable version = .ok latest)
    (hours : ours.kind = .project) (hnone : ours.schemaMetadata = none)
    (hmade : ProjectedFrom base ours) :
    checkTxn ours theirs = .compatible ∧
      ∃ next, rebaseOperation latest made ours [theirs] (version + 1) = .ok next ∧
        (KeepsMetadata latest next ↔
          ∀ f ∈ ours.schema, ∀ u, (f.id, u) ∈ theirs.fieldMetadataUpdates → u.Idle f.metadata) := by
  have hcheck : checkTxn ours theirs = .compatible := by
    simp only [checkTxn, suppliesValues, updatesSchemaOrFieldMetadata, projectCheck, htheirs, hours,
      reduceCtorEq, decide_false, Bool.or_self, Bool.false_and, Bool.and_false, Bool.false_eq_true,
      if_false]
  rcases rebaseOperation_project latest made [theirs] (version + 1) hours hnone with
    ⟨next, hnext, hfields, hschema, htable, hconfig⟩
  refine ⟨hcheck, next, hnext, fun hkeeps f hf u hu => ?_, fun hidle => ⟨?_, ?_, ?_, ?_⟩⟩
  · rcases hmade f hf with ⟨g, hg, hsame⟩
    rcases updateConfig_find htheirs hkeys hlatest hg with ⟨l, hl, -, hupdated⟩
    rcases hkeeps.fields f (hfields ▸ hf) with ⟨l', hl', hsame'⟩
    rcases Option.some.inj (hl.symm.trans hl')
    rw [UpdateMap.effect_congr u f.metadata g.metadata hsame]
    -- The latest metadata is the updated one, and it is still the base's.
    intro key
    rw [← lookup_applyUpdateMap, ← hupdated u hu, ← hsame' key, hsame key]
  · intro f hf
    rw [hfields] at hf
    rcases hmade f hf with ⟨g, hg, hsame⟩
    rcases updateConfig_find htheirs hkeys hlatest hg with ⟨l, hl, hother, hupdated⟩
    refine ⟨l, hl, fun key => ?_⟩
    by_cases hnamed : ∃ u, (f.id, u) ∈ theirs.fieldMetadataUpdates
    · rcases hnamed with ⟨u, hu⟩
      rw [hupdated u hu, lookup_applyUpdateMap, ← hsame key, hidle f hf u hu key]
    · rw [hother (fun u hu => hnamed ⟨u, hu⟩), hsame key]
  · rw [hschema]
    exact fun key => rfl
  · rw [htable]
    exact fun key => rfl
  · rw [hconfig]
    exact fun key => rfl

/-- A table of two columns. -/
def annotated : Manifest :=
  { fields := [{ name := "a", id := 0 }, { name := "b", id := 1 }] }

/-- Keeps column `a` alone. -/
def keepA : Operation :=
  { kind := .project, schema := [{ name := "a", id := 0 }], preservesNullability := true }

/-- Sets the unit of a column. -/
def setUnit (id : Int) : Operation :=
  { kind := .updateConfig, fieldMetadataUpdates := [(id, { entries := [("unit", some "m")] })] }

/-- A change of the column that is dropped. -/
theorem project_keeps_metadata_iff_dropped :
    ProjectedFrom annotated keepA ∧
      ∃ latest, applyOperation (some annotated) (setUnit 1) false 2 = .ok latest ∧
        checkTxn keepA (setUnit 1) = .compatible ∧
        ∃ next, rebaseOperation latest annotated keepA [setUnit 1] 3 = .ok next ∧
          (KeepsMetadata latest next ↔ ∀ f ∈ keepA.schema, ∀ u,
            (f.id, u) ∈ (setUnit 1).fieldMetadataUpdates → u.Idle f.metadata) := by
  have hmade : ProjectedFrom annotated keepA := by
    intro f hf
    rcases mem_singleton.mp hf with rfl
    exact ⟨_, rfl, fun key => rfl⟩
  exact ⟨hmade, _, rfl, project_keeps_metadata_iff annotated _ annotated (setUnit 1) keepA false 2
    rfl (by decide) rfl rfl rfl hmade⟩

/-- A change of the column that is kept is undone by the rebased projection. -/
theorem projection_loses_unit :
    ProjectedFrom annotated keepA ∧ checkTxn keepA (setUnit 0) = .compatible ∧
      ∃ latest next, applyOperation (some annotated) (setUnit 0) false 2 = .ok latest ∧
        rebaseOperation latest annotated keepA [setUnit 0] 3 = .ok next ∧
        latest.fields.map (fun f => (f.name, f.metadata)) =
          [("a", [("unit", metadataBytes "m")]), ("b", [])] ∧
        next.fields.map (fun f => (f.name, f.metadata)) = [("a", [])] := by
  refine ⟨?_, by decide, _, _, rfl, rfl, rfl, rfl⟩
  intro f hf
  rcases mem_singleton.mp hf with rfl
  exact ⟨_, rfl, fun key => rfl⟩

end NanoLance
