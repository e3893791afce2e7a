import NanoLance.FragmentIds
import NanoLance.TransactionFile

/-!
# The Operation Read off a Change Reproduces It

A commit that loses a race derives its operation from its change, decodes the
message and applies the operation to the latest version. For the result to be
the change, the three have to agree: applied to the very version the change was
made from, the operation has to give the change's fragments back.

The derivation looks at the fragments only through their ids and messages, so a
change splits into four parts: fragments added, changed, dropped and left as
they were (`mem_addedFragments`, `mem_changedFragments`, `mem_droppedFragments`,
`mem_substitute`). Each kind of operation is decoded to these parts, and applied
it puts them together again; `finish_eq` turns the same members in any order
into the same list.

On a dataset with stable row ids the added fragments are stamped when the
operation is applied. They come out as they went in when they carry their row
ids and versions already (`isStamped`).

## Theorems

* `decode_append`, `decode_delete`, `decode_update`, `decode_rewrite`,
  `decode_createIndex`: Each message read back.
* `derived_operation_reproduces`: The operation gives the change's fragments.
* `unstamped_fragment_restamped`: Not so for a fragment without row ids.
-/

namespace NanoLance

open List Lib Lib.Wire

/-- A fragment that its codec reads back. -/
def Codec.Decodes (codec : Codec) (f : DataFragment) : Prop :=
  codec.decodeFragment (codec.encodeFragment f) = some f

variable {codec : Codec} {f : DataFragment}

theorem Codec.Decodes.inj {g : DataFragment} (hf : codec.Decodes f) (hg : codec.Decodes g)
    (heq : codec.encodeFragment f = codec.encodeFragment g) : f = g := by
  unfold Codec.Decodes at hf hg
  rw [heq, hg, Option.some.injEq] at hf
  exact hf.symm

/-- An index that its codec reads back under its uuid and name. What else was in it may change. -/
def Codec.NamesIndex (codec : Codec) (i : IndexMetadata) : Prop :=
  (codec.decodeIndex (codec.encodeIndex i)).map (fun j => (j.uuid, j.name)) = some (i.uuid, i.name)

/-- The index that is read back. -/
def Codec.readIndex (codec : Codec) (i : IndexMetadata) : IndexMetadata :=
  (codec.decodeIndex (codec.encodeIndex i)).getD i

variable {i : IndexMetadata}

theorem Codec.NamesIndex.read (h : codec.NamesIndex i) :
    codec.decodeIndex (codec.encodeIndex i) = some (codec.readIndex i) ∧
      i.uuid = (codec.readIndex i).uuid ∧ i.name = (codec.readIndex i).name := by
  rcases Option.map_eq_some_iff.mp h with ⟨j, hj, heq⟩
  rw [Prod.mk.injEq] at heq
  rw [readIndex, hj]
  exact ⟨rfl, heq.1.symm, heq.2.symm⟩

/-- All MemWAL indices are one. -/
def OneMemWal (indices : List IndexMetadata) : Prop :=
  ∀ i ∈ indices, ∀ j ∈ indices, i.name = memWalIndex → j.name = memWalIndex → i.uuid = j.uuid

variable {indices : List IndexMetadata}

theorem OneMemWal.of_named {others : List IndexMetadata} (h : OneMemWal indices)
    (hothers : ∀ a ∈ others, ∃ b ∈ indices, b.uuid = a.uuid ∧ b.name = a.name) :
    OneMemWal others := by
  intro i hi j hj hni hnj
  rcases hothers i hi with ⟨i', hi', hiu, hin⟩
  rcases hothers j hj with ⟨j', hj', hju, hjn⟩
  rw [← hiu, ← hju]
  exact h i' hi' j' hj' (hin.trans hni) (hjn.trans hnj)

variable {codec : Codec}

variable {added changed dropped : List DataFragment} {removed : List Nat} {α : Type}

variable {number : Nat} {op : Operation} {l : List DataFragment}

section Messages

/-- A packed field, or nothing for no ids. -/
theorem folds_putIds {step : Operation → Wire.Field → Except String Operation} {s mid t : Operation}
    {ids : List Nat} {rest : Bytes} (hnumber : number < 2 ^ 29)
    (hstep : step s ⟨number, 2, 0, ids.flatMap varint⟩ = .ok mid) (hnil : ids = [] → mid = s)
    (h : Folds step mid rest t) : Folds step s (putIds number ids ++ rest) t := by
  unfold putIds
  split
  · next hids => exact hnil hids ▸ h
  · exact .putBytes hnumber (fun _ => hstep) h

theorem decodeFragment_encode (number : Nat) (hf : codec.Decodes f) :
    decodeFragment codec ⟨number, 2, 0, codec.encodeFragment f⟩ = .ok f := by
  unfold Codec.Decodes at hf
  simp only [decodeFragment, hf]

section Read

/-- The fragments of a repeated field, added one by one. -/
theorem folds_fragments (kind : OpKind) {rest : Bytes} {t : Operation}
    {put : Operation → List DataFragment → Operation} (hput : put = putAdded ∨ put = putUpdated)
    (hnumber : number < 2 ^ 29) (hl : ∀ f ∈ l, codec.Decodes f)
    (hstep : ∀ op field, op.kind = kind → field.number = number → decodePart codec op field =
      (decodeFragment codec field).map (fun x => put op [x])) (hop : op.kind = kind)
    (h : Folds (decodePart codec) (put op l) rest t) :
    Folds (decodePart codec) op (putFragments codec number l ++ rest) t := by
  have hlaws : (∀ op, put op [] = op) ∧ (∀ op l l', put (put op l) l' = put op (l ++ l')) ∧
      ∀ op l, (put op l).kind = op.kind := by
    rcases hput with rfl | rfl <;> simp [putAdded, putUpdated]
  refine .repeated hnumber put (fun op => op.kind = kind) hlaws.1 hlaws.2.1
    (fun op l h => (hlaws.2.2 op l).trans h) (fun op f hf hop _ => ?_) hop h
  rw [hstep op _ hop rfl, decodeFragment_encode number (hl f hf)]
  rfl

/-- What of an operation without a schema is left to decode after its parts. -/
theorem decodeOperation_of_folds {kind : OpKind} {message : Bytes} (hkind : kind ≠ .clone)
    (hschema : schemaNumber kind = none) (hempty : op.schema = []) (hsize : message.length < 2 ^ 64)
    (h : Folds (decodePart codec) { kind := kind } message op) :
    decodeOperation codec kind message = .ok op := by
  rcases h hsize with ⟨fields, hread, hfold⟩
  have hnone : fields.filter (fun f => some f.number = schemaNumber kind) = [] := by
    simp [hschema]
  unfold decodeOperation
  simp only [hread, hnone, decodeSchema, ensure, hkind, ne_eq, not_false_eq_true, decide_true,
    Bool.not_false, if_true]
  show (do let op ← fields.foldlM (decodePart codec) { kind := kind }; _) = _
  rw [hfold]
  show Except.ok { op with schema := [] } = _
  rw [← hempty]

theorem decode_append (hadded : ∀ f ∈ added, codec.Decodes f)
    (hsize : (putFragments codec 1 added).length < 2 ^ 64) :
    decodeOperation codec .append (putFragments codec 1 added) =
      .ok { kind := .append, fragments := added } := by
  refine decodeOperation_of_folds (by decide) rfl rfl hsize ?_
  rw [← append_nil (putFragments codec 1 added)]
  exact folds_fragments .append (.inl rfl) (by decide) hadded
    (fun op f hop hf => by simp only [decodePart, hop, hf, if_true]) rfl .nil

theorem decode_delete (hchanged : ∀ f ∈ changed, codec.Decodes f)
    (hids : ∀ id ∈ removed, id < 2 ^ 64)
    (hsize : (putFragments codec 1 changed ++ putIds 2 removed).length < 2 ^ 64) :
    decodeOperation codec .delete (putFragments codec 1 changed ++ putIds 2 removed) =
      .ok { kind := .delete, updatedFragments := changed, removedIds := removed } := by
  refine decodeOperation_of_folds (by decide) rfl rfl hsize ?_
  rw [← append_nil (putIds 2 removed)]
  refine folds_fragments .delete (.inr rfl) (by decide) hchanged
    (fun op f hop hf => by simp only [decodePart, hop, deletePart, hf, if_true]) rfl ?_
  refine folds_putIds (by decide) ?_ (by rintro rfl; rfl) .nil
  simp [decodePart, putUpdated, deletePart, varintsOf, readVarints_flatMap hids]

/-- The fields an Update says it modified are read as some list; nothing of its fragments depends on
    them. -/
theorem decode_update {modified : List Nat} (hchanged : ∀ f ∈ changed, codec.Decodes f)
    (hadded : ∀ f ∈ added, codec.Decodes f) (hids : ∀ id ∈ removed, id < 2 ^ 64)
    (hsize : (putIds 1 removed ++ (putFragments codec 2 changed ++
      (putFragments codec 3 added ++ putIds 4 modified))).length < 2 ^ 64) :
    ∃ fields, decodeOperation codec .update (putIds 1 removed ++ (putFragments codec 2 changed ++
      (putFragments codec 3 added ++ putIds 4 modified))) =
        .ok { kind := .update, updatedFragments := changed, fragments := added,
              removedIds := removed, fieldsModified := fields } := by
  refine ⟨if modified = [] then [] else varintsOf ⟨4, 2, 0, modified.flatMap varint⟩,
    decodeOperation_of_folds (by decide) rfl rfl hsize ?_⟩
  rw [← append_nil (putIds 4 modified)]
  have hids : decodePart codec { kind := .update } ⟨1, 2, 0, removed.flatMap varint⟩ =
      .ok { kind := .update, removedIds := removed } := by
    simp [decodePart, updatePart, varintsOf, readVarints_flatMap hids]
  refine folds_putIds (by decide) hids (by rintro rfl; rfl) ?_
  refine folds_fragments .update (.inr rfl) (by decide) hchanged
    (fun op f hop hf => by simp [decodePart, hop, updatePart, hf]) rfl ?_
  refine folds_fragments .update (.inl rfl) (by decide) hadded
    (fun op f hop hf => by simp [decodePart, hop, updatePart, hf]) rfl ?_
  refine folds_putIds (by decide) ?_ (by rintro rfl; rfl) .nil
  by_cases hnone : modified = []
  · subst hnone
    rfl
  · simp [decodePart, putAdded, putUpdated, updatePart, hnone]

theorem decodeGroup_fragments (hdropped : ∀ f ∈ dropped, codec.Decodes f)
    (hadded : ∀ f ∈ added, codec.Decodes f)
    (hsize : (putFragments codec 1 dropped ++ putFragments codec 2 added).length < 2 ^ 64) :
    decodeGroup codec ⟨3, 2, 0, putFragments codec 1 dropped ++ putFragments codec 2 added⟩ =
      .ok { oldFragments := dropped, newFragments := added } := by
  unfold decodeGroup
  generalize hstep : (fun (group : RewriteGroup) (g : Wire.Field) => _) = step
  have hfolds : Folds step ⟨[], []⟩
      (putFragments codec 1 dropped ++ (putFragments codec 2 added ++ [])) ⟨dropped, added⟩ := by
    subst hstep
    refine .repeated (by decide)
      (fun (g : RewriteGroup) l => { g with oldFragments := g.oldFragments ++ l })
      (fun _ => True) (fun g => by simp) (fun g l l' => by simp) (fun _ _ _ => trivial)
      (fun g f hf _ _ => ?_) trivial ?_
    · simp [decodeFragment_encode _ (hdropped f hf), Except.map]
    refine .repeated (by decide)
      (fun (g : RewriteGroup) l => { g with newFragments := g.newFragments ++ l })
      (fun _ => True) (fun g => by simp) (fun g l l' => by simp) (fun _ _ _ => trivial)
      (fun g f hf _ _ => ?_) trivial .nil
    simp [decodeFragment_encode _ (hadded f hf), Except.map]
  rw [append_nil] at hfolds
  rcases hfolds hsize with ⟨fields, hread, hfold⟩
  rw [hread]
  exact hfold

theorem decode_rewrite (hdropped : ∀ f ∈ dropped, codec.Decodes f)
    (hadded : ∀ f ∈ added, codec.Decodes f)
    (hsize : (putBytes 3
      (putFragments codec 1 dropped ++ putFragments codec 2 added)).length < 2 ^ 64) :
    decodeOperation codec .rewrite (putBytes 3
        (putFragments codec 1 dropped ++ putFragments codec 2 added)) =
      .ok { kind := .rewrite, groups := [{ oldFragments := dropped, newFragments := added }] } := by
  refine decodeOperation_of_folds (by decide) rfl rfl hsize ?_
  rw [← append_nil (putBytes 3 _)]
  refine .putBytes (by decide) (fun hinner => ?_) .nil
  simp [decodePart, rewritePart, decodeGroup_fragments hdropped hadded hinner, Except.map]

theorem decode_createIndex {created dropped : List IndexMetadata}
    (hnames : ∀ i ∈ created ++ dropped, codec.NamesIndex i)
    (hsize : (created.flatMap (fun i => putBytes 1 (codec.encodeIndex i)) ++
      dropped.flatMap (fun i => putBytes 2 (codec.encodeIndex i))).length < 2 ^ 64) :
    decodeOperation codec .createIndex
        (created.flatMap (fun i => putBytes 1 (codec.encodeIndex i)) ++
          dropped.flatMap (fun i => putBytes 2 (codec.encodeIndex i))) =
      .ok { kind := .createIndex, newIndices := created.map codec.readIndex,
            removedIndices := dropped.map codec.readIndex } := by
  refine decodeOperation_of_folds (by decide) rfl rfl hsize ?_
  rw [← append_nil (dropped.flatMap _)]
  refine .repeated (by decide) (fun op l => putCreated op (l.map codec.readIndex))
    (fun op => op.kind = .createIndex) (fun op => by simp [putCreated])
    (fun op l l' => by simp [putCreated]) (fun op l h => h) (fun op i hi hop _ => ?_) rfl ?_
  · simp [decodePart, hop, createIndexPart, decodeIndex,
      (hnames i (mem_append_left dropped hi)).read.1, Except.map]
  refine .repeated (by decide) (fun op l => putDropped op (l.map codec.readIndex))
    (fun op => op.kind = .createIndex) (fun op => by simp [putDropped])
    (fun op l l' => by simp [putDropped]) (fun op l h => h) (fun op i hi hop _ => ?_) rfl .nil
  simp [decodePart, hop, createIndexPart, decodeIndex,
    (hnames i (mem_append_right created hi)).read.1, Except.map]

end Read

end Messages

theorem lastWithId_isNone (l : List DataFragment) (id : Nat) :
    (lastWithId l id).isNone = true ↔ id ∉ l.map (·.id) := by
  rw [lastWithId, Option.isNone_iff_eq_none, find?_eq_none]
  simp

theorem lastWithId_iff (hnodup : (l.map (·.id)).Nodup) (id : Nat) (f : DataFragment) :
    lastWithId l id = some f ↔ f ∈ l ∧ f.id = id := by
  have hrev : (l.reverse.map (·.id)).Nodup := by grind
  rw [lastWithId, find_key_iff id hrev f, mem_reverse]

/-- The changes the derivation is about: the same schema, ids that ascend, added fragments above the
    parent's ids, and no data file without a live field. -/
structure Reproducible (parent next : Manifest) : Prop where
  fields : next.fields = parent.fields
  parentIds : (parent.fragments.map (·.id)).Pairwise (· < ·)
  nextIds : (next.fragments.map (·.id)).Pairwise (· < ·)
  added : ∀ f ∈ next.fragments, f.id ∉ parent.fragments.map (·.id) → nextFragmentId parent ≤ f.id
  files : ∀ f ∈ next.fragments, ∀ file ∈ f.files,
    file.fields ≠ [] ∧ onlyTombstones file = false
  small : ∀ f ∈ parent.fragments, f.id < 2 ^ 64

variable {parent next : Manifest}
  (hcodec : ∀ f ∈ parent.fragments ++ next.fragments, codec.Decodes f)
  (hchange : Reproducible parent next)

section Parts

theorem mem_addedFragments (f : DataFragment) :
    f ∈ addedFragments parent next ↔ f ∈ next.fragments ∧ f.id ∉ parent.fragments.map (·.id) := by
  rw [addedFragments, mem_filter, lastWithId_isNone]

theorem mem_droppedFragments (f : DataFragment) :
    f ∈ droppedFragments parent next ↔
      f ∈ parent.fragments ∧ f.id ∉ next.fragments.map (·.id) := by
  rw [droppedFragments, mem_filter, decide_eq_true_eq]

include hchange

theorem Reproducible.parentNodup : (parent.fragments.map (·.id)).Nodup :=
  hchange.parentIds.imp (fun h => h.ne)

theorem Reproducible.nextNodup : (next.fragments.map (·.id)).Nodup :=
  hchange.nextIds.imp (fun h => h.ne)

theorem changedFragments_nodup : ((changedFragments codec parent next).map (·.id)).Nodup :=
  (hchange.nextNodup).sublist (filter_sublist.map _)

include hcodec

/-- A changed fragment differs from the parent's of its id. -/
theorem mem_changedFragments (f : DataFragment) :
    f ∈ changedFragments codec parent next ↔
      f ∈ next.fragments ∧ ∃ p ∈ parent.fragments, p.id = f.id ∧ p ≠ f := by
  rw [changedFragments, mem_filter, Option.any_eq_true]
  refine and_congr_right fun hf => ?_
  constructor
  · rintro ⟨p, hp, hne⟩
    rcases (lastWithId_iff (hchange.parentNodup) f.id p).mp hp with ⟨hmem, hid⟩
    exact ⟨p, hmem, hid, fun heq => of_decide_eq_true hne (heq ▸ rfl)⟩
  · rintro ⟨p, hmem, hid, hne⟩
    refine ⟨p, (lastWithId_iff (hchange.parentNodup) f.id p).mpr
      ⟨hmem, hid⟩, decide_eq_true fun heq => hne ?_⟩
    exact (hcodec p (mem_append_left _ hmem)).inj (hcodec f (mem_append_right _ hf)) heq.symm

section

variable {updated : Nat → Option DataFragment}
  (hupdated : ∀ id c, updated id = some c ↔ c ∈ changedFragments codec parent next ∧ c.id = id)

include hupdated

/-- The parent's fragment of an id with the changed ones substituted is the version's. -/
theorem substituted {p n : DataFragment} (hp : p ∈ parent.fragments) (hn : n ∈ next.fragments)
    (hid : n.id = p.id) :
    (updated p.id).getD p = n := by
  by_cases hsame : p = n
  · cases hu : updated p.id with
    | none => exact hsame
    | some c =>
      rcases (hupdated p.id c).mp hu with ⟨hc, hcid⟩
      rcases (mem_changedFragments hcodec hchange c).mp hc with
        ⟨hcn, q, hq, hqid, hne⟩
      have hqp : q = p := inj_on_of_nodup_map (hchange.parentNodup) hq hp
        (hqid.trans hcid)
      have hcn' : c = n := inj_on_of_nodup_map (hchange.nextNodup) hcn hn
        (hcid.trans hid.symm)
      exact absurd (hqp.trans (hsame.trans hcn'.symm)) hne
  · have hchanged : n ∈ changedFragments codec parent next :=
      (mem_changedFragments hcodec hchange n).mpr ⟨hn, p, hp, hid.symm, hsame⟩
    rw [(hupdated p.id n).mpr ⟨hchanged, hid⟩, Option.getD_some]

theorem mem_substitute (g : DataFragment) :
    g ∈ substitute ((droppedFragments parent next).map (·.id)) updated parent.fragments ↔
      g ∈ next.fragments ∧ g.id ∈ parent.fragments.map (·.id) := by
  have hkept : ∀ p ∈ parent.fragments, p.id ∉ (droppedFragments parent next).map (·.id) ↔
      p.id ∈ next.fragments.map (·.id) := by
    intro p hp
    constructor
    · intro hnot
      by_contra hgone
      exact hnot (mem_map_of_mem ((mem_droppedFragments p).mpr ⟨hp, hgone⟩))
    · intro hin hdropped
      rcases mem_map.mp hdropped with ⟨q, hq, hqid⟩
      exact ((mem_droppedFragments q).mp hq).2 (hqid ▸ hin)
  simp only [substitute, mem_map, mem_filter, decide_eq_true_eq]
  constructor
  · rintro ⟨p, ⟨hp, hnot⟩, rfl⟩
    rcases mem_map.mp ((hkept p hp).mp (by simpa only [mem_map] using hnot)) with ⟨n, hn, hid⟩
    rw [substituted hcodec hchange hupdated hp hn hid]
    exact ⟨hn, p, hp, hid.symm⟩
  · rintro ⟨hg, p, hp, hid⟩
    refine ⟨p, ⟨hp, ?_⟩, substituted hcodec hchange hupdated hp hg
      hid.symm⟩
    grind

end

end Parts

theorem dropTombstoneFiles_eq (f : DataFragment)
    (h : ∀ file ∈ f.files, onlyTombstones file = false) : dropTombstoneFiles f = f := by
  have hall : f.files.filter (fun file => !onlyTombstones file) = f.files := by
    refine filter_eq_self.mpr fun file hfile => ?_
    rw [h file hfile]
    rfl
  rw [dropTombstoneFiles, hall]

variable {applied : Manifest}

/-- The finish of the right fragments, in any order, is the right list. -/
theorem finish_eq (stable : Bool) {fragments : List DataFragment}
    (hids : (fragments.map (·.id)).Pairwise (· < ·)) (hnodup : (applied.fragments.map (·.id)).Nodup)
    (hmem : ∀ g, g ∈ applied.fragments ↔ g ∈ fragments)
    (hfiles : ∀ f ∈ fragments, ∀ file ∈ f.files, onlyTombstones file = false) :
    (finish applied stable).fragments = fragments := by
  have hdistinct : (fragments.map (·.id)).Nodup := hids.imp (fun h => h.ne)
  have hperm : (sortFragments applied.fragments).Perm fragments :=
    (sortFragments_perm applied.fragments).trans
      ((perm_ext_iff_of_nodup (List.Nodup.of_map _ hnodup)
        (List.Nodup.of_map _ hdistinct)).mpr hmem)
  have hsorted : sortFragments applied.fragments = fragments := by
    have hleft : (sortFragments applied.fragments).Pairwise (fun a b => a.id ≤ b.id) :=
      pairwise_insertionSort _ applied.fragments
    have hright : fragments.Pairwise (fun a b => a.id ≤ b.id) :=
      (pairwise_map.mp hids).imp (fun h => h.le)
    refine List.Perm.eq_of_pairwise ?_ hleft hright hperm
    intro a b ha hb hab hba
    exact inj_on_of_nodup_map hdistinct (hperm.mem_iff.mp ha) hb (le_antisymm hab hba)
  rw [finish_fragments, hsorted]
  refine (map_congr_left fun f hf => ?_).trans (map_id fragments)
  exact dropTombstoneFiles_eq f (hfiles f hf)

/-- Ids that ascend from the next one on are kept: 0 is given out only where it is the next. -/
theorem assignIds_eq : ∀ (l : List DataFragment) (n : Nat),
    (l.map (·.id)).Pairwise (· < ·) → (∀ f ∈ l, n ≤ f.id) → (assignIds l n).1 = l := by
  intro l
  induction l with
  | nil => exact fun _ _ _ => rfl
  | cons f rest ih =>
    intro n hasc hle
    rw [map_cons, pairwise_cons] at hasc
    have hn := hle f (.head _)
    rw [assignIds]
    by_cases hzero : f.id = 0
    · have hpos : ∀ g ∈ rest, n + 1 ≤ g.id := by
        intro g hg
        have := hasc.1 g.id (mem_map_of_mem hg)
        omega
      have hsame : { f with id := n } = f := by
        have : n = f.id := by omega
        rw [this]
      grind
    · grind

/-- No row metadata is missing of a fragment, or it is kept outside. -/
def isStamped (f : DataFragment) : Bool :=
  (match f.rowMeta.rowIds with
    | none => f.rowMeta.external
    | some (.values _) => true
    | some (.malformed _) => false) &&
  (f.physicalRows = 0 || f.rowMeta.external ||
    (f.rowMeta.created.isSome && f.rowMeta.lastUpdated.isSome))

theorem stampMissingRowMeta_eq (version : Nat) : ∀ (l : List DataFragment) (nextRowId : Nat),
    (∀ f ∈ l, isStamped f = true) →
    ∃ last, stampMissingRowMeta version l nextRowId = .ok (l, last) := by
  intro l
  induction l with
  | nil => exact fun nextRowId _ => ⟨nextRowId, rfl⟩
  | cons f rest ih =>
    intro nextRowId hall
    have hf := hall f (.head _)
    simp only [isStamped, Bool.and_eq_true, Bool.or_eq_true, decide_eq_true_eq] at hf
    rcases hf with ⟨hids, hversions⟩
    have hrowIds : ∃ next, fragmentRowIds f nextRowId = .ok (f.rowMeta.rowIds, next) := by
      unfold fragmentRowIds
      split at hids
      · rename_i hnone
        simp [hnone, hids]
      · rename_i rows hrows
        rw [hrows]
        exact ⟨_, rfl⟩
      · exact absurd hids (by decide)
    rcases hrowIds with ⟨next, hnext⟩
    rcases ih next (fun g hg => hall g (.tail _ hg)) with ⟨last, hlast⟩
    refine ⟨last, ?_⟩
    -- Neither sequence of versions is filled in.
    have hfill : ∀ old : Option RowSequence, (old = f.rowMeta.created ∨ old = f.rowMeta.lastUpdated) →
        (if f.physicalRows ≠ 0 && !f.rowMeta.external && old.isNone then
          some (RowSequence.values (replicate f.physicalRows version)) else old) = old := by
      intro old hold
      rw [if_neg]
      simp only [Bool.and_eq_true, decide_eq_true_eq, Bool.not_eq_true', not_and,
        Bool.not_eq_true, Option.isNone_eq_false_iff]
      grind
    simp only [stampMissingRowMeta, hnext, hlast, bind, Except.bind, pure, Except.pure]
    rw [hfill f.rowMeta.created (.inl rfl), hfill f.rowMeta.lastUpdated (.inr rfl)]

/-- Fragments with ids and row metadata of their own are appended as they are. -/
theorem appendFragments_eq (m : Manifest) (nextId : Nat) {stable : Bool} (version : Nat)
    (hasc : (added.map (·.id)).Pairwise (· < ·)) (hle : ∀ f ∈ added, nextId ≤ f.id)
    (hstamped : stable = true → ∀ f ∈ added, isStamped f = true) :
    ∃ out, appendFragments m added nextId stable version = .ok out ∧
      out.fragments = m.fragments ++ added := by
  unfold appendFragments
  simp only [assignIds_eq added nextId hasc hle]
  cases stable with
  | false => exact ⟨_, rfl, rfl⟩
  | true =>
    rcases stampMissingRowMeta_eq version added m.nextRowId (hstamped rfl) with ⟨last, hlast⟩
    simp only [if_true, hlast]
    exact ⟨_, rfl, rfl⟩

theorem filesHaveFields_ok {fragments : List DataFragment}
    (h : ∀ f ∈ fragments, ∀ file ∈ f.files, file.fields ≠ []) :
    filesHaveFields fragments = .ok () := by
  have hnone : (fragments.flatMap (·.files)).find? (fun file => file.fields.isEmpty) = none := by
    grind
  rw [filesHaveFields, hnone]

theorem substitute_none (removed : List Nat) (l : List DataFragment) :
    substitute removed (fun _ => none) l = l.filter (fun f => f.id ∉ removed) := by
  unfold substitute
  exact map_id _

/-- An operation that is valid and has an effect is applied. -/
theorem applyOperation_of (parent applied : Manifest) (op : Operation) (version : Nat)
    (hvalid : operationValid (some parent) op = .ok ())
    (happlied : applyKind (startManifest (some parent) op) op (nextFragmentId parent)
      (isStable parent) version = .ok applied) :
    applyOperation (some parent) op false version = .ok (finish applied (isStable parent)) := by
  have hstable : (isStable (startManifest (some parent) op) ||
      (false && ((some parent).isNone || op.kind = .overwrite))) = isStable parent := by
    rw [Bool.false_and, Bool.or_false]
    rfl
  unfold applyOperation
  rw [hvalid]
  simp only [hstable]
  simp [happlied]

section Apply

variable (version : Nat)

theorem kept_all (hdropped : droppedFragments parent next = []) :
    parent.fragments.filter (fun f => f.id ∉ (droppedFragments parent next).map (·.id)) =
      parent.fragments :=
  filter_eq_self.mpr (fun f _ => by simp [hdropped])

include hchange

theorem appended
    (hstamped : isStable parent = true → ∀ f ∈ addedFragments parent next, isStamped f = true)
    (m : Manifest) : ∃ out,
    appendFragments m (addedFragments parent next) (nextFragmentId parent) (isStable parent) version =
      .ok out ∧ out.fragments = m.fragments ++ addedFragments parent next := by
  refine appendFragments_eq m _ version
    (hchange.nextIds.sublist (filter_sublist.map _)) (fun f hf => ?_) hstamped
  rcases (mem_addedFragments f).mp hf with ⟨hin, hnew⟩
  exact hchange.added f hin hnew

include hcodec

/-- The kept and changed fragments with the added ones are the next version's. -/
theorem reproduced (updated : Nat → Option DataFragment)
    (hupdated : ∀ id c, updated id = some c ↔ c ∈ changedFragments codec parent next ∧ c.id = id)
    (applied : Manifest) (stable : Bool)
    (happlied : applied.fragments =
      substitute ((droppedFragments parent next).map (·.id)) updated parent.fragments ++
        addedFragments parent next) :
    (finish applied stable).fragments = next.fragments := by
  have hkept := mem_substitute hcodec hchange hupdated
  have hids := substitute_ids ((droppedFragments parent next).map (·.id)) updated
    (fun id u hu => ((hupdated id u).mp hu).2) parent.fragments
  refine finish_eq stable hchange.nextIds ?_ (fun g => ?_)
    (fun f hf file hfile => (hchange.files f hf file hfile).2)
  · rw [happlied, map_append, hids]
    refine nodup_append.mpr ⟨(hchange.parentNodup).filter _,
      (hchange.nextNodup).sublist (filter_sublist.map _), ?_⟩
    intro id hold other hnew heq
    rcases mem_map.mp hnew with ⟨f, hf, hfid⟩
    refine ((mem_addedFragments f).mp hf).2 ?_
    grind
  · rw [happlied, mem_append, hkept g, mem_addedFragments, ← and_or_left]
    exact and_iff_left (Classical.em _)

/-- The same where no fragment is changed in place. -/
theorem reproduced_unchanged (hunchanged : changedFragments codec parent next = [])
    (applied : Manifest) (stable : Bool)
    (happlied : applied.fragments =
      parent.fragments.filter (fun f => f.id ∉ (droppedFragments parent next).map (·.id)) ++
        addedFragments parent next) :
    (finish applied stable).fragments = next.fragments := by
  refine reproduced hcodec hchange (fun _ => none) (fun id c => ?_) applied stable
    (by rw [happlied, substitute_none])
  grind

/-- The operation, applied to the parent, gives the fragments of the next version. -/
def Reproduces (parent next : Manifest) (op : Operation) (version : Nat) : Prop :=
  ∃ result, applyOperation (some parent) op false version = .ok result ∧
    result.fragments = next.fragments

theorem apply_derived_delete (hadded : addedFragments parent next = []) :
    Reproduces parent next
      { kind := .delete, updatedFragments := changedFragments codec parent next,
        removedIds := (droppedFragments parent next).map (·.id) } version := by
  refine ⟨_, applyOperation_of parent _ _ version rfl rfl, ?_⟩
  refine reproduced hcodec hchange
    (lastWithId (changedFragments codec parent next)) (fun id c => ?_) _ _ ?_
  · exact lastWithId_iff (changedFragments_nodup hchange) id c
  · rw [hadded, append_nil]
    rfl

theorem apply_derived_rewrite (hunchanged : changedFragments codec parent next = []) :
    Reproduces parent next
      { kind := .rewrite, groups := [{ oldFragments := droppedFragments parent next,
                                       newFragments := addedFragments parent next }] }
      version := by
  have hids : (assignIds (addedFragments parent next) (nextFragmentId parent)).1 =
      addedFragments parent next := by
    refine assignIds_eq _ _ (hchange.nextIds.sublist (filter_sublist.map _)) (fun f hf => ?_)
    rcases (mem_addedFragments f).mp hf with ⟨hin, hnew⟩
    exact hchange.added f hin hnew
  have hpresent : (droppedFragments parent next).find?
      (fun f => !parent.fragments.any (fun x => x.id = f.id)) = none := by
    refine find?_eq_none.mpr fun f hf hnot => ?_
    have hin := ((mem_droppedFragments f).mp hf).1
    grind
  refine ⟨_, applyOperation_of parent { parent with fragments := _ } _ version rfl ?_,
    reproduced_unchanged hcodec hchange hunchanged _ _ rfl⟩
  have hgroups : applyGroups [{ oldFragments := droppedFragments parent next,
                                newFragments := addedFragments parent next }] parent.fragments =
      .ok (parent.fragments.filter (fun f => f.id ∉ (droppedFragments parent next).map (·.id)) ++
        addedFragments parent next) := by
    simp only [applyGroups, hpresent]
  simp only [applyKind, applyRewrite, assignGroupIds, hids]
  show (applyGroups _ parent.fragments >>= _) = _
  rw [hgroups]
  rfl

/-- A commit that touches no fragment leaves them as the next version has them. -/
theorem apply_unchanged (hadded : addedFragments parent next = [])
    (hunchanged : changedFragments codec parent next = [])
    (hdropped : droppedFragments parent next = []) (stable : Bool)
    (happlied : applied.fragments = parent.fragments) :
    (finish applied stable).fragments = next.fragments := by
  refine reproduced_unchanged hcodec hchange hunchanged applied stable ?_
  rw [kept_all hdropped, hadded, append_nil, happlied]

variable (hstamped : isStable parent = true → ∀ f ∈ addedFragments parent next, isStamped f = true)

include hstamped

theorem apply_derived_append (hunchanged : changedFragments codec parent next = [])
    (hdropped : droppedFragments parent next = []) :
    Reproduces parent next { kind := .append, fragments := addedFragments parent next }
      version := by
  rcases appended hchange version hstamped
    (startManifest (some parent) { kind := .append, fragments := addedFragments parent next }) with
    ⟨out, hout, hfragments⟩
  have hvalid : filesHaveFields (addedFragments parent next) = .ok () :=
    filesHaveFields_ok (fun f hf file hfile => (hchange.files f (mem_of_mem_filter hf) file hfile).1)
  refine ⟨_, applyOperation_of parent out _ version hvalid hout, ?_⟩
  refine reproduced_unchanged hcodec hchange hunchanged out _ ?_
  rw [kept_all hdropped]
  exact hfragments

theorem apply_derived_update (modified : List Nat) :
    Reproduces parent next
      { kind := .update, updatedFragments := changedFragments codec parent next,
        fragments := addedFragments parent next,
        removedIds := (droppedFragments parent next).map (·.id), fieldsModified := modified }
      version := by
  have hvalid : ∀ l, (∀ f ∈ l, f ∈ next.fragments) → filesHaveFields l = .ok () := fun l hl =>
    filesHaveFields_ok (fun f hf file hfile => (hchange.files f (hl f hf) file hfile).1)
  have hchanged := hvalid (changedFragments codec parent next) (fun f hf => mem_of_mem_filter hf)
  have hadded := hvalid (addedFragments parent next) (fun f hf => mem_of_mem_filter hf)
  generalize hop : ({ kind := .update, updatedFragments := changedFragments codec parent next,
                      fragments := addedFragments parent next,
                      removedIds := (droppedFragments parent next).map (·.id),
                      fieldsModified := modified } : Operation) = op
  have hkind : op.kind = .update := by rw [← hop]
  have hcolumns : op.rewriteColumns = false := by rw [← hop]
  have hfragments : op.fragments = addedFragments parent next := by rw [← hop]
  have hupdates : op.updatedFragments = changedFragments codec parent next := by rw [← hop]
  have hremoved : op.removedIds = (droppedFragments parent next).map (·.id) := by rw [← hop]
  rcases appended hchange version hstamped
    { startManifest (some parent) op with
      fragments := substitute op.removedIds
        (fun id => op.updatedFragments.find? (fun f => f.id = id)) parent.fragments
      indices := pruneUpdatedFields parent.indices (op.updatedFragments.map (·.id))
        op.fieldsModified } with ⟨out, hout, hall⟩
  have happlied : applyKind (startManifest (some parent) op) op (nextFragmentId parent)
      (isStable parent) version = .ok (retainIndices out) := by
    simp only [applyKind, hkind, applyUpdate, updateFragments, hcolumns, Bool.and_false,
      Bool.false_eq_true, if_false, hfragments]
    simp only [bind, Except.bind]
    erw [hout]
    rfl
  refine ⟨_, applyOperation_of parent _ op version ?_ happlied, ?_⟩
  · simp only [operationValid, hkind, hfragments, hupdates, hchanged, hadded]
    rfl
  · refine reproduced hcodec hchange
      (fun id => (changedFragments codec parent next).find? (fun f => f.id = id)) (fun id c => ?_)
      _ _ ?_
    · exact find_key_iff id (changedFragments_nodup hchange) c
    · rw [← hremoved, ← hupdates]
      exact hall

end Apply

theorem mem_putIndex {index x : IndexMetadata} (hx : x ∈ putIndex index indices) :
    x ∈ indices ∨ x = index := by
  unfold putIndex at hx
  by_cases hany : indices.any (fun i => i.uuid = index.uuid) = true
  · rw [if_pos hany] at hx
    rcases mem_modifyFirst _ _ hx with hin | ⟨y, -, -, rfl⟩
    · exact .inl hin
    · exact .inr rfl
  · grind

/-- New indices go in where all MemWAL indices, old and new, are one. -/
theorem putNewIndices_ok (fragments : List DataFragment) : ∀ (created indices : List IndexMetadata),
    OneMemWal (indices ++ created) → ∃ out, putNewIndices fragments created indices = .ok out := by
  intro created
  induction created with
  | nil => exact fun indices _ => ⟨indices, rfl⟩
  | cons c rest ih =>
    intro indices hone
    have hname : (presentCoverage fragments c).name = c.name := by grind [presentCoverage]
    have huuid : (presentCoverage fragments c).uuid = c.uuid := by grind [presentCoverage]
    have hc : c ∈ indices ++ c :: rest := mem_append_right _ (.head _)
    have hguard : (!((presentCoverage fragments c).name = memWalIndex &&
        !indices.any (fun i => i.uuid = (presentCoverage fragments c).uuid) &&
        indices.any (fun i => i.name = memWalIndex))) = true := by grind [OneMemWal]
    -- An index in place is one of before or the new one, under its own name and uuid.
    have hback : ∀ a ∈ putIndex (presentCoverage fragments c) indices ++ rest,
        ∃ b ∈ indices ++ c :: rest, b.uuid = a.uuid ∧ b.name = a.name := by
      intro a ha
      rcases mem_append.mp ha with hput | hrest
      · rcases mem_putIndex hput with hin | rfl
        · exact ⟨a, mem_append_left _ hin, rfl, rfl⟩
        · exact ⟨c, hc, huuid.symm, hname.symm⟩
      · exact ⟨a, mem_append_right _ (.tail _ hrest), rfl, rfl⟩
    rcases ih (putIndex (presentCoverage fragments c) indices) (hone.of_named hback) with
      ⟨out, hout⟩
    simp [putNewIndices, ensure, hguard, hout]

/-- An index of the parent that was not dropped is one of the next version's. -/
theorem kept_index (hnames : ∀ i ∈ parent.indices ++ next.indices, codec.NamesIndex i)
    (hi : i ∈ parent.indices) (hkept : i ∉ droppedIndices codec parent next) :
    ∃ n ∈ next.indices, n.uuid = i.uuid ∧ n.name = i.name := by
  rw [droppedIndices, mem_filter, not_and, Bool.not_eq_true, decide_eq_false_iff_not,
    ne_eq, not_not] at hkept
  rcases Option.map_eq_some_iff.mp (hkept hi) with ⟨n, hn, heq⟩
  have hmem := mem_of_find?_eq_some hn
  have hsame := hnames n (mem_append_right _ hmem)
  rw [Codec.NamesIndex, heq, hnames i (mem_append_left _ hi), Option.some.injEq,
    Prod.mk.injEq] at hsame
  exact ⟨n, hmem, hsame.1.symm, hsame.2.symm⟩

section Metadata

variable (version : Nat) (hadded : addedFragments parent next = [])
  (hunchanged : changedFragments codec parent next = [])
  (hdropped : droppedFragments parent next = [])

include hcodec hchange hadded hunchanged hdropped

theorem apply_derived_createIndex
    (hnames : ∀ i ∈ parent.indices ++ next.indices, codec.NamesIndex i)
    (hone : OneMemWal next.indices) :
    Reproduces parent next
      { kind := .createIndex, newIndices := (createdIndices codec parent next).map codec.readIndex,
        removedIndices := (droppedIndices codec parent next).map codec.readIndex } version := by
  generalize hkept : parent.indices.filter (fun i => i.uuid ∉
    ((droppedIndices codec parent next).map codec.readIndex).map (·.uuid)) = kept
  -- What is kept and what is put in are indices of the next version, by uuid and name.
  have hall : ∀ a ∈ kept ++ (createdIndices codec parent next).map codec.readIndex,
      ∃ b ∈ next.indices, b.uuid = a.uuid ∧ b.name = a.name := by
    intro a ha
    rcases mem_append.mp ha with ha | ha
    · rw [← hkept, mem_filter] at ha
      have hread := (hnames a (mem_append_left _ ha.1)).read
      have hnot : a ∉ droppedIndices codec parent next := fun hdrop =>
        of_decide_eq_true ha.2 (hread.2.1 ▸ mem_map_of_mem (mem_map_of_mem hdrop))
      exact kept_index hnames ha.1 hnot
    · rcases mem_map.mp ha with ⟨i, hi, rfl⟩
      have hin : i ∈ next.indices := mem_of_mem_filter hi
      exact ⟨i, hin, (hnames i (mem_append_right _ hin)).read.2⟩
  rcases putNewIndices_ok parent.fragments _ _ (hone.of_named hall) with ⟨out, hout⟩
  refine ⟨_, applyOperation_of parent { parent with indices := out } _ version rfl ?_,
    apply_unchanged hcodec hchange hadded hunchanged hdropped _ rfl⟩
  show (putNewIndices parent.fragments ((createdIndices codec parent next).map codec.readIndex)
    (parent.indices.filter (fun i => i.uuid ∉
      ((droppedIndices codec parent next).map codec.readIndex).map (·.uuid))) >>= _) = _
  rw [hkept, hout]
  rfl

/-- An UpdateConfig that names no field. -/
def OnlyConfig (op : Operation) : Prop :=
  op.kind = .updateConfig ∧ op.fieldMetadataUpdates = [] ∧ op.schema = []

theorem apply_derived_config (hop : OnlyConfig op) : Reproduces parent next op version := by
  rcases hop with ⟨hkind, hfields, -⟩
  have hvalid : operationValid (some parent) op = .ok () := by
    simp only [operationValid, hkind]
    rfl
  have happlied : ∃ applied, applyKind (startManifest (some parent) op) op (nextFragmentId parent)
      (isStable parent) version = .ok applied ∧ applied.fragments = parent.fragments := by
    simp only [applyKind, hkind, applyUpdateConfig, hfields, applyFieldMetadata]
    exact ⟨_, rfl, rfl⟩
  rcases happlied with ⟨applied, happlied, hsame⟩
  exact ⟨_, applyOperation_of parent applied op version hvalid happlied,
    apply_unchanged hcodec hchange hadded hunchanged hdropped _ hsame⟩

end Metadata

/-- A part of a config message is read into the map it is of. -/
theorem folds_config (codec : Codec) (hnumber : number = 6 ∨ number = 7 ∨ number = 8) (data : Bytes)
    {rest : Bytes}
    (h : ∀ op, OnlyConfig op → ∃ t, OnlyConfig t ∧ Folds (decodePart codec) op rest t)
    (op : Operation) (hop : OnlyConfig op) :
    ∃ t, OnlyConfig t ∧ Folds (decodePart codec) op
      ((if data = [] then [] else putBytes number data) ++ rest) t := by
  split
  · exact h op hop
  · have hkeeps : OnlyConfig (configPart codec op ⟨number, 2, 0, data⟩) := by
      rcases hnumber with rfl | rfl | rfl <;> exact hop
    rcases h _ hkeeps with ⟨t, ht, hfolds⟩
    exact ⟨t, ht, .putBytes (by omega) (fun _ => by simp only [decodePart, hop.1]) hfolds⟩

/-- A config message has parts 6, 7 and 8 only. -/
theorem decode_config {config table schema : Bytes}
    (hsize : ((if config = [] then [] else putBytes 6 config) ++
      ((if table = [] then [] else putBytes 7 table) ++
        ((if schema = [] then [] else putBytes 8 schema) ++ []))).length < 2 ^ 64) :
    ∃ op, decodeOperation codec .updateConfig
        ((if config = [] then [] else putBytes 6 config) ++
          ((if table = [] then [] else putBytes 7 table) ++
            ((if schema = [] then [] else putBytes 8 schema) ++ []))) = .ok op ∧
      OnlyConfig op := by
  rcases folds_config codec (.inl rfl) config (folds_config codec (.inr (.inl rfl)) table
    (folds_config codec (.inr (.inr rfl)) schema fun op hop => ⟨op, hop, .nil⟩))
    { kind := .updateConfig } ⟨rfl, rfl, rfl⟩ with ⟨op, hop, hfolds⟩
  exact ⟨op, decodeOperation_of_folds (by decide) rfl hop.2.2 hsize hfolds, hop⟩

/-- The derivation where the schema is the parent's. -/
theorem deriveOperation_sameSchema {change : Change}
    (htag : change.operation = .derive ∨ change.operation = .update)
    (hfields : change.next.fields = parent.fields) :
    deriveOperation codec (some parent) change =
      if !(change.operation = .update) && addedFragments parent change.next ≠ [] &&
          (droppedFragments parent change.next).map (·.id) = [] &&
          changedFragments codec parent change.next = [] then
        (.append, putFragments codec 1 (addedFragments parent change.next))
      else if !(change.operation = .update) && addedFragments parent change.next = [] &&
          (changedFragments codec parent change.next).all (fun f => newFiles parent f = []) &&
          (changedFragments codec parent change.next ≠ [] ||
            (droppedFragments parent change.next).map (·.id) ≠ []) then
        (.delete, putFragments codec 1 (changedFragments codec parent change.next) ++
          putIds 2 ((droppedFragments parent change.next).map (·.id)))
      else if (change.operation = .update) || addedFragments parent change.next ≠ [] ||
          (droppedFragments parent change.next).map (·.id) ≠ [] ||
          changedFragments codec parent change.next ≠ [] then
        (.update, putIds 1 ((droppedFragments parent change.next).map (·.id)) ++
          (putFragments codec 2 (changedFragments codec parent change.next) ++
            (putFragments codec 3 (addedFragments parent change.next) ++
              putIds 4 (modifiedFields parent (changedFragments codec parent change.next)))))
      else metadataMessage codec parent change.next [] := by
  have hschema : putSchema codec 1 parent = putSchema codec 1 change.next := by
    rw [putSchema, putSchema, hfields]
  rcases htag with htag | htag
  all_goals
    simp only [deriveOperation, htag, hschema, decide_true, Bool.not_true, Bool.false_and,
      Bool.false_eq_true, if_false, if_true, Option.getD_none]

/-- The operation read off a change, decoded and applied to the parent, gives the change's
    fragments: for every change that keeps the schema, whatever it adds, drops or changes. -/
theorem derived_operation_reproduces (codec : Codec) (parent : Manifest) (change : Change)
    (version : Nat)
    (hcodec : ∀ f ∈ parent.fragments ++ change.next.fragments, codec.Decodes f)
    (hchange : Reproducible parent change.next)
    (htag : change.operation = .derive ∨ change.operation = .update ∨
      (change.operation = .rewrite ∧
        ∀ f ∈ change.next.fragments, ∀ p ∈ parent.fragments, p.id = f.id → p = f))
    (hsize : (deriveOperation codec (some parent) change).2.length < 2 ^ 64)
    (hstamped : change.operation ≠ .rewrite → isStable parent = true →
      ∀ f ∈ change.next.fragments, f.id ∉ parent.fragments.map (·.id) → isStamped f = true)
    (hindices : (deriveOperation codec (some parent) change).1 = .createIndex →
      (∀ i ∈ parent.indices ++ change.next.indices, codec.NamesIndex i) ∧
        OneMemWal change.next.indices) :
    ∃ op result,
      decodeOperation codec (deriveOperation codec (some parent) change).1
        (deriveOperation codec (some parent) change).2 = .ok op ∧
      applyOperation (some parent) op false version = .ok result ∧
      result.fragments = change.next.fragments := by
  have hadds : ∀ f ∈ addedFragments parent change.next, codec.Decodes f := fun f hf =>
    hcodec f (mem_append_right _ (mem_of_mem_filter hf))
  have hchanges : ∀ f ∈ changedFragments codec parent change.next, codec.Decodes f := fun f hf =>
    hcodec f (mem_append_right _ (mem_of_mem_filter hf))
  have hdrops : ∀ f ∈ droppedFragments parent change.next, codec.Decodes f := fun f hf =>
    hcodec f (mem_append_left _ (mem_of_mem_filter hf))
  have hids : ∀ id ∈ (droppedFragments parent change.next).map (·.id), id < 2 ^ 64 := by
    intro id hid
    rcases mem_map.mp hid with ⟨f, hf, rfl⟩
    exact hchange.small f (mem_of_mem_filter hf)
  by_cases hrewrite : change.operation = .rewrite
  · -- A rewrite: one group of the dropped and the added fragments.
    have hsame : ∀ f ∈ change.next.fragments, ∀ p ∈ parent.fragments, p.id = f.id → p = f := by
      grind
    have hunchanged : changedFragments codec parent change.next = [] := by
      refine eq_nil_iff_forall_not_mem.mpr fun f hf => ?_
      rcases (mem_changedFragments hcodec hchange f).mp hf with
        ⟨hin, p, hp, hid, hne⟩
      exact hne (hsame f hin p hp hid)
    have hmessage : deriveOperation codec (some parent) change = (.rewrite, Lib.Wire.putBytes 3
        (putFragments codec 1 (droppedFragments parent change.next) ++
          putFragments codec 2 (addedFragments parent change.next))) := by
      simp [deriveOperation, rewriteMessage, hrewrite, hunchanged]
    rw [hmessage] at hsize ⊢
    rcases apply_derived_rewrite hcodec hchange version hunchanged with
      ⟨result, happly, hresult⟩
    exact ⟨_, result, decode_rewrite hdrops hadds hsize, happly, hresult⟩
  · have hderive : change.operation = .derive ∨ change.operation = .update := by grind
    have hstamps : isStable parent = true →
        ∀ f ∈ addedFragments parent change.next, isStamped f = true := by
      intro hstable f hf
      rcases (mem_addedFragments f).mp hf with ⟨hin, hnew⟩
      exact hstamped hrewrite hstable f hin hnew
    generalize hmessage : deriveOperation codec (some parent) change = message at hsize hindices ⊢
    rw [deriveOperation_sameSchema hderive hchange.fields] at hmessage
    split at hmessage
    · rename_i hcase
      simp only [Bool.and_eq_true, decide_eq_true_eq, map_eq_nil_iff] at hcase
      rcases apply_derived_append hcodec hchange version hstamps hcase.2
        hcase.1.2 with ⟨result, happly, hresult⟩
      subst hmessage
      exact ⟨_, result, decode_append hadds hsize, happly, hresult⟩
    · split at hmessage
      · rename_i hcase
        simp only [Bool.and_eq_true, decide_eq_true_eq] at hcase
        rcases apply_derived_delete hcodec hchange version hcase.1.1.2 with
          ⟨result, happly, hresult⟩
        subst hmessage
        exact ⟨_, result, decode_delete hchanges hids hsize, happly, hresult⟩
      · split at hmessage
        · subst hmessage
          rcases decode_update hchanges hadds hids hsize with ⟨fields, hdecode⟩
          rcases apply_derived_update hcodec hchange version hstamps fields
            with ⟨result, happly, hresult⟩
          exact ⟨_, result, hdecode, happly, hresult⟩
        · rename_i hcase
          simp only [Bool.or_eq_true, decide_eq_true_eq, not_or, ne_eq, not_not,
            map_eq_nil_iff] at hcase
          rcases hcase with ⟨⟨⟨-, hadded⟩, hdropped⟩, hunchanged⟩
          unfold metadataMessage at hmessage
          simp only [] at hmessage
          split at hmessage
          · subst hmessage
            rcases hindices rfl with ⟨hnames, hone⟩
            rcases apply_derived_createIndex hcodec hchange version hadded
              hunchanged hdropped hnames hone with ⟨result, happly, hresult⟩
            refine ⟨_, result, decode_createIndex (fun i hi => hnames i ?_) hsize,
              happly, hresult⟩
            exact mem_append.mpr ((mem_append.mp hi).symm.imp
              (fun h => mem_of_mem_filter h) (fun h => mem_of_mem_filter h))
          · subst hmessage
            rcases decode_config hsize with ⟨op, hdecode, hop⟩
            rcases apply_derived_config hcodec hchange version hadded
              hunchanged hdropped hop with ⟨result, happly, hresult⟩
            exact ⟨op, result, hdecode, happly, hresult⟩

/-- A codec that numbers the fragments of a table. -/
def tableCodec (table : List DataFragment) : Codec where
  encodeFragment := fun f => [UInt8.ofNat (table.idxOf f)]
  decodeFragment := fun bytes => bytes.head?.bind (fun b => table[b.toNat]?)
  encodeField := fun f => [UInt8.ofNat f.id.toNat]
  decodeField := fun _ => none
  encodeIndex := fun _ => []
  decodeIndex := fun _ => none
  decodeFile := fun _ => none
  text := fun _ => ""
  basePath := fun _ => .error "base path message is malformed"
  overlay := fun _ => .malformed "overlay message is malformed"
  offsets := fun _ _ => .ok []
  details := .bytes

def oneFile (id : Nat) (path : String) : DataFragment :=
  { id := id, files := [{ path := path, fields := [0] }], physicalRows := 2 }

def pairBase : Manifest :=
  { version := 1, fields := [{ name := "a", id := 0 }],
    fragments := [oneFile 0 "a.lance", oneFile 1 "b.lance"],
    maxFragmentId := some 1 }

/-- A row of fragment 0 deleted, fragment 1 gone, fragment 2 new. -/
def mixedChange : Change :=
  { next := { pairBase with
      fragments := [{ oneFile 0 "a.lance" with
                        deletionFile := some { id := 7, numDeletedRows := 1 } },
                    oneFile 2 "c.lance"] } }

def mixedCodec : Codec := tableCodec (pairBase.fragments ++ mixedChange.next.fragments)

theorem mixedChange_reproducible : Reproducible pairBase mixedChange.next :=
  ⟨rfl, by decide, by decide, by decide, by decide, by decide⟩

theorem mixedCodec_decodes :
    ∀ f ∈ pairBase.fragments ++ mixedChange.next.fragments, mixedCodec.Decodes f := by
  unfold Codec.Decodes
  decide

theorem derived_operation_reproduces_mixed :
    ∃ op result,
      decodeOperation mixedCodec (deriveOperation mixedCodec (some pairBase) mixedChange).1
        (deriveOperation mixedCodec (some pairBase) mixedChange).2 = .ok op ∧
      applyOperation (some pairBase) op false 2 = .ok result ∧
      result.fragments = mixedChange.next.fragments :=
  derived_operation_reproduces mixedCodec pairBase mixedChange 2
    mixedCodec_decodes mixedChange_reproducible (.inl rfl)
    (by decide) (fun _ hstable => absurd hstable (by decide))
    (fun h => absurd h (by decide))

def stableBase : Manifest :=
  { version := 1, fields := [{ name := "a", id := 0 }], readerFeatureFlags := flagStableRowIds,
    writerFeatureFlags := flagStableRowIds }

/-- A fragment without row ids added to a dataset with stable row ids. -/
def unstampedChange : Change := { next := { stableBase with fragments := [oneFile 0 "a.lance"] } }

def unstampedCodec : Codec := tableCodec unstampedChange.next.fragments

/-- The operation gives the fragment row ids, which the change's has not. -/
theorem unstamped_fragment_restamped :
    Reproducible stableBase unstampedChange.next ∧
      (∀ f ∈ stableBase.fragments ++ unstampedChange.next.fragments, unstampedCodec.Decodes f) ∧
      ∃ op result,
        decodeOperation unstampedCodec
          (deriveOperation unstampedCodec (some stableBase) unstampedChange).1
          (deriveOperation unstampedCodec (some stableBase) unstampedChange).2 = .ok op ∧
        applyOperation (some stableBase) op false 2 = .ok result ∧
        result.fragments ≠ unstampedChange.next.fragments := by
  refine ⟨⟨rfl, by decide, by decide, by decide, by decide, by decide⟩, ?_, ?_⟩
  · unfold Codec.Decodes
    decide
  refine ⟨{ kind := .append, fragments := [oneFile 0 "a.lance"] }, _, rfl, rfl, ?_⟩
  decide

end NanoLance
