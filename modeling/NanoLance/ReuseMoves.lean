import Mathlib.Data.List.TakeWhile
import NanoLance.DeferredSearch
import NanoLance.ReuseDetails

/-!
# Following Rows Through the Fragment Reuse Index

A deferred compaction leaves index files with the addresses rows had before it.
What a reader makes of such an address is decided by the entry the compaction
wrote: the versions in it are read back from bytes, turned into remap steps,
and applied oldest first.

A step knows a group as two lists that run in parallel: the live rows of the
old fragments, fragment by fragment in offset order, and the rows of the new
fragments. `Part` keeps the first list fragment by fragment. A row is found
by its rank, and the rank is a sum of cumulative sizes on one side
(`recordsOf`) and is taken apart by cumulative sizes on the other
(`rangesOf`); `lookup_record` and `lookup_range` say that both count the same
rows.

Coverage goes by a rule of its own, one group at a time. `Traced` is what holds
of it after any number of versions: every row of a covered fragment comes from
a row of a fragment that was covered, and nothing rewritten is covered.

## Theorems

* `reuse_index_follows_rows`: What the entry makes of addresses and coverage.
-/

namespace NanoLance

namespace ReuseMoves

open List Lib ReuseDetails

/-! ## Compactions and the entry they leave -/

/-- One deferred compaction: the version it read and the deletion vectors of it, its rewrites, the
    first id of its new fragments, and the version it made. -/
structure Deferred where
  vectors : DeletionVectors
  original : Manifest
  rewrites : List CompactionRewrite
  next : Nat
  version : Nat

/-- The fragments a compaction replaced. -/
def Deferred.rewritten (d : Deferred) : List Nat := d.rewrites.flatMap (·.oldFragmentIds)

/-- The fragments it wrote, numbered. -/
def Deferred.created (d : Deferred) : List DataFragment :=
  numberFrom (d.rewrites.flatMap (·.newFragments)) d.next

def Deferred.groups (d : Deferred) : Except String (List WriteGroup) :=
  writeGroups d.vectors d.original d.rewrites d.next

/-- The row of a rewritten fragment is live. -/
def Deferred.live (d : Deferred) (address : Nat) : Bool :=
  (d.original.fragment? (fragmentOf address)).any
    (fun f => liveRow d.vectors f (offsetOf address))

/-- Where a compaction put a row: the live rows of a group, in order, are the rows of its new
    fragments, in order; deleted rows are gone; rows of other fragments stay. -/
def Deferred.moved (d : Deferred) (address : Nat) : Option Nat :=
  if fragmentOf address ∉ d.rewritten then some address
  else if d.live address then
    match d.groups with
    | .ok groups => some (movedBy (groups.map WriteGroup.reuse) address)
    | .error _ => none
  else none

/-- Where several compactions, one after the other, put a row. -/
def whereTo : List Deferred → Nat → Option Nat
  | [], address => some address
  | d :: rest, address => (d.moved address).bind (whereTo rest)

/-- The entry after some deferred compactions, each continuing the one before; its details are a
    block of memory. -/
inductive Recorded : List Deferred → Option ReuseEntry → Prop where
  | start : Recorded [] none
  | record (history : List Deferred) (prior : Option ReuseEntry) (d : Deferred)
      (groups : List WriteGroup) (coverage : List Nat) (uuid now : Nat) (entry : ReuseEntry) :
      Recorded history prior → d.groups = .ok groups →
      fragmentReuseEntry prior d.version groups coverage uuid now = .ok entry →
      entry.detailsValue.length < 2 ^ 64 → Recorded (history ++ [d]) (some entry)

/-- A compaction of fragments with `rowsOf` rows each: its rewrites are of different fragments, the
    new fragments of each hold as many rows as the old ones had live, and ids, versions and counts
    are of the widths the manifest has. -/
structure Sound (rowsOf : Nat → Nat) (d : Deferred) : Prop where
  distinct : d.rewritten.Nodup
  old : ∀ id ∈ d.rewritten, id < 2 ^ 32 ∧ ∀ f, d.original.fragment? id = some f →
    f.physicalRows = rowsOf id ∧ ∀ file, f.deletionFile = some file → file.numDeletedRows < 2 ^ 64
  new : ∀ f ∈ d.created, f.id < 2 ^ 32 ∧ f.physicalRows = rowsOf f.id
  counted : ∀ r ∈ d.rewrites, ∀ out, oldDigests d.vectors d.original r.oldFragmentIds = .ok out →
    (r.newFragments.map (·.physicalRows)).sum = out.1.length
  fresh : ∀ f ∈ d.created, f.id ∉ d.rewritten
  version : d.version < 2 ^ 64

/-- Compactions one after the other, whose new fragments take ids that no earlier one rewrote. -/
structure History (rowsOf : Nat → Nat) (history : List Deferred) : Prop where
  small : ∀ id, rowsOf id ≤ 2 ^ 32
  sound : ∀ d ∈ history, Sound rowsOf d
  fresh : history.Pairwise (fun d e => ∀ f ∈ e.created, f.id ∉ d.rewritten)

/-! ## Groups by fragment -/

/-- A replaced fragment with the offsets of its live rows. -/
structure OldRows where
  id : Nat
  physical : Nat
  live : List Nat
  deriving DecidableEq, Repr

/-- The addresses of a fragment's live rows. -/
def OldRows.addresses (o : OldRows) : List Nat := o.live.map (rowAddress o.id)

/-- The rows a group read, fragment by fragment, and the fragments it wrote. -/
structure Part where
  olds : List OldRows
  news : List (Nat × Nat)
  deriving DecidableEq, Repr

def Part.changed (p : Part) : List Nat := p.olds.flatMap OldRows.addresses

def Part.group (p : Part) : ReuseGroup where
  changedRowAddrs := p.changed
  oldFragments := p.olds.map (fun o => (o.id, o.physical))
  newFragments := p.news

/-- A fragment whose live rows ascend and are rows of it. -/
structure OldRows.Ok (o : OldRows) : Prop where
  id_lt : o.id < 2 ^ 32
  physical_le : o.physical ≤ 2 ^ 32
  ascending : o.live.Pairwise (· < ·)
  within : ∀ offset ∈ o.live, offset < o.physical

/-- A group that reads different fragments and writes as many rows as it read. -/
structure Part.Ok (p : Part) : Prop where
  olds : ∀ o ∈ p.olds, o.Ok
  distinct : (p.olds.map (·.id)).Nodup
  news : ∀ n ∈ p.news, n.1 < 2 ^ 32 ∧ n.2 ≤ 2 ^ 32
  counted : (p.news.map Prod.snd).sum = p.changed.length

variable {o : OldRows} {p : Part} {above below : List Part} {a : Nat} {d : Deferred}

theorem OldRows.Ok.mem_addresses (h : o.Ok) (a : Nat) :
    a ∈ o.addresses ↔ fragmentOf a = o.id ∧ offsetOf a ∈ o.live := by
  unfold OldRows.addresses
  rw [mem_map]
  constructor
  · rintro ⟨offset, hmem, rfl⟩
    have hlt := h.within offset hmem
    have hphysical := h.physical_le
    grind [fragmentOf_rowAddress, offsetOf_rowAddress]
  · grind [rowAddress_eta]

/-- Rows of one fragment stand in ascending order. -/
theorem Part.Ok.ordered (h : p.Ok) :
    p.changed.Pairwise (fun a b => fragmentOf a = fragmentOf b → a < b) := by
  unfold Part.changed
  rw [pairwise_flatMap]
  refine ⟨fun o ho => ?_, ?_⟩
  · unfold OldRows.addresses
    rw [pairwise_map]
    refine (h.olds o ho).ascending.imp (fun {a b} hab _ => ?_)
    unfold rowAddress
    omega
  · have hdistinct := pairwise_map.mp h.distinct
    refine hdistinct.imp_of_mem (fun {o q} ho hq hne a ha b hb hfrag => ?_)
    have h₁ := (((h.olds o ho).mem_addresses a).mp ha).1
    have h₂ := (((h.olds q hq).mem_addresses b).mp hb).1
    exact absurd (h₁.symm.trans (hfrag.trans h₂)) hne

theorem Part.Ok.mem_changed (h : p.Ok) (a : Nat) :
    a ∈ p.changed ↔ ∃ o ∈ p.olds, fragmentOf a = o.id ∧ offsetOf a ∈ o.live := by
  unfold Part.changed
  rw [mem_flatMap]
  exact exists_congr (fun o => and_congr_right (fun ho => (h.olds o ho).mem_addresses a))

theorem Part.Ok.changed_lt (h : p.Ok) : ∀ a ∈ p.changed, a < 2 ^ 64 := by
  intro a ha
  rcases (h.mem_changed a).mp ha with ⟨o, ho, hid, -⟩
  have hlt := (h.olds o ho).id_lt
  have hoffset := offsetOf_lt a
  have heta := rowAddress_eta a
  unfold rowAddress at heta
  omega

theorem Part.Ok.nodup (h : p.Ok) : p.changed.Nodup :=
  h.ordered.imp (fun hab heq => absurd (hab (congrArg fragmentOf heq)) (by omega))

/-- The surviving rows of a group come back from their treemap as they went in. -/
theorem Part.Ok.decode (h : p.Ok) (hsize : (Roaring.encodeTreemap p.changed).length < 2 ^ 64) :
    Roaring.decodeTreemap (Roaring.encodeTreemap p.changed) = .ok p.changed := by
  refine Roaring.decodeTreemap_encode h.changed_lt hsize (fun span hspan => ?_)
  have hsub : span.Sublist p.changed := by
    conv => rhs; rw [← Roaring.flatten_spansBy Roaring.upperOf p.changed]
    exact sublist_flatten_of_mem hspan
  have hkey := Roaring.spansBy_key Roaring.upperOf p.changed span hspan
  have hupper : ∀ a ∈ p.changed, Roaring.upperOf a = fragmentOf a := by
    intro a ha
    have hlt := h.changed_lt a ha
    unfold Roaring.upperOf fragmentOf
    omega
  refine (h.ordered.sublist hsub).imp_of_mem (fun {a b} ha hb hab => hab ?_)
  rw [← hupper a (hsub.subset ha), ← hupper b (hsub.subset hb), hkey a ha, hkey b hb]

/-! ## Building a step -/

/-- The replaced fragments of a group, each with the rows before it. -/
def recordsOf (group : Nat) : List OldRows → Nat → List (Nat × OldFragment)
  | [], _ => []
  | o :: rest, before =>
    (o.id, { group := group, rowsBefore := before, physical := o.physical, kept := o.live }) ::
      recordsOf group rest (before + o.live.length)

variable (group : Nat) (news : List (Nat × Nat)) (start : Nat)

theorem recordsOf_ids (olds : List OldRows) (before : Nat) :
    (recordsOf group olds before).map Prod.fst = olds.map (·.id) := by
  induction olds generalizing before with
  | nil => rfl
  | cons o rest ih => rw [recordsOf, map_cons, map_cons, ih]

theorem filter_addresses (o : OldRows) (h : o.Ok) (id : Nat) :
    o.addresses.filter (fun a => decide (fragmentOf a = id)) =
      if o.id = id then o.addresses else [] := by
  split
  · rename_i heq
    refine filter_eq_self.mpr (fun a ha => decide_eq_true ?_)
    rw [((h.mem_addresses a).mp ha).1, heq]
  · rename_i hne
    refine filter_eq_nil_iff.mpr (fun a ha => ?_)
    rw [decide_eq_true_eq, ((h.mem_addresses a).mp ha).1]
    exact hne

theorem filter_changed (id : Nat) (olds : List OldRows) (hok : ∀ o ∈ olds, o.Ok)
    (hnot : id ∉ olds.map (·.id)) :
    (olds.flatMap OldRows.addresses).filter (fun a => decide (fragmentOf a = id)) = [] := by
  refine filter_eq_nil_iff.mpr (fun a ha => ?_)
  rw [decide_eq_true_eq]
  intro heq
  rcases mem_flatMap.mp ha with ⟨o, ho, hao⟩
  refine hnot (mem_map.mpr ⟨o, ho, ?_⟩)
  rw [← heq]
  exact (((hok o ho).mem_addresses a).mp hao).1.symm

/-- Every fragment of a group takes exactly its own rows, whatever order the fragments come in among
    the rows of the group. -/
theorem oldFragmentsOf_rows (olds : List OldRows) (hok : ∀ o ∈ olds, o.Ok)
    (hdistinct : (olds.map (·.id)).Nodup) (changed : List Nat)
    (hchanged : ∀ id, changed.filter (fun a => decide (fragmentOf a = id)) =
      (olds.flatMap OldRows.addresses).filter (fun a => decide (fragmentOf a = id)))
    (seen : List Nat) (before : Nat) (frags : List (Nat × OldFragment))
    (hseen : ∀ o ∈ olds, o.id ∉ seen) (hfrags : ∀ o ∈ olds, o.id ∉ frags.map Prod.fst) :
    oldFragmentsOf group (olds.map (fun o => (o.id, o.physical))) seen changed before frags =
      .ok (frags ++ recordsOf group olds before, [],
        before + (olds.flatMap OldRows.addresses).length) := by
  induction olds generalizing changed seen before frags with
  | nil =>
    have hnil : changed = [] := by
      refine eq_nil_iff_forall_not_mem.mpr (fun a ha => ?_)
      have hnone := hchanged (fragmentOf a)
      rw [flatMap_nil, filter_nil, filter_eq_nil_iff] at hnone
      exact hnone a ha (decide_eq_true rfl)
    rw [hnil]
    simp [oldFragmentsOf, recordsOf]
  | cons o rest ih =>
    have ho := hok o (.head _)
    have hrest := fun x hx => hok x (.tail _ hx)
    rw [map_cons, nodup_cons] at hdistinct
    have hmod : o.id % 2 ^ 32 = o.id := Nat.mod_eq_of_lt ho.id_lt
    -- The fragment's own rows are kept, and the others go on.
    have hkept : (changed.filter (fun a => decide (fragmentOf a = o.id % 2 ^ 32))).map offsetOf =
        o.live := by
      rw [hmod, hchanged o.id, flatMap_cons, filter_append, filter_addresses o ho,
        if_pos rfl, filter_changed o.id rest hrest hdistinct.1, append_nil,
        OldRows.addresses, map_map]
      conv => rhs; rw [← map_id o.live]
      refine map_congr_left (fun offset hmem => ?_)
      have hlt := ho.within offset hmem
      have hphysical := ho.physical_le
      rw [Function.comp_apply, offsetOf_rowAddress o.id offset (by omega), id_eq]
    have hleft : ∀ id, (changed.filter (fun a => decide (fragmentOf a ≠ o.id % 2 ^ 32))).filter
        (fun a => decide (fragmentOf a = id)) =
        (rest.flatMap OldRows.addresses).filter (fun a => decide (fragmentOf a = id)) := by
      intro id
      rw [hmod, filter_filter]
      by_cases heq : o.id = id
      · rw [← heq, filter_changed o.id rest hrest hdistinct.1, filter_eq_nil_iff]
        simp
      · have hsame := hchanged id
        rw [flatMap_cons, filter_append, filter_addresses o ho, if_neg heq, nil_append] at hsame
        grind
    have hunseen : decide (o.id ∉ seen) = true := decide_eq_true (hseen o (.head _))
    have hwithin : o.live.getLast?.all (fun v => decide (v < o.physical)) = true := by
      rw [Option.all_eq_true]
      intro v hv
      exact decide_eq_true (ho.within v (mem_of_getLast? hv))
    have hnew : (!frags.any (fun e => decide (e.1 = o.id % 2 ^ 32))) = true := by grind
    rw [map_cons, oldFragmentsOf, hkept]
    simp only [hunseen, hwithin, hnew, ensure, if_true, bind, Except.bind]
    rw [ih hrest hdistinct.2 _ hleft (o.id :: seen) (before + o.live.length) _ ?_ ?_]
    · rw [hmod, recordsOf, append_assoc, singleton_append, flatMap_cons,
        length_append, OldRows.addresses, length_map, Nat.add_assoc]
    · grind
    · grind

theorem rangesOf_total (total : Nat) :
    (rangesOf news total).2 = total + (news.map Prod.snd).sum := by
  induction news generalizing total with
  | nil => rfl
  | cons n rest ih =>
    rcases n with ⟨id, physical⟩
    rw [rangesOf, map_cons, sum_cons]
    grind

/-- The fragments of the parts, the groups numbered from `start` on. -/
def fragsFrom : Nat → List Part → List (Nat × OldFragment)
  | _, [] => []
  | start, p :: rest => recordsOf start p.olds 0 ++ fragsFrom (start + 1) rest

/-- A step with one group for each part. -/
structure Built (step : RemapStep) (parts : List Part) : Prop where
  groups : step.groups = parts.map (fun p => {
    newRanges := (rangesOf p.news 0).1
    oldIds := p.olds.map (·.id)
    newIds := p.news.map Prod.fst })
  frags : step.frags = fragsFrom 0 parts

theorem fragsFrom_append (parts : List Part) (p : Part) :
    fragsFrom start (parts ++ [p]) =
      fragsFrom start parts ++ recordsOf (start + parts.length) p.olds 0 := by
  induction parts generalizing start with
  | nil => rw [nil_append, fragsFrom, fragsFrom, fragsFrom, append_nil, nil_append,
      length_nil, Nat.add_zero]
  | cons q rest ih =>
    rw [cons_append, fragsFrom, fragsFrom, ih, append_assoc, length_cons]
    congr 3
    omega

theorem fragsFrom_ids (parts : List Part) :
    (fragsFrom start parts).map Prod.fst = parts.flatMap (fun p => p.olds.map (·.id)) := by
  induction parts generalizing start with
  | nil => rfl
  | cons p rest ih => rw [fragsFrom, map_append, recordsOf_ids, ih, flatMap_cons]

/-- A step with one more part. -/
def Part.addTo (p : Part) (step : RemapStep) : RemapStep where
  frags := step.frags ++ recordsOf step.groups.length p.olds 0
  groups := step.groups ++ [{
    newRanges := (rangesOf p.news 0).1
    oldIds := p.olds.map (·.id)
    newIds := p.news.map Prod.fst }]

variable {parts : List Part} {step : RemapStep}

theorem Built.addTo {step : RemapStep} (h : Built step parts) (p : Part) :
    Built (p.addTo step) (parts ++ [p]) := by
  constructor
  · simp [Part.addTo, h.groups]
  · simp [Part.addTo, fragsFrom_append, h.frags, h.groups]

section OneGroup

variable (hok : p.Ok) (hapart : ∀ o ∈ p.olds, o.id ∉ step.frags.map Prod.fst)

include hok

theorem Part.Ok.total : 0 + p.changed.length = (rangesOf p.news 0).2 := by
  rw [rangesOf_total, hok.counted]

theorem Part.Ok.ids_mod : p.group.oldFragments.map (fun f => f.1 % 2 ^ 32) = p.olds.map (·.id) ∧
    p.news.map (fun f => f.1 % 2 ^ 32) = p.news.map Prod.fst := by
  unfold Part.group
  rw [map_map]
  exact ⟨map_congr_left (fun o ho => Nat.mod_eq_of_lt (hok.olds o ho).id_lt),
    map_congr_left (fun n hn => Nat.mod_eq_of_lt (hok.news n hn).1)⟩

include hapart

/-- A group read back becomes the next part of a step. -/
theorem addRawGroup_part (raw : RawGroup)
    (hchanged : raw.changed = Roaring.encodeTreemap p.changed)
    (hold : raw.oldFrags = p.group.oldFragments) (hnew : raw.newFrags = p.news)
    (hsize : raw.changed.length < 2 ^ 64) : addRawGroup step raw = .ok (p.addTo step) := by
  rw [hchanged] at hsize
  have holds := oldFragmentsOf_rows step.groups.length p.olds hok.olds hok.distinct p.changed
    (fun _ => rfl) [] 0 step.frags (fun o _ => not_mem_nil) hapart
  have hdigests : p.olds.map (fun o => (o.id, o.physical)) = p.group.oldFragments := rfl
  have hlength : (p.olds.flatMap OldRows.addresses).length = p.changed.length := rfl
  rw [hdigests, hlength, hok.total] at holds
  unfold addRawGroup
  rw [hchanged, hok.decode hsize, hold, hnew]
  simp only [inContext, bind, Except.bind, holds, ensure, isEmpty_nil, decide_true,
    if_true, pure, Except.pure, hok.ids_mod, Part.addTo]

/-- So does the group with its rows taken as a set: within a fragment they ascend either way. -/
theorem addGroup_part : addGroup step p.group = .ok (p.addTo step) := by
  have hsame : ∀ id, (ascending p.changed).filter (fun a => decide (fragmentOf a = id)) =
      p.changed.filter (fun a => decide (fragmentOf a = id)) := by
    intro id
    have hleft : ((ascending p.changed).filter (fun a => decide (fragmentOf a = id))).Pairwise
        (· < ·) := (ascending_pairwise p.changed).filter _
    have hright : (p.changed.filter (fun a => decide (fragmentOf a = id))).Pairwise (· < ·) := by
      refine (hok.ordered.filter _).imp_of_mem (fun {a b} ha hb hab => hab ?_)
      grind
    refine eq_of_ascending hleft hright (fun a => ?_)
    rw [mem_filter, mem_filter, mem_ascending]
  have holds := oldFragmentsOf_rows step.groups.length p.olds hok.olds hok.distinct
    (ascending p.changed) hsame [] 0 step.frags (fun o _ => not_mem_nil) hapart
  have hdigests : p.olds.map (fun o => (o.id, o.physical)) = p.group.oldFragments := rfl
  have hlength : (p.olds.flatMap OldRows.addresses).length = p.changed.length := rfl
  have hrows : p.group.changedRowAddrs = p.changed := rfl
  have hnews : p.group.newFragments = p.news := rfl
  rw [hdigests, hlength, hok.total] at holds
  unfold addGroup
  rw [hrows, hnews]
  simp only [bind, Except.bind, holds, ensure, isEmpty_nil, decide_true, if_true, pure,
    Except.pure, hok.ids_mod, Part.addTo]

end OneGroup

/-! ## Ranks -/

/-- The rank of a number of an ascending list. -/
theorem length_takeWhile_lt {live : List Nat} (hasc : live.Pairwise (· < ·)) {v : Nat}
    (hv : v ∈ live) : (live.takeWhile (fun x => decide (x < v))).length = live.idxOf v := by
  induction live with
  | nil => nomatch hv
  | cons x rest ih =>
    rw [pairwise_cons] at hasc
    by_cases hx : x = v
    · rw [takeWhile_cons_of_neg (by rw [decide_eq_true_eq]; omega), hx, idxOf_cons_self, length_nil]
    · have hin : v ∈ rest := (mem_cons.mp hv).resolve_left (fun h => hx h.symm)
      have hlt := hasc.1 v hin
      rw [takeWhile_cons_of_pos (by rw [decide_eq_true_eq]; exact hlt), length_cons,
        ih hasc.2 hin, idxOf_cons_ne _ hx]

theorem idxOf_addresses (o : OldRows) (offset : Nat) :
    o.addresses.idxOf (rowAddress o.id offset) = o.live.idxOf offset := by
  unfold OldRows.addresses
  induction o.live with
  | nil => rfl
  | cons x rest ih =>
    rw [map_cons]
    by_cases hx : x = offset
    · rw [hx, idxOf_cons_self, idxOf_cons_self]
    · rw [idxOf_cons_ne _ hx, idxOf_cons_ne _ (fun h => hx (rowAddress_injective o.id h)), ih]

/-- The record of a fragment says how many rows of its group stand before it. -/
theorem mem_recordsOf (before : Nat) (above below : List OldRows) (o : OldRows) :
    (o.id, { group := group, rowsBefore := before + (above.flatMap OldRows.addresses).length,
             physical := o.physical, kept := o.live : OldFragment }) ∈
      recordsOf group (above ++ o :: below) before := by
  induction above generalizing before with
  | nil => exact .head _
  | cons x rest ih =>
    have hrest := ih (before + x.live.length)
    rw [flatMap_cons, length_append, OldRows.addresses, length_map, ← Nat.add_assoc]
    exact .tail _ hrest

theorem recordsOf_subset (above below : List Part) (p : Part) :
    recordsOf (start + above.length) p.olds 0 ⊆ fragsFrom start (above ++ p :: below) := by
  induction above generalizing start with
  | nil => exact subset_append_left _ _
  | cons q rest ih =>
    have hrest := ih (start + 1)
    rw [length_cons, show start + (rest.length + 1) = start + 1 + rest.length by omega]
    exact List.Subset.trans hrest (subset_append_right _ _)

/-- What a step knows of a replaced fragment. -/
theorem lookup_record {step : RemapStep} (hbuilt : Built step (above ++ p :: below))
    (hdistinct : ((above ++ p :: below).flatMap (fun p => p.olds.map (·.id))).Nodup)
    {before after : List OldRows} (holds : p.olds = before ++ o :: after) :
    step.find? o.id = some {
      group := above.length
      rowsBefore := (before.flatMap OldRows.addresses).length
      physical := o.physical
      kept := o.live } := by
  have hmem := mem_recordsOf above.length 0 before after o
  rw [← holds, Nat.zero_add] at hmem
  have hsubset := recordsOf_subset 0 above below p
  rw [Nat.zero_add] at hsubset
  have hin := hsubset hmem
  rw [← hbuilt.frags] at hin
  have hkeys : (step.frags.map Prod.fst).Nodup := by
    rw [hbuilt.frags, fragsFrom_ids]
    exact hdistinct
  unfold RemapStep.find?
  rw [(find_key_iff o.id hkeys _).mpr ⟨hin, rfl⟩]
  rfl

/-- Later ranges start later. -/
theorem le_rangesOf {news : List (Nat × Nat)} {total : Nat} :
    ∀ r ∈ (rangesOf news total).1, total ≤ r.rowsBefore := by
  induction news generalizing total with
  | nil => exact nofun
  | cons n rest ih =>
    rcases n with ⟨id, physical⟩
    grind [rangesOf]

/-- The addresses of the rows of some fragments, in order. -/
def addressesOf (news : List (Nat × Nat)) : List Nat :=
  news.flatMap (fun f => (range f.2).map (rowAddress f.1))

/-- The range a rank falls in, and the place in it. -/
theorem lookup_range (hids : ∀ n ∈ news, n.1 < 2 ^ 32) (total index : Nat) (hlow : total ≤ index)
    (hhigh : index < total + (news.map Prod.snd).sum) :
    ((rangesOf news total).1.takeWhile (fun r => decide (r.rowsBefore ≤ index))).getLast?.map
        (fun target => rowAddress target.fragment (index - target.rowsBefore)) =
      (addressesOf news)[index - total]? := by
  induction news generalizing total with
  | nil => grind
  | cons n rest ih =>
    rcases n with ⟨id, physical⟩
    have hrest := fun n hn => hids n (.tail _ hn)
    rw [map_cons, sum_cons] at hhigh
    simp only [] at hhigh
    have haddresses : addressesOf ((id, physical) :: rest) =
        (range physical).map (rowAddress id) ++ addressesOf rest := rfl
    have hblock : ((range physical).map (rowAddress id)).length = physical := by
      rw [length_map, length_range]
    rw [rangesOf, haddresses]
    by_cases hzero : physical = 0
    · -- An empty fragment has no range and no rows.
      rw [if_pos hzero, hzero, range_zero, map_nil, nil_append]
      exact ih hrest total hlow (by omega)
    · rw [if_neg hzero]
      simp only []
      rw [takeWhile_cons_of_pos (by rw [decide_eq_true_eq]; exact hlow)]
      by_cases hin : index < total + physical
      · have hnone : (rangesOf rest (total + physical)).1.takeWhile
            (fun r => decide (r.rowsBefore ≤ index)) = [] := by
          refine eq_nil_iff_forall_not_mem.mpr (fun r hr => ?_)
          have hle := mem_takeWhile_imp hr
          rw [decide_eq_true_eq] at hle
          have hge := le_rangesOf r ((takeWhile_sublist _).subset hr)
          omega
        rw [hnone, getElem?_append_left (by rw [hblock]; omega), getElem?_map,
          getElem?_range (by omega)]
        simp only [getLast?_singleton, Option.map_some,
          Nat.mod_eq_of_lt (hids (id, physical) (.head _))]
      · have hnext := ih hrest (total + physical) (by omega) (by omega)
        rw [getElem?_append_right (by rw [hblock]; omega), hblock, Nat.sub_sub, ← hnext]
        -- The rank falls in a later range, so the last one passed is among those.
        have hlen : index - (total + physical) < (addressesOf rest).length := by
          unfold addressesOf
          rw [length_flatMap]
          simp only [length_map, length_range]
          have hsum : (rest.map (fun f => f.2)).sum = (rest.map Prod.snd).sum := rfl
          omega
        grind

theorem newAddresses_group (p : Part) : newAddresses p.group = addressesOf p.news := rfl

/-! ## One step -/

/-- The rank of a live row among those of its group. -/
theorem Part.Ok.idxOf_changed (h : p.Ok) (before after : List OldRows) (o : OldRows)
    (holds : p.olds = before ++ o :: after) (offset : Nat) (hoffset : offset ∈ o.live) :
    p.changed.idxOf (rowAddress o.id offset) =
      (before.flatMap OldRows.addresses).length + o.live.idxOf offset := by
  have ho : o ∈ p.olds := by simp [holds]
  have hok := h.olds o ho
  have hsmall : offset < 2 ^ 32 := by
    have h₁ := hok.within offset hoffset
    have h₂ := hok.physical_le
    omega
  have hself : rowAddress o.id offset ∈ o.addresses := mem_map_of_mem hoffset
  have hnot : rowAddress o.id offset ∉ before.flatMap OldRows.addresses := by
    intro hmem
    rcases mem_flatMap.mp hmem with ⟨q, hq, hin⟩
    have hq' : q ∈ p.olds := by
      rw [holds]
      exact mem_append_left _ hq
    have hid := (((h.olds q hq').mem_addresses _).mp hin).1
    rw [fragmentOf_rowAddress _ _ hsmall] at hid
    have hdistinct := h.distinct
    grind
  grind [Part.changed, idxOf_addresses]

section

variable (hbuilt : Built step parts)
  (hdistinct : (parts.flatMap (fun p => p.olds.map (·.id))).Nodup) (hp : p ∈ parts)

include hbuilt hdistinct hp

/-- A step puts the live rows of a group, in order, into its new fragments. -/
theorem resolveStep_live (hok : p.Ok) (ha : a ∈ p.changed) :
    resolveStep step a = (newAddresses p.group)[p.changed.idxOf a]? := by
  rcases append_of_mem hp with ⟨above, below, rfl⟩
  rcases (hok.mem_changed a).mp ha with ⟨o, ho, hid, hlive⟩
  rcases append_of_mem ho with ⟨before, after, holds⟩
  have hrecord := lookup_record hbuilt hdistinct holds
  have hrank := hok.idxOf_changed before after o holds (offsetOf a) hlive
  rw [← hid, rowAddress_eta] at hrank
  have hindex : p.changed.idxOf a < (p.news.map Prod.snd).sum := by
    rw [hok.counted]
    exact idxOf_lt_length_iff.mpr ha
  have hranges : (step.groups.getD above.length {}).newRanges = (rangesOf p.news 0).1 := by
    rw [hbuilt.groups, map_append, map_cons, getD_eq_getElem?_getD,
      getElem?_append_right (by rw [length_map]), length_map, Nat.sub_self]
    rfl
  have hfits : ¬ o.physical ≤ offsetOf a := by
    have hlt := (hok.olds o ho).within (offsetOf a) hlive
    omega
  have hfound : o.live[o.live.idxOf (offsetOf a)]? = some (offsetOf a) := by grind
  have hrange := lookup_range p.news (fun n hn => (hok.news n hn).1) 0 (p.changed.idxOf a)
    (Nat.zero_le _) (by omega)
  unfold resolveStep
  rw [hid, hrecord]
  simp only [hfits, if_false, length_takeWhile_lt (hok.olds o ho).ascending hlive, hfound,
    ne_eq, not_true_eq_false, hranges, ← hrank]
  rw [hrange, newAddresses_group, Nat.sub_zero]

/-- A row of a replaced fragment that is not live leads nowhere. -/
theorem resolveStep_deleted (ho : o ∈ p.olds) (hid : fragmentOf a = o.id)
    (hlt : offsetOf a < o.physical) (hdead : offsetOf a ∉ o.live) : resolveStep step a = none := by
  rcases append_of_mem hp with ⟨above, below, rfl⟩
  rcases append_of_mem ho with ⟨before, after, holds⟩
  have hrecord := lookup_record hbuilt hdistinct holds
  have hfits : ¬ o.physical ≤ offsetOf a := by omega
  have hnone : o.live[(o.live.takeWhile (fun x => decide (x < offsetOf a))).length]? ≠
      some (offsetOf a) := fun h => hdead (mem_of_getElem? h)
  simp [resolveStep, hid, hrecord, hfits, hnone]

end

/-- A row of a fragment the step does not know stays. -/
theorem resolveStep_other {step : RemapStep} (hbuilt : Built step parts) (a : Nat)
    (hnot : fragmentOf a ∉ parts.flatMap (fun p => p.olds.map (·.id))) :
    resolveStep step a = some a := by
  have hnone : step.find? (fragmentOf a) = none := by
    unfold RemapStep.find?
    rw [Option.map_eq_none_iff, find?_eq_none]
    intro e he
    rw [decide_eq_true_eq]
    intro heq
    rw [← fragsFrom_ids 0, ← hbuilt.frags] at hnot
    exact hnot (mem_map.mpr ⟨e, he, heq⟩)
  unfold resolveStep
  rw [hnone]

/-! ## One version -/

variable {ids : List Nat}

/-- The rows a rewrite kept, by fragment. -/
theorem oldDigests_rows {vectors : DeletionVectors} {original : Manifest}
    {out : List Nat × List (Nat × Nat)} (h : oldDigests vectors original ids = .ok out) :
    ∃ olds : List OldRows, out.1 = olds.flatMap OldRows.addresses ∧
      out.2 = olds.map (fun o => (o.id, o.physical)) ∧ olds.map (·.id) = ids ∧
      ∀ o ∈ olds, ∃ f, original.fragment? o.id = some f ∧ o.physical = f.physicalRows ∧
        o.live = (range f.physicalRows).filter (liveRow vectors f) := by
  rcases oldDigests_spec vectors h with ⟨fragments, rfl, hfound, rfl⟩
  refine ⟨fragments.map (fun f => ⟨f.id, f.physicalRows,
    (range f.physicalRows).filter (liveRow vectors f)⟩), ?_, ?_, ?_, fun o ho => ?_⟩
  · rw [flatMap_map]
    rfl
  · rw [map_map]
    rfl
  · rw [map_map]
    rfl
  · rcases mem_map.mp ho with ⟨f, hf, rfl⟩
    exact ⟨f, hfound f hf, rfl, rfl⟩

/-- The parts of a compaction: its groups by fragment, with the live rows of the version it read. -/
structure Parts (rowsOf : Nat → Nat) (d : Deferred) (parts : List Part) : Prop where
  ok : ∀ p ∈ parts, p.Ok
  ids : parts.flatMap (fun p => p.olds.map (·.id)) = d.rewritten
  live : ∀ p ∈ parts, ∀ o ∈ p.olds, o.physical = rowsOf o.id ∧
    ∃ f, d.original.fragment? o.id = some f ∧
      ∀ offset, offset ∈ o.live ↔ liveRow d.vectors f offset = true
  news : parts.flatMap (·.news) = d.created.map (fun f => (f.id, f.physicalRows))

variable {rowsOf : Nat → Nat} {history : List Deferred} {steps : List RemapStep}

theorem Parts.distinct (h : Parts rowsOf d parts) (hsound : Sound rowsOf d) :
    (parts.flatMap (fun p => p.olds.map (·.id))).Nodup :=
  h.ids.symm ▸ hsound.distinct

theorem exists_map_eq {α β : Type} {f : α → β} {Q : α → Prop} {l : List β}
    (h : ∀ b ∈ l, ∃ a, f a = b ∧ Q a) : ∃ as : List α, as.map f = l ∧ ∀ a ∈ as, Q a := by
  induction l with
  | nil => exact ⟨[], rfl, nofun⟩
  | cons b l ih =>
    rcases h b (.head _) with ⟨a, hab, ha⟩
    rcases ih (fun x hx => h x (.tail _ hx)) with ⟨as, has, hall⟩
    exact ⟨a :: as, by rw [map_cons, hab, has], forall_mem_cons.mpr ⟨ha, hall⟩⟩

theorem Sound.toParts (h : Sound rowsOf d) (hsmall : ∀ id, rowsOf id ≤ 2 ^ 32)
    (groups : List WriteGroup) (hgroups : d.groups = .ok groups) :
    ∃ parts, groups.map WriteGroup.reuse = parts.map Part.group ∧ Parts rowsOf d parts := by
  have hcompaction := writeGroups_reuse _ _ _ _ _ hgroups
  rcases compactionGroups_ok _ _ _ _ hcompaction with ⟨hnew, hpairs⟩
  rcases compactionGroups_ids _ hcompaction with ⟨hold, -⟩
  have hpartner := (forall₂_partner hpairs).2
  have hfresh : ∀ g ∈ groups.map WriteGroup.reuse, ∀ n ∈ g.newFragments,
      n.1 < 2 ^ 32 ∧ n.2 ≤ 2 ^ 32 := by
    intro g hg n hn
    have hin : n ∈ (groups.map WriteGroup.reuse).flatMap (·.newFragments) :=
      mem_flatMap.mpr ⟨g, hg, hn⟩
    rw [hnew] at hin
    rcases mem_map.mp hin with ⟨f, hf, rfl⟩
    have hf' := h.new f hf
    exact ⟨hf'.1, by rw [hf'.2]; exact hsmall f.id⟩
  have hparts : ∀ g ∈ groups.map WriteGroup.reuse, ∃ p : Part, p.group = g ∧ p.Ok ∧
      ∀ o ∈ p.olds, o.physical = rowsOf o.id ∧ ∃ f, d.original.fragment? o.id = some f ∧
        ∀ offset, offset ∈ o.live ↔ liveRow d.vectors f offset = true := by
    intro g hg
    rcases hpartner g hg with ⟨r, hr, hdigests, hcount⟩
    rcases oldDigests_rows hdigests with ⟨olds, hrows, holds, hids, hlive⟩
    have hmem : ∀ o ∈ olds, o.id ∈ d.rewritten := fun o ho =>
      mem_flatMap.mpr ⟨r, hr, by rw [← hids]; exact mem_map_of_mem ho⟩
    have hphysical : ∀ o ∈ olds, o.physical = rowsOf o.id := by
      intro o ho
      rcases hlive o ho with ⟨f, hf, hp, -⟩
      rw [hp]
      exact ((h.old o.id (hmem o ho)).2 f hf).1
    refine ⟨⟨olds, g.newFragments⟩, ?_, ⟨?_, ?_, hfresh g hg, ?_⟩, ?_⟩
    · unfold Part.group Part.changed
      rw [← hrows, ← holds]
    · intro o ho
      rcases hlive o ho with ⟨f, hf, hp, hfilter⟩
      refine ⟨(h.old o.id (hmem o ho)).1, by rw [hphysical o ho]; exact hsmall o.id, ?_, ?_⟩
      · rw [hfilter]
        exact List.Pairwise.filter _ pairwise_lt_range
      · grind
    · rw [hids]
      exact (nodup_flatMap.mp h.distinct).1 r hr
    · show (g.newFragments.map Prod.snd).sum = (olds.flatMap OldRows.addresses).length
      rw [hcount, ← hrows]
      exact h.counted r hr _ hdigests
    · grind [liveRow]
  rcases exists_map_eq hparts with ⟨parts, hmap, hall⟩
  refine ⟨parts, hmap.symm, fun p hp => (hall p hp).1, ?_, fun p hp => (hall p hp).2, ?_⟩
  · have hids : ∀ p : Part, p.group.oldIds = p.olds.map (·.id) := by
      intro p
      rw [ReuseGroup.oldIds, Part.group, map_map]
      rfl
    rw [← hmap, flatMap_map] at hold
    simp only [hids] at hold
    exact hold
  · rw [← hmap, flatMap_map] at hnew
    exact hnew

/-- The next part's fragments are not in the step yet. -/
theorem Built.apart {done : List Part} (h : Built step done) (p : Part) (parts : List Part)
    (hdistinct : ((done ++ p :: parts).flatMap (fun p => p.olds.map (·.id))).Nodup) :
    ∀ o ∈ p.olds, o.id ∉ step.frags.map Prod.fst := by
  intro o ho hin
  rw [h.frags, fragsFrom_ids] at hin
  rw [flatMap_append, nodup_append] at hdistinct
  grind

/-- A version builds a step with the parts of its compaction. -/
theorem addGroups_parts (done : List Part) (step : RemapStep) (hbuilt : Built step done)
    (hok : ∀ p ∈ parts, p.Ok)
    (hdistinct : ((done ++ parts).flatMap (fun p => p.olds.map (·.id))).Nodup) :
    ∃ next, addGroups (parts.map Part.group) step = .ok next ∧ Built next (done ++ parts) := by
  induction parts generalizing done step with
  | nil =>
    rw [append_nil]
    exact ⟨step, rfl, hbuilt⟩
  | cons p parts ih =>
    have hnext := addGroup_part (hok p (.head _)) (hbuilt.apart p parts hdistinct)
    rcases ih (done ++ [p]) (p.addTo step) (hbuilt.addTo p) (fun q hq => hok q (.tail _ hq))
      (by rw [append_assoc, singleton_append]; exact hdistinct) with
      ⟨last, hlast, hfinal⟩
    refine ⟨last, ?_, ?_⟩
    · rw [map_cons, addGroups, hnext]
      exact hlast
    · grind

/-- A version read back builds a step with the parts of its compaction. -/
theorem buildRawStep_parts (parts done : List Part) (groups : List WriteGroup) (step : RemapStep)
    (hbuilt : Built step done) (hgroups : groups.map WriteGroup.reuse = parts.map Part.group)
    (hok : ∀ p ∈ parts, p.Ok)
    (hdistinct : ((done ++ parts).flatMap (fun p => p.olds.map (·.id))).Nodup)
    (hsizes : ∀ g ∈ groups, (Roaring.encodeTreemap g.changedRowAddrs).length < 2 ^ 64) :
    ∃ next, (groups.map WriteGroup.raw).foldlM addRawGroup step = .ok next ∧
      Built next (done ++ parts) := by
  induction parts generalizing done groups step with
  | nil =>
    rw [map_nil, map_eq_nil_iff] at hgroups
    rw [hgroups, append_nil]
    exact ⟨step, rfl, hbuilt⟩
  | cons p parts ih =>
    cases groups with
    | nil => exact absurd hgroups.symm (cons_ne_nil _ _)
    | cons g groups =>
      rw [map_cons, map_cons, cons.injEq] at hgroups
      rcases hgroups with ⟨hgroup, hrest⟩
      have hchanged : g.changedRowAddrs = p.changed := congrArg (·.changedRowAddrs) hgroup
      have hnext := addRawGroup_part (hok p (.head _)) (hbuilt.apart p parts hdistinct) g.raw
        (by rw [WriteGroup.raw, hchanged]) (by rw [WriteGroup.raw, hgroup])
        (by rw [WriteGroup.raw, hgroup]; rfl) (hsizes g (.head _))
      rcases ih (done ++ [p]) groups (p.addTo step) (hbuilt.addTo p) hrest
        (fun q hq => hok q (.tail _ hq))
        (by rw [append_assoc, singleton_append]; exact hdistinct)
        (fun x hx => hsizes x (.tail _ hx)) with ⟨last, hlast, hfinal⟩
      refine ⟨last, ?_, ?_⟩
      · simp [hnext, hlast]
      · grind

/-- What a step is to its compaction. -/
structure Follows (rowsOf : Nat → Nat) (d : Deferred) (step : RemapStep) : Prop where
  groups : ∃ groups parts, d.groups = .ok groups ∧
    groups.map WriteGroup.reuse = parts.map Part.group ∧ Parts rowsOf d parts ∧ Built step parts

/-- A step puts rows where its compaction did. -/
theorem resolveStep_moved (hsound : Sound rowsOf d) (h : Follows rowsOf d step) (a : Nat)
    (hrow : offsetOf a < rowsOf (fragmentOf a)) : resolveStep step a = d.moved a := by
  rcases h.groups with ⟨groups, parts, hgroups, hmap, hparts, hbuilt⟩
  have hdistinct := hparts.distinct hsound
  unfold Deferred.moved
  by_cases hin : fragmentOf a ∈ d.rewritten
  · rw [if_neg (not_not_intro hin)]
    rw [← hparts.ids, mem_flatMap] at hin
    rcases hin with ⟨p, hp, hid⟩
    rcases mem_map.mp hid with ⟨o, ho, hid⟩
    rcases hparts.live p hp o ho with ⟨hphysical, f, hf, hlive⟩
    have hstate : d.live a = liveRow d.vectors f (offsetOf a) := by
      rw [Deferred.live, ← hid, hf]
      rfl
    rw [hstate, hgroups]
    by_cases halive : offsetOf a ∈ o.live
    · rw [if_pos ((hlive _).mp halive)]
      have hchanged : a ∈ p.changed :=
        ((hparts.ok p hp).mem_changed a).mpr ⟨o, ho, hid.symm, halive⟩
      -- The group `movedBy` looks the row up in is the first that has it.
      simp only [movedBy, hmap]
      cases hfind : (parts.map Part.group).find? (fun g => decide (a ∈ g.changedRowAddrs)) with
      | none =>
        rw [find?_eq_none] at hfind
        exact absurd (decide_eq_true hchanged) (hfind p.group (mem_map_of_mem hp))
      | some g =>
        have hg := mem_of_find?_eq_some hfind
        have hag := find?_some hfind
        rw [decide_eq_true_eq] at hag
        rcases mem_map.mp hg with ⟨q, hq, rfl⟩
        have hq' := hparts.ok q hq
        have hlength : q.changed.idxOf a < (newAddresses q.group).length := by
          rw [length_newAddresses]
          show _ < (q.news.map Prod.snd).sum
          rw [hq'.counted]
          exact idxOf_lt_length_iff.mpr hag
        rw [resolveStep_live hbuilt hdistinct hq hq' hag, getElem?_eq_getElem hlength]
        exact congrArg some (transport_eq hlength).symm
    · rw [if_neg (fun hc => halive ((hlive _).mpr hc))]
      exact resolveStep_deleted hbuilt hdistinct hp ho hid.symm
        (by rw [hphysical, hid]; exact hrow) halive
  · rw [if_pos hin]
    exact resolveStep_other hbuilt a (by rw [hparts.ids]; exact hin)

theorem mem_addressesOf (b : Nat) :
    b ∈ addressesOf news ↔ ∃ n ∈ news, ∃ offset < n.2, rowAddress n.1 offset = b := by
  simp [addressesOf]

theorem Parts.news_rows (h : Parts rowsOf d parts) (hsound : Sound rowsOf d) (p : Part)
    (hp : p ∈ parts) (n : Nat × Nat) (hn : n ∈ p.news) :
    n.2 = rowsOf n.1 ∧ n.1 ∈ d.created.map (·.id) := by
  have hin : n ∈ parts.flatMap (·.news) := mem_flatMap.mpr ⟨p, hp, hn⟩
  rw [h.news] at hin
  rcases mem_map.mp hin with ⟨f, hf, rfl⟩
  exact ⟨(hsound.new f hf).2, mem_map_of_mem hf⟩

/-- Rows are moved to rows. -/
theorem moved_row (hsound : Sound rowsOf d) (hsmall : ∀ id, rowsOf id ≤ 2 ^ 32)
    (h : Follows rowsOf d step) {b : Nat} (hrow : offsetOf a < rowsOf (fragmentOf a))
    (hab : resolveStep step a = some b) : offsetOf b < rowsOf (fragmentOf b) := by
  rcases h.groups with ⟨groups, parts, hgroups, hmap, hparts, hbuilt⟩
  have hdistinct := hparts.distinct hsound
  by_cases hin : fragmentOf a ∈ d.rewritten
  · rw [← hparts.ids, mem_flatMap] at hin
    rcases hin with ⟨p, hp, hid⟩
    rcases mem_map.mp hid with ⟨o, ho, hid⟩
    have hphysical := (hparts.live p hp o ho).1
    by_cases halive : offsetOf a ∈ o.live
    · have hchanged : a ∈ p.changed :=
        ((hparts.ok p hp).mem_changed a).mpr ⟨o, ho, hid.symm, halive⟩
      rw [resolveStep_live hbuilt hdistinct hp (hparts.ok p hp) hchanged] at hab
      rcases (mem_addressesOf p.news b).mp (mem_of_getElem? hab) with ⟨n, hn, offset, hlt, rfl⟩
      have hrows := (hparts.news_rows hsound p hp n hn).1
      grind [fragmentOf_rowAddress, offsetOf_rowAddress]
    · rw [resolveStep_deleted hbuilt hdistinct hp ho hid.symm
        (by rw [hphysical, hid]; exact hrow) halive] at hab
      cases hab
  · rw [resolveStep_other hbuilt a (by rw [hparts.ids]; exact hin), Option.some.injEq] at hab
    rw [← hab]
    exact hrow

/-- Every row of a new fragment of a group comes from a row of an old one. -/
theorem row_from_group (hsound : Sound rowsOf d) (hparts : Parts rowsOf d parts)
    (hbuilt : Built step parts) (hp : p ∈ parts) {id : Nat} (hid : id ∈ p.news.map Prod.fst)
    {offset : Nat} (hoffset : offset < rowsOf id) :
    ∃ f ∈ p.olds.map (·.id), ∃ o < rowsOf f,
      resolveStep step (rowAddress f o) = some (rowAddress id offset) := by
  rcases mem_map.mp hid with ⟨n, hn, rfl⟩
  have hok := hparts.ok p hp
  have hdistinct := hparts.distinct hsound
  rw [← (hparts.news_rows hsound p hp n hn).1] at hoffset
  have hnew : rowAddress n.1 offset ∈ newAddresses p.group :=
    (mem_addressesOf p.news _).mpr ⟨n, hn, offset, hoffset, rfl⟩
  rcases getElem_of_mem hnew with ⟨i, hi, hget⟩
  have hlength : (newAddresses p.group).length = p.changed.length := by
    rw [length_newAddresses, ← hok.counted]
    rfl
  have hi' : i < p.changed.length := by omega
  have hmem := getElem_mem hi'
  rcases (hok.mem_changed _).mp hmem with ⟨o, ho, hfrag, hlive⟩
  refine ⟨o.id, mem_map_of_mem ho, offsetOf p.changed[i], ?_, ?_⟩
  · rw [← (hparts.live p hp o ho).1]
    exact (hok.olds o ho).within _ hlive
  · rw [← hfrag, rowAddress_eta, resolveStep_live hbuilt hdistinct hp hok hmem,
      hok.nodup.idxOf_getElem i hi', getElem?_eq_getElem hi, hget]

/-! ## Several versions -/

theorem resolve_append (steps : List RemapStep) (step : RemapStep) (a : Nat) :
    resolve (steps ++ [step]) a = (resolve steps a).bind (resolveStep step) := by
  induction steps generalizing a with
  | nil => simp [resolve]
  | cons s steps ih =>
    rw [cons_append, resolve, resolve, Option.bind_assoc]
    congr 1
    funext b
    exact ih b

/-- The steps of some compactions put rows where the compactions did, one after the other. -/
theorem resolve_whereTo (hsmall : ∀ id, rowsOf id ≤ 2 ^ 32) (hsound : ∀ d ∈ history, Sound rowsOf d)
    (h : List.Forall₂ (Follows rowsOf) history steps) (a : Nat)
    (hrow : offsetOf a < rowsOf (fragmentOf a)) : resolve steps a = whereTo history a := by
  induction h generalizing a with
  | nil => rfl
  | @cons d step history steps hd _ ih =>
    have hd' := hsound d (.head _)
    rw [resolve, whereTo, ← resolveStep_moved hd' hd a hrow]
    cases hb : resolveStep step a with
    | none => rfl
    | some b =>
      rw [Option.bind_some, Option.bind_some]
      exact ih (fun e he => hsound e (.tail _ he)) b (moved_row hd' hsmall hd hrow hb)

/-- Coverage that comes from `ids`: nothing rewritten is in it, and every row of what is in it comes
    from a row of one of `ids`. -/
def Traced (rowsOf : Nat → Nat) (history : List Deferred) (steps : List RemapStep)
    (ids covered : List Nat) : Prop :=
  ∀ id ∈ covered, (∀ d ∈ history, id ∉ d.rewritten) ∧
    ∀ offset < rowsOf id, ∃ f ∈ ids, ∃ o < rowsOf f,
      resolve steps (rowAddress f o) = some (rowAddress id offset)

theorem Parts.apart (h : Parts rowsOf d parts) (hsound : Sound rowsOf d) :
    GroupsApart (parts.map (fun p => (p.olds.map (·.id), p.news.map Prod.fst))) := by
  have hold := h.distinct hsound
  have hnew : (parts.flatMap (fun p => p.news.map Prod.fst)).Nodup := by
    have hids := congrArg (map Prod.fst) h.news
    rw [map_flatMap, map_map] at hids
    rw [hids]
    exact (numberFrom_ids _ d.next).symm ▸ nodup_range'
  refine ⟨pairwise_map.mpr ((nodup_flatMap.mp hold).2.imp fun hd id hid hk => hd hid hk),
    pairwise_map.mpr ((nodup_flatMap.mp hnew).2.imp fun hd id hid hk => hd hid hk), ?_⟩
  intro a ha b hb id hid hrewritten
  rcases mem_map.mp ha with ⟨p, hp, rfl⟩
  rcases mem_map.mp hb with ⟨q, hq, rfl⟩
  rcases mem_map.mp hid with ⟨n, hn, rfl⟩
  rcases mem_map.mp (h.news_rows hsound p hp n hn).2 with ⟨f, hf, hfid⟩
  refine hsound.fresh f hf ?_
  rw [hfid, ← h.ids]
  exact mem_flatMap.mpr ⟨q, hq, hrewritten⟩

/-- Coverage after one more version. -/
theorem Traced.next {covered : List Nat} (h : Traced rowsOf history steps ids covered)
    (d : Deferred) (step : RemapStep) (hsmall : ∀ id, rowsOf id ≤ 2 ^ 32) (hsound : Sound rowsOf d)
    (hfollows : Follows rowsOf d step) (hfresh : ∀ e ∈ history, ∀ f ∈ d.created, f.id ∉ e.rewritten) :
    Traced rowsOf (history ++ [d]) (steps ++ [step]) ids
      ((step.groups.map (fun g => (g.oldIds, g.newIds))).foldl remapGroup covered) := by
  rcases hfollows.groups with ⟨groups, parts, hgroups, hmap, hparts, hbuilt⟩
  have hpairs : step.groups.map (fun g => (g.oldIds, g.newIds)) =
      parts.map (fun p => (p.olds.map (·.id), p.news.map Prod.fst)) := by
    rw [hbuilt.groups, map_map]
    rfl
  have hapart := hparts.apart hsound
  have hrewritten : ∀ id, (∀ g ∈ parts.map (fun p : Part => (p.olds.map (·.id), p.news.map Prod.fst)),
      id ∉ g.1) → id ∉ d.rewritten := by
    intro id hnot hin
    rw [← hparts.ids, mem_flatMap] at hin
    rcases hin with ⟨p, hp, hid⟩
    exact hnot _ (mem_map_of_mem hp) hid
  rw [hpairs]
  intro id hid
  by_cases hkept : id ∈ covered ∧ id ∉ d.rewritten
  · -- A fragment left alone: its rows stay where the earlier versions put them.
    rcases h id hkept.1 with ⟨hbefore, hrows⟩
    refine ⟨fun e he => ?_, fun offset hoffset => ?_⟩
    · grind
    · rcases hrows offset hoffset with ⟨f, hf, o, ho, hresolve⟩
      refine ⟨f, hf, o, ho, ?_⟩
      have hle := hsmall id
      rw [resolve_append, hresolve, Option.bind_some]
      refine resolveStep_other hbuilt _ ?_
      rw [fragmentOf_rowAddress _ _ (by omega), hparts.ids]
      exact hkept.2
  · -- A fragment a group wrote: the group was covered whole.
    have hnew : ∃ g ∈ parts.map (fun p : Part => (p.olds.map (·.id), p.news.map Prod.fst)),
        id ∈ g.2 := by
      rcases mem_foldl_remapGroup _ covered hid with ⟨hin, hnot⟩ | hnew
      · exact absurd ⟨hin, hrewritten id hnot⟩ hkept
      · exact hnew
    rcases hnew with ⟨g, hg, hidg⟩
    have hfreshid : id ∉ d.rewritten := hrewritten id (fun k hk => hapart.fresh g hg k hk id hidg)
    have hcovered : id ∉ covered := fun hc => hkept ⟨hc, hfreshid⟩
    have hwhole := (mem_foldl_remapGroup_new hidg _ covered hapart hg hcovered).mp hid
    rcases mem_map.mp hg with ⟨p, hp, rfl⟩
    have hall := ((coversWhole_iff _ _).mp hwhole).2.2
    have hcreated : ∃ f ∈ d.created, f.id = id := by
      rcases mem_map.mp hidg with ⟨n, hn, rfl⟩
      exact mem_map.mp (hparts.news_rows hsound p hp n hn).2
    refine ⟨fun e he => ?_, fun offset hoffset => ?_⟩
    · grind
    · rcases row_from_group hsound hparts hbuilt hp hidg hoffset with
        ⟨old, hold, place, hplace, hstep⟩
      rcases (h old (hall old hold)).2 place hplace with ⟨f, hf, o, ho, hresolve⟩
      grind [resolve_append]

/-- Coverage after all versions. -/
theorem Traced.after (hsmall : ∀ id, rowsOf id ≤ 2 ^ 32) {later : List Deferred}
    {rest : List RemapStep} (hfollows : List.Forall₂ (Follows rowsOf) later rest) :
    ∀ {history : List Deferred} {steps : List RemapStep} {covered : List Nat},
      Traced rowsOf history steps ids covered → History rowsOf (history ++ later) →
      Traced rowsOf (history ++ later) (steps ++ rest) ids
        (((rest.flatMap (·.groups)).map (fun g => (g.oldIds, g.newIds))).foldl remapGroup covered) := by
  induction hfollows with
  | nil => grind
  | @cons d step later rest hd _ ih =>
    intro history steps covered h hhistory
    have hsound := hhistory.sound d (mem_append_right _ (.head _))
    have hfresh : ∀ e ∈ history, ∀ f ∈ d.created, f.id ∉ e.rewritten := fun e he =>
      (pairwise_append.mp hhistory.fresh).2.2 e he d (.head _)
    have hstep := h.next d step hsmall hsound hd hfresh
    grind

/-! ## The entry -/

section

variable (h : Sound rowsOf d) (hsmall : ∀ id, rowsOf id ≤ 2 ^ 32)

include h hsmall

theorem oldFragmentDigests_fits (ids : List Nat) (hids : ∀ id ∈ ids, id ∈ d.rewritten)
    (out : List Nat × List Digest) (hout : oldFragmentDigests d.vectors d.original ids = .ok out) :
    ∀ x ∈ out.2, Fits x := by
  induction ids generalizing out with
  | nil =>
    cases hout
    exact nofun
  | cons id ids ih =>
    rw [oldFragmentDigests] at hout
    cases hfind : d.original.fragment? id with
    | none => grind
    | some f =>
      rw [hfind] at hout
      simp only [bind_eq_ok, pure_eq_ok] at hout
      rcases hout with ⟨deleted, -, others, hothers, rfl⟩
      have hid := fragment_id d.original id f hfind
      have hold := h.old id (hids id (.head _))
      intro x hx
      rcases mem_cons.mp hx with rfl | hin
      · have hrows := (hold.2 f hfind).1
        have hle := hsmall id
        have hphysical : f.physicalRows < 2 ^ 64 := by omega
        refine ⟨by rw [hid]; omega, hphysical, ?_⟩
        cases hfile : f.deletionFile with
        | none => exact Nat.two_pow_pos 64
        | some file => exact (hold.2 f hfind).2 file hfile
      · exact ih (fun y hy => hids y (.tail _ hy)) others hothers x hin

theorem writeGroups_fits (rewrites : List CompactionRewrite) (next : Nat)
    (hold : ∀ r ∈ rewrites, ∀ id ∈ r.oldFragmentIds, id ∈ d.rewritten)
    (hnew : ∀ f ∈ numberFrom (rewrites.flatMap (·.newFragments)) next, f ∈ d.created)
    (groups : List WriteGroup)
    (hgroups : writeGroups d.vectors d.original rewrites next = .ok groups) :
    ∀ g ∈ groups, (∀ x ∈ g.oldFragments, Fits x) ∧ ∀ x ∈ g.newFragments, Fits x := by
  induction rewrites generalizing next groups with
  | nil =>
    cases hgroups
    exact nofun
  | cons r rewrites ih =>
    simp only [writeGroups, bind_eq_ok, pure_eq_ok] at hgroups
    rcases hgroups with ⟨old, hdigests, others, hothers, rfl⟩
    rw [flatMap_cons, numberFrom_append] at hnew
    intro g hg
    rcases mem_cons.mp hg with rfl | hin
    · refine ⟨oldFragmentDigests_fits h hsmall _ (hold r (.head _)) old hdigests, ?_⟩
      intro x hx
      rcases mem_map.mp hx with ⟨f, hf, rfl⟩
      have hf' := h.new f (hnew f (mem_append_left _ hf))
      have hle := hsmall f.id
      exact ⟨by simp only; omega, by simp only; omega, Nat.two_pow_pos 64⟩
    · exact ih _ (fun x hx => hold x (.tail _ hx))
        (fun f hf => hnew f (mem_append_right _ hf)) others hothers g hin

/-- The message of a version reads back as a step that follows its compaction. -/
theorem Sound.version_step (groups : List WriteGroup) (hgroups : d.groups = .ok groups)
    (hsize : (encodeVersion d.version groups).length < 2 ^ 64) :
    ∃ raw step, readVersion (encodeVersion d.version groups) = .ok raw ∧
      buildRawStep raw = .ok step ∧ Follows rowsOf d step := by
  rcases h.toParts hsmall groups hgroups with ⟨parts, hmap, hparts⟩
  have hfits := writeGroups_fits h hsmall d.rewrites d.next
    (fun r hr id hid => mem_flatMap.mpr ⟨r, hr, hid⟩) (fun f hf => hf) groups hgroups
  have hread := readVersion_encode h.version hfits hsize
  have hsizes : ∀ g ∈ groups, (Roaring.encodeTreemap g.changedRowAddrs).length < 2 ^ 64 := by
    intro g hg
    have hgroup := Wire.length_le_repeated 3 encodeGroup hg
    have htreemap := Wire.length_le_putBytes 1 (Roaring.encodeTreemap g.changedRowAddrs)
    grind [encodeVersion, encodeGroup]
  rcases buildRawStep_parts parts [] groups {} ⟨rfl, rfl⟩ hmap hparts.ok
    (hparts.distinct h) hsizes with ⟨step, hstep, hbuilt⟩
  exact ⟨_, step, hread, hstep, ⟨groups, parts, hgroups, hmap, hparts, hbuilt⟩⟩

end

/-- The messages of an entry are those of its compactions. -/
theorem Recorded.messages {prior : Option ReuseEntry} (h : Recorded history prior) :
    ∃ messages, List.Forall₂ (fun d m => ∃ groups, d.groups = .ok groups ∧
        m = encodeVersion d.version groups) history messages ∧
      priorMessages (prior.map (·.detailsValue)) = .ok messages ∧
      ∀ entry, prior = some entry →
        entry.detailsTypeUrl = "/lance.table.FragmentReuseIndexDetails" ∧
        entry.detailsValue = Wire.putBytes 1 (messages.flatMap (Wire.putBytes 1)) ∧
        entry.detailsValue.length < 2 ^ 64 := by
  induction h with
  | start =>
    exact ⟨[], List.Forall₂.nil, rfl, fun entry he => absurd he
      (by simp only [reduceCtorEq, not_false_eq_true])⟩
  | record history prior d groups coverage uuid now entry _ hgroups hentry hsize ih =>
    rcases ih with ⟨messages, hmessages, hprior, -⟩
    simp only [fragmentReuseEntry, bind_eq_ok, pure_eq_ok] at hentry
    rcases hentry with ⟨details, hdetails, rfl⟩
    rcases reuseDetails_ok hdetails with ⟨kept, hkept, rfl⟩
    rw [hprior, Except.ok.injEq] at hkept
    rw [← hkept] at hsize ⊢
    refine ⟨messages ++ [encodeVersion d.version groups], ?_, ?_, ?_⟩
    · exact rel_append hmessages (List.Forall₂.cons ⟨groups, hgroups, rfl⟩ List.Forall₂.nil)
    · refine priorMessages_details _ (Nat.lt_of_le_of_lt ?_ hsize)
      exact Wire.length_le_putBytes 1 _
    · grind

/-- The messages read back as steps that follow the compactions. -/
theorem steps_of_messages (hsmall : ∀ id, rowsOf id ≤ 2 ^ 32) {messages : List (List UInt8)}
    (h : List.Forall₂ (fun d m => ∃ groups, d.groups = .ok groups ∧ m = encodeVersion d.version
      groups) history messages) (hsound : ∀ d ∈ history, Sound rowsOf d)
    (hsizes : ∀ m ∈ messages, m.length < 2 ^ 64) :
    ∃ raws steps, messages.mapM readVersion = .ok raws ∧ raws.mapM buildRawStep = .ok steps ∧
      List.Forall₂ (Follows rowsOf) history steps := by
  induction h with
  | nil => exact ⟨[], [], rfl, rfl, List.Forall₂.nil⟩
  | @cons d m history messages hm _ ih =>
    rcases hm with ⟨groups, hgroups, rfl⟩
    rcases (hsound d (.head _)).version_step hsmall groups hgroups
      (hsizes _ (.head _)) with ⟨raw, step, hread, hbuild, hfollows⟩
    rcases ih (fun e he => hsound e (.tail _ he))
      (fun x hx => hsizes x (.tail _ hx)) with ⟨raws, steps, hraws, hsteps, hall⟩
    refine ⟨raw :: raws, step :: steps, ?_, ?_, List.Forall₂.cons hfollows hall⟩
    · rw [mapM_cons, hread]
      simp only [bind, Except.bind, hraws]
      rfl
    · rw [mapM_cons, hbuild]
      simp only [bind, Except.bind, hsteps]
      rfl

/-- The versions of some compactions build the steps that follow them. -/
theorem buildSteps_follows (hsmall : ∀ id, rowsOf id ≤ 2 ^ 32) {versions : List ReuseVersion}
    (h : List.Forall₂ (fun d v => ∃ groups, d.groups = .ok groups ∧ v.groups = groups.map
      WriteGroup.reuse) history versions) (hsound : ∀ d ∈ history, Sound rowsOf d) :
    ∃ steps, buildSteps versions = .ok steps ∧ List.Forall₂ (Follows rowsOf) history steps := by
  induction h with
  | nil => exact ⟨[], rfl, List.Forall₂.nil⟩
  | @cons d v history versions hv _ ih =>
    rcases hv with ⟨groups, hgroups, hv⟩
    have hd := hsound d (.head _)
    rcases hd.toParts hsmall groups hgroups with ⟨parts, hmap, hparts⟩
    rcases addGroups_parts [] {} ⟨rfl, rfl⟩ hparts.ok
      (hparts.distinct hd) with ⟨step, hstep, hbuilt⟩
    rcases ih (fun e he => hsound e (.tail _ he)) with ⟨steps, hsteps, hall⟩
    refine ⟨step :: steps, ?_, List.Forall₂.cons ⟨groups, parts, hgroups, hmap, hparts, hbuilt⟩ hall⟩
    rw [buildSteps, buildStep, hv, hmap, hstep, hsteps]
    rfl

/-- Coverage as the steps of some compactions leave it. -/
theorem coverage_traced (hhistory : History rowsOf history)
    (hfollows : List.Forall₂ (Follows rowsOf) history steps) (coverage : List Nat) :
    Traced rowsOf history steps coverage (reuseCoverage (some steps) coverage) := by
  -- Before any version the coverage is traced to itself.
  have hstart : ∀ covered, (∀ id ∈ covered, id ∈ coverage) →
      Traced rowsOf [] [] coverage covered := fun covered hsub id hid =>
    ⟨nofun, fun offset hoffset => ⟨id, hsub id hid, offset, hoffset, rfl⟩⟩
  cases hfollows with
  | nil => exact hstart coverage (fun id hid => hid)
  | cons hd hrest =>
    exact (hstart (ascending coverage)
      (fun id hid => (mem_ascending id coverage).mp hid)).after hhistory.small
      (List.Forall₂.cons hd hrest) hhistory

/-- **The entry of a history of deferred compactions reads back, follows every row to where the
    compactions put it, one after the other, and moves coverage only to fragments all of whose rows
    come from covered ones; no fragment a compaction rewrote stays covered.** -/
theorem reuse_index_follows_rows (readAll : List UInt8 → Except String (List UInt8))
    (rowsOf : Nat → Nat) (history : List Deferred) (entry : ReuseEntry)
    (hhistory : History rowsOf history) (hentry : Recorded history (some entry)) :
    ∃ steps, fromDetails readAll entry = .ok steps ∧
      (∀ a, offsetOf a < rowsOf (fragmentOf a) → resolve steps a = whereTo history a) ∧
      ∀ coverage, ∀ id ∈ reuseCoverage (some steps) coverage,
        (∀ d ∈ history, id ∉ d.rewritten) ∧
        ∀ offset < rowsOf id, ∃ f ∈ coverage, ∃ o < rowsOf f,
          resolve steps (rowAddress f o) = some (rowAddress id offset) := by
  rcases hentry.messages with ⟨messages, hmessages, -, hfields⟩
  rcases hfields entry rfl with ⟨hurl, hdetails, hsize⟩
  have hsizes : ∀ m ∈ messages, m.length < 2 ^ 64 := by
    intro m hm
    have hmessage := Lib.Wire.length_le_repeated 1 (fun m => m) hm
    have hcontent := Lib.Wire.length_le_putBytes 1 (messages.flatMap (Lib.Wire.putBytes 1))
    grind
  rcases steps_of_messages hhistory.small hmessages hhistory.sound hsizes with
    ⟨raws, steps, hraws, hsteps, hfollows⟩
  refine ⟨steps, ?_, resolve_whereTo hhistory.small hhistory.sound hfollows, ?_⟩
  · rw [fromDetails_messages readAll hurl hdetails hsize hraws, hsteps]
  · exact coverage_traced hhistory hfollows

/-- Two fragments, the first with its second row deleted, rewritten into one. -/
def pairCompaction : Deferred where
  vectors := fun _ _ => .ok [1]
  original := {
    version := 3
    fragments := [{ id := 0, physicalRows := 2, deletionFile := some { numDeletedRows := 1 } },
      { id := 1, physicalRows := 1 }] }
  rewrites := [{ oldFragmentIds := [0, 1], newFragments := [{ id := 0, physicalRows := 2 }] }]
  next := 2
  version := 5

/-- The fragment that came of it, split into two. -/
def splitCompaction : Deferred where
  vectors := fun _ _ => .ok []
  original := { version := 5, fragments := [{ id := 2, physicalRows := 2 }] }
  rewrites := [{
    oldFragmentIds := [2]
    newFragments := [{ id := 0, physicalRows := 1 }, { id := 0, physicalRows := 1 }] }]
  next := 3
  version := 7

def pairRows (id : Nat) : Nat := if id = 0 ∨ id = 2 then 2 else 1

theorem reuse_index_follows_pair : ∃ entry steps,
    Recorded [pairCompaction, splitCompaction] (some entry) ∧
      fromDetails (fun _ => .error "no file") entry = .ok steps ∧
      resolve steps (rowAddress 1 0) = some (rowAddress 4 0) ∧
      resolve steps (rowAddress 0 1) = none := by
  have hfirst : ∃ entry, Recorded [pairCompaction] (some entry) ∧
      ∃ next, fragmentReuseEntry (some entry) 7
        [{ changedRowAddrs := [rowAddress 2 0, rowAddress 2 1], oldFragments := [(2, 2, 0)]
           newFragments := [(3, 1, 0), (4, 1, 0)] }] [3, 4] 8 9 = .ok next ∧
        next.detailsValue.length < 2 ^ 64 :=
    ⟨_, .record [] none pairCompaction _ [2] 6 7 _ .start rfl rfl (by decide), _, rfl,
      by decide +kernel⟩
  rcases hfirst with ⟨first, hfirst, entry, hentry, hsize⟩
  have hrecorded : Recorded [pairCompaction, splitCompaction] (some entry) :=
    .record [pairCompaction] (some first) splitCompaction _ [3, 4] 8 9 entry hfirst rfl hentry hsize
  have hhistory : History pairRows [pairCompaction, splitCompaction] := by
    refine ⟨fun id => ?_, ?_, ?_⟩
    · unfold pairRows
      split <;> decide
    · intro d hd
      rcases mem_cons.mp hd with rfl | hd
      · refine ⟨by decide, ?_, by decide, ?_, by decide, by decide⟩
        · intro id hid
          refine ⟨?_, fun f hf => ?_⟩
          · revert id
            decide
          · rcases mem_cons.mp hid with rfl | hid
            · cases hf
              exact ⟨rfl, fun file hfile => by cases hfile; decide⟩
            · rcases mem_singleton.mp hid with rfl
              cases hf
              exact ⟨rfl, fun file hfile => by cases hfile⟩
        · intro r hr out hout
          rw [mem_singleton.mp hr] at hout
          cases hout
          rw [mem_singleton.mp hr]
          rfl
      · rw [mem_singleton.mp hd]
        refine ⟨by decide, ?_, by decide, ?_, by decide, by decide⟩
        · intro id hid
          rw [mem_singleton.mp hid]
          refine ⟨by decide, fun f hf => ?_⟩
          cases hf
          exact ⟨rfl, fun file hfile => by cases hfile⟩
        · intro r hr out hout
          rw [mem_singleton.mp hr] at hout
          cases hout
          rw [mem_singleton.mp hr]
          rfl
    · refine List.Pairwise.cons (fun e he => ?_) (pairwise_singleton _ _)
      rw [mem_singleton.mp he]
      decide
  rcases reuse_index_follows_rows (fun _ => .error "no file") pairRows _ entry hhistory hrecorded
    with ⟨steps, hsteps, hresolve, -⟩
  exact ⟨entry, steps, hrecorded, hsteps, (hresolve _ (by decide)).trans (by decide),
    (hresolve _ (by decide)).trans (by decide)⟩

end ReuseMoves

end NanoLance
