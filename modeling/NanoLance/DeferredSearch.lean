import NanoLance.IndexSearch

/-!
# Searching After a Deferred Compaction

What a deferred compaction does to the rows a vector search or a full-text
search can return. The rows move to new fragments, the coverage of a segment
that held a whole group moves with them, and the files of the segment keep the
old addresses.

Those three do not fit together. A new fragment that is covered is not
scanned, and no file of a segment has an address in it, so none of its rows is
found. A new fragment that is not covered is scanned whole. So a row of a
rewritten group is found afterwards exactly when no segment the search uses
covers the group whole, and it has to be found before in the same case for the
search to be unchanged.

The proof goes through `Moves`, which says of the version before and the
version after what the groups between them mean, and is established from the
commit once.

## Theorems

* `Regroups.answersIn_kept`, `Regroups.answersIn_new`: What is found in a
  fragment left alone, and in a new one.
* `deferred_search_iff`: When a search returns the same rows.
* `compacted_rows_vanish`: A compaction after which it does not.
-/

namespace NanoLance

open List Lib

/-- The addresses of the rows a group wrote, in order. -/
def newAddresses (g : ReuseGroup) : List Nat :=
  g.newFragments.flatMap (fun f => (range f.2).map (rowAddress f.1))

/-- Where a row is after its group's surviving rows were written in order. -/
def movedBy (groups : List ReuseGroup) (address : Nat) : Nat :=
  match groups.find? (fun g => address ∈ g.changedRowAddrs) with
  | none => address
  | some g => Lib.transport g.changedRowAddrs (newAddresses g) address

/-- Where a row is after a compaction, whose new fragments take the ids after the last one used. -/
def moved (vectors : DeletionVectors) (original latest : Manifest) (c : Compaction)
    (address : Nat) : Nat :=
  match compactionGroups vectors original c.rewrites (nextFragmentId latest) with
  | .ok groups => movedBy groups address
  | .error _ => address

/-- The rewrites are of different fragments, and each wrote as many rows as its fragments had live
    ones, into plain fragments. -/
structure Executed (vectors : DeletionVectors) (original : Manifest) (c : Compaction) : Prop where
  distinct : c.rewritten.Nodup
  counted : ∀ r ∈ c.rewrites, ∀ out, oldDigests vectors original r.oldFragmentIds = .ok out →
    (r.newFragments.map (·.physicalRows)).sum = out.1.length
  plain : ∀ f ∈ c.created, f.deletionFile = none ∧ f.overlays = [] ∧ f.physicalRows ≤ 2 ^ 32

/-- The latest version as its writers leave it: 32-bit ids and offsets, known coverage ascending and
    unknown coverage empty, system indices on no field, and index files with addresses in fragments
    the dataset has or had. After concurrent commits the high-water mark is the last id used. -/
structure Searched (files : SearchFiles) (original latest : Manifest) (theirs : List Operation)
    (c : Compaction) : Prop where
  committed : theirs = [] → latest = original
  addressable : Addressable files latest
  rows : ∀ f ∈ latest.fragments, f.physicalRows ≤ 2 ^ 32
  ascending : ∀ i ∈ latest.indices, i.fragmentIds.Pairwise (· < ·)
  unknown : ∀ i ∈ latest.indices, i.hasFragmentBitmap = false → i.fragmentIds = []
  system : ∀ i ∈ latest.indices, isSystemIndex i = true → i.fields = []
  stored : ∀ uuid, ∀ a ∈ files.stored uuid, fragmentOf a < nextFragmentId latest
  mark : theirs ≠ [] → latest.maxFragmentId = some (nextFragmentId latest - 1) ∧
    0 < nextFragmentId latest
  room : nextFragmentId latest + c.created.length ≤ 2 ^ 32 - 1

/-- One of the segments the search uses covers the fragments of the rewrite, all of them. -/
def wholeCovered (files : SearchFiles) (kind : SearchKind) (m : Manifest) (r : CompactionRewrite) :
    Bool :=
  (segmentsOf files kind m.fields m.indices).any (fun s => coversWhole s.fragmentIds r.oldFragmentIds)

/-- The same fragment, but for files of nothing but tombstones. -/
def SameRows (f g : DataFragment) : Prop := g = f ∨ g = dropTombstoneFiles f

/-- The groups of a compaction of the latest version: they take up live rows of fragments it has,
    each fragment in one group, and put them in fragments with ids of their own. -/
structure Regroups (files : SearchFiles) (latest : Manifest) (groups : List ReuseGroup) :
    Prop where
  changed : ∀ g ∈ groups, ∀ a, a ∈ g.changedRowAddrs ↔ fragmentOf a ∈ g.oldIds ∧
    ∃ f ∈ latest.fragments, f.id = fragmentOf a ∧ liveRow files.vectors f (offsetOf a) = true
  distinct : ∀ g ∈ groups, g.changedRowAddrs.Nodup
  counted : ∀ g ∈ groups, g.changedRowAddrs.length = (newAddresses g).length
  present : ∀ g ∈ groups, ∀ id ∈ g.oldIds, ∃ f ∈ latest.fragments, f.id = id
  apart : (groups.flatMap (·.oldIds)).Nodup
  numbered : (groups.flatMap (·.newIds)).Nodup
  fresh : ∀ g ∈ groups, ∀ n ∈ g.newFragments,
    nextFragmentId latest ≤ n.1 ∧ n.1 < 2 ^ 32 - 1 ∧ n.2 ≤ 2 ^ 32

/-- The version after a deferred compaction: the fragments no group took up, and those the groups
    wrote. -/
structure Moves (files : SearchFiles) (latest after : Manifest) (groups : List ReuseGroup) : Prop
    extends Regroups files latest groups where
  kept : ∀ f ∈ latest.fragments, f.id ∉ groups.flatMap (·.oldIds) →
    ∃ g ∈ after.fragments, SameRows f g
  ids : (after.fragments.map (·.id)).Nodup
  written : ∀ g ∈ groups, ∀ n ∈ g.newFragments, ∃ f ∈ after.fragments, f.id = n.1
  only : ∀ f ∈ after.fragments,
    (∃ x ∈ latest.fragments, x.id ∉ groups.flatMap (·.oldIds) ∧ SameRows x f) ∨
    (∃ g ∈ groups, (f.id, f.physicalRows) ∈ g.newFragments ∧ f.deletionFile = none ∧
      f.overlays = [])

/-- What of a segment's coverage the search relies on. -/
structure Known (latest : Manifest) (s : IndexMetadata) : Prop where
  system : isSystemIndex s = false
  unknown : s.hasFragmentBitmap = false → s.fragmentIds = []
  below : ∀ id ∈ s.fragmentIds, id < nextFragmentId latest

theorem SameRows.id_eq (f g : DataFragment) (h : SameRows f g) : g.id = f.id := by
  rcases h with rfl | rfl <;> rfl

theorem SameRows.rows_eq (f g : DataFragment) (h : SameRows f g) :
    g.physicalRows = f.physicalRows := by
  rcases h with rfl | rfl <;> rfl

variable (files : SearchFiles) (kind : SearchKind) (segments : List IndexMetadata)

theorem SameRows.answersIn_eq (f g : DataFragment) (h : SameRows f g) (a : Nat) :
    answersIn files kind segments g a = answersIn files kind segments f a := by
  rcases h with rfl | rfl <;> rfl

variable (g : ReuseGroup)

/-- The rows of a group's new fragments, by the parts of their addresses. -/
theorem mem_newAddresses (hsmall : ∀ n ∈ g.newFragments, n.2 ≤ 2 ^ 32) (a : Nat) :
    a ∈ newAddresses g ↔ ∃ n ∈ g.newFragments, fragmentOf a = n.1 ∧ offsetOf a < n.2 := by
  unfold newAddresses
  simp only [mem_flatMap, mem_map, mem_range]
  refine exists_congr (fun n => and_congr_right (fun hn => ?_))
  grind [fragmentOf_rowAddress, offsetOf_rowAddress, rowAddress_eta]

theorem length_newAddresses :
    (newAddresses g).length = (g.newFragments.map Prod.snd).sum := by simp [newAddresses]

theorem newAddresses_nodup (hsmall : ∀ n ∈ g.newFragments, n.2 ≤ 2 ^ 32) (hids : g.newIds.Nodup) :
    (newAddresses g).Nodup := by
  unfold newAddresses
  rw [nodup_flatMap]
  refine ⟨fun n _ => nodup_range.map (rowAddress_injective n.1), ?_⟩
  have hpairs : g.newFragments.Pairwise (fun n k => n.1 ≠ k.1) := pairwise_map.mp hids
  refine hpairs.imp_of_mem (fun {n k} hn hk hne => ?_)
  -- A common address would have both fragments' ids.
  intro a ha hb
  grind [fragmentOf_rowAddress]

variable {indices : List IndexMetadata} {c : Compaction} {groups : List ReuseGroup}
  {latest original : Manifest} {theirs : List Operation}

/-- A segment the search uses is one of the version's, and is on a field. -/
theorem mem_segmentsOf {files : SearchFiles} {kind : SearchKind} {fields : List Field}
    {s : IndexMetadata} (hs : s ∈ segmentsOf files kind fields indices) :
    s ∈ indices ∧ s.fields ≠ [] := by
  have hpick : ∀ (l : List IndexMetadata) (name : String), s ∈ pickNamed name l → s ∈ l := by
    intro l
    induction l with
    | nil => exact fun _ h => h
    | cons i rest ih => grind [pickNamed]
  have hsame : ∀ l : List IndexMetadata, s ∈ sameName l → s ∈ l := by
    intro l h
    cases l with
    | nil => exact h
    | cons i rest =>
      rcases mem_cons.mp h with rfl | hin
      · exact .head _
      · exact .tail _ (mem_of_mem_filter hin)
  cases kind with
  | nearest column =>
    rcases mem_filter.mp (hpick _ _ hs) with ⟨hmem, hon⟩
    grind [isVectorOn]
  | fullText column element =>
    rcases mem_filter.mp (hsame _ hs) with ⟨hmem, hon⟩
    grind [isInvertedOn]

section

variable (change : IndexMetadata → IndexMetadata) (hname : ∀ i, (change i).name = i.name)
  (l : List IndexMetadata)

include hname

theorem pickNamed_map (name : String) :
    pickNamed name (l.map change) = (pickNamed name l).map change := by
  induction l generalizing name with
  | nil => rfl
  | cons i rest ih =>
    simp only [map_cons, pickNamed, hname]
    grind

theorem sameName_map :
    sameName (l.map change) = (sameName l).map change := by
  cases l with
  | nil => rfl
  | cons i rest =>
    simp only [map_cons, sameName, hname, filter_map, Function.comp_def]

end

/-- The search uses the same segments afterwards, their coverage moved: the fragment reuse index is
    on no field, whichever version it is of. -/
theorem segmentsOf_compacted (fields : List Field) {entry : IndexMetadata}
    (groups : List (List Nat × List Nat))
    (hsystem : ∀ i ∈ indices, isSystemIndex i = true → i.fields = []) (hentry : entry.fields = []) :
    segmentsOf files kind fields
      ((indices.map (remapIndex groups)).filter (fun i => i.name ≠ fragReuseIndex) ++ [entry]) =
    (segmentsOf files kind fields indices).map (remapIndex groups) := by
  have hname : ∀ i, (remapIndex groups i).name = i.name := by
    intro i
    rcases remapIndex_keeps groups i with ⟨ids, changed, heq⟩
    rw [heq]
  have hpick : ∀ p : IndexMetadata → Bool, (∀ i ids changed,
      p { i with fragmentIds := ids, fragmentBitmapChanged := changed } = p i) →
      (∀ i, i.fields = [] → p i = false) →
      ((indices.map (remapIndex groups)).filter (fun i => i.name ≠ fragReuseIndex) ++
        [entry]).filter p = (indices.filter p).map (remapIndex groups) := by
    intro p hp hnil
    have hmap : ∀ i, p (remapIndex groups i) = p i := by
      intro i
      rcases remapIndex_keeps groups i with ⟨ids, changed, heq⟩
      rw [heq, hp]
    rw [filter_append, filter_cons_of_neg (by rw [hnil entry hentry]; decide),
      filter_nil, append_nil, filter_filter, filter_map]
    congr 1
    refine filter_congr (fun i hi => ?_)
    simp only [Function.comp_apply, hmap, hname]
    by_cases hreuse : i.name = fragReuseIndex
    · have hfields := hsystem i hi (by rw [isSystemIndex, decide_eq_true hreuse, Bool.true_or])
      rw [hnil i hfields, Bool.false_and]
    · rw [decide_eq_true hreuse, Bool.and_true]
  cases kind with
  | nearest column =>
    simp only [segmentsOf]
    rw [hpick (isVectorOn column) (fun i ids changed => rfl), pickNamed_map _ hname]
    grind [isVectorOn]
  | fullText column element =>
    simp only [segmentsOf]
    rw [hpick (isInvertedOn files fields column element) (fun i ids changed => rfl),
      sameName_map _ hname]
    intro i hnil
    rw [isInvertedOn, hnil]

/-- A fragment is scanned or not by the coverage of that fragment alone. -/
theorem coveredIn_map {f : DataFragment} {change : IndexMetadata → IndexMetadata}
    {segments : List IndexMetadata} (hfields : ∀ s, (change s).fields = s.fields)
    (hversion : ∀ s, (change s).datasetVersion = s.datasetVersion)
    (hids : ∀ s ∈ segments, (f.id ∈ (change s).fragmentIds ↔ f.id ∈ s.fragmentIds)) :
    coveredIn kind (segments.map change) f = coveredIn kind segments f := by
  have hmem : ∀ s ∈ segments, decide (f.id ∈ (change s).fragmentIds) =
      decide (f.id ∈ s.fragmentIds) := fun s hs => decide_eq_decide.mpr (hids s hs)
  cases kind with
  | nearest column =>
    simp only [coveredIn, any_map]
    grind
  | fullText column element =>
    simp only [coveredIn, foldl_map]
    generalize false = start
    clear hids
    induction segments generalizing start with
    | nil => rfl
    | cons s rest ih => grind

/-- A fragment without overlays is scanned when no segment covers it. -/
theorem coveredIn_plain (f : DataFragment) (h : f.overlays = []) :
    coveredIn kind segments f = segments.any (fun s => f.id ∈ s.fragmentIds) := by
  have hstale : ∀ fields version, fragmentStale fields version f = false := by
    simp [fragmentStale, h]
  cases kind with
  | nearest column => simp only [coveredIn, hstale, Bool.not_false, Bool.and_true]
  | fullText column element =>
    simp only [coveredIn, hstale, Bool.not_false, Bool.and_true]
    have hfold : ∀ (l : List IndexMetadata) (start : Bool),
        l.foldl (fun covered s => covered || decide (f.id ∈ s.fragmentIds)) start =
          (start || l.any (fun s => f.id ∈ s.fragmentIds)) := by
      intro l
      induction l with
      | nil => exact fun start => (Bool.or_false start).symm
      | cons s rest ih => simp [ih]
    rw [hfold, Bool.false_or]

/-- A row of no group stays. -/
theorem movedBy_of_not_mem {a : Nat} (h : ∀ g ∈ groups, a ∉ g.changedRowAddrs) :
    movedBy groups a = a := by
  unfold movedBy
  rw [find?_eq_none.mpr (fun g hg => by simpa using h g hg)]

section Regroups

variable {files : SearchFiles} (h : Regroups files latest groups)

include h

section Group

variable {g : ReuseGroup} (hg : g ∈ groups)

include hg

theorem Regroups.old_lt (id : Nat) (hid : id ∈ g.oldIds) : id < nextFragmentId latest := by
  rcases h.present g hg id hid with ⟨f, hf, rfl⟩
  exact lt_nextFragmentId hf

/-- Two groups that share an old fragment are one. -/
theorem Regroups.eq_of_old {k : ReuseGroup} (hk : k ∈ groups) (id : Nat) (hgid : id ∈ g.oldIds)
    (hkid : id ∈ k.oldIds) : g = k :=
  eq_of_nodup_flatMap h.apart hg hk hgid hkid

/-- Two groups that share a new fragment are one. -/
theorem Regroups.eq_of_new {k : ReuseGroup} (hk : k ∈ groups) (id : Nat) (hgid : id ∈ g.newIds)
    (hkid : id ∈ k.newIds) : g = k :=
  eq_of_nodup_flatMap h.numbered hg hk hgid hkid

theorem Regroups.mem_new (a : Nat) :
    a ∈ newAddresses g ↔ ∃ n ∈ g.newFragments, fragmentOf a = n.1 ∧ offsetOf a < n.2 :=
  mem_newAddresses g (fun n hn => (h.fresh g hg n hn).2.2) a

theorem Regroups.newIds_of_mem (a : Nat) (ha : a ∈ newAddresses g) : fragmentOf a ∈ g.newIds := by
  rcases (h.mem_new hg a).mp ha with ⟨n, hn, hfrag, -⟩
  exact hfrag ▸ mem_map_of_mem hn

/-- A row of a group goes where its place in the group says. -/
theorem Regroups.movedBy_eq (a : Nat) (ha : a ∈ g.changedRowAddrs) :
    movedBy groups a = Lib.transport g.changedRowAddrs (newAddresses g) a := by
  unfold movedBy
  cases hfind : groups.find? (fun g => decide (a ∈ g.changedRowAddrs)) with
  | none => grind
  | some k =>
    have hk := mem_of_find?_eq_some hfind
    have hak : a ∈ k.changedRowAddrs := by simpa using find?_some hfind
    have heq := h.eq_of_old hk hg (fragmentOf a) ((h.changed k hk a).mp hak).1
      ((h.changed g hg a).mp ha).1
    rw [heq]

/-- A row of a group goes to one of its new fragments. -/
theorem Regroups.movedBy_mem (a : Nat) (ha : a ∈ g.changedRowAddrs) :
    movedBy groups a ∈ newAddresses g := by
  rw [h.movedBy_eq hg a ha]
  exact transport_mem _ _ (h.counted g hg) a ha

theorem Regroups.movedBy_surj (b : Nat) (hb : b ∈ newAddresses g) :
    ∃ a ∈ g.changedRowAddrs, movedBy groups a = b := by
  rcases transport_surj _ _ (h.counted g hg) (h.distinct g hg) b hb with ⟨a, ha, heq⟩
  exact ⟨a, ha, (h.movedBy_eq hg a ha).trans heq⟩

/-- A row of a group goes where no other row of the version before goes. -/
theorem Regroups.movedBy_inj (a b : Nat) (ha : a ∈ g.changedRowAddrs)
    (hb : fragmentOf b < nextFragmentId latest) (heq : movedBy groups a = movedBy groups b) :
    a = b := by
  have hin := h.movedBy_mem hg a ha
  by_cases hmoves : ∃ k ∈ groups, b ∈ k.changedRowAddrs
  · rcases hmoves with ⟨k, hk, hbk⟩
    -- Both rows land in a fragment both groups wrote, so the groups are one.
    have hgk := h.eq_of_new hg hk _ (h.newIds_of_mem hg _ hin)
      (heq ▸ h.newIds_of_mem hk _ (h.movedBy_mem hk b hbk))
    subst hgk
    rw [h.movedBy_eq hg a ha, h.movedBy_eq hg b hbk] at heq
    have hnodup := newAddresses_nodup g (fun n hn => (h.fresh g hg n hn).2.2)
      ((nodup_flatMap.mp h.numbered).1 g hg)
    exact transport_inj _ _ (h.counted g hg) hnodup ha hbk heq
  · rw [movedBy_of_not_mem (fun k hk hbk => hmoves ⟨k, hk, hbk⟩)] at heq
    rcases (h.mem_new hg _).mp hin with ⟨n, hn, hfrag, -⟩
    have := (h.fresh g hg n hn).1
    rw [heq] at hfrag
    omega

end Group

/-- Fragment ids have 32 bits, so coverage sees the groups as they are. -/
theorem Regroups.coverageGroups_eq
    (hsmall : ∀ f ∈ latest.fragments, f.id < 2 ^ 32 - 1) :
    coverageGroups groups = groups.map (fun g => (g.oldIds, g.newIds)) := by
  refine coverageGroups_small (fun g hg id hid => ?_) (fun g hg id hid => ?_)
  · rcases h.present g hg id hid with ⟨f, hf, rfl⟩
    have := hsmall f hf
    omega
  · rcases mem_map.mp hid with ⟨n, hn, rfl⟩
    have := (h.fresh g hg n hn).2.1
    omega

theorem Regroups.groupsApart :
    GroupsApart (groups.map (fun g => (g.oldIds, g.newIds))) := by
  have hold := (nodup_flatMap.mp h.apart).2
  have hnew := (nodup_flatMap.mp h.numbered).2
  refine ⟨pairwise_map.mpr (hold.imp fun hd id hid hk => hd hid hk),
    pairwise_map.mpr (hnew.imp fun hd id hid hk => hd hid hk), ?_⟩
  intro a ha b hb id hid hold'
  rcases mem_map.mp ha with ⟨g, hg, rfl⟩
  rcases mem_map.mp hb with ⟨k, hk, rfl⟩
  rcases mem_map.mp hid with ⟨n, hn, rfl⟩
  have hlow := (h.fresh g hg n hn).1
  have hhigh := h.old_lt hk n.1 hold'
  omega

variable (kind : SearchKind) (hsmall : ∀ f ∈ latest.fragments, f.id < 2 ^ 32 - 1)
  (segments : List IndexMetadata) (hknown : ∀ s ∈ segments, Known latest s)

include hsmall hknown

/-- In a fragment left alone a search finds what it found. -/
theorem Regroups.answersIn_kept (f : DataFragment) (hf : f ∈ latest.fragments)
    (hkept : f.id ∉ groups.flatMap (·.oldIds)) (a : Nat) :
    answersIn files kind (segments.map (remapIndex (coverageGroups groups))) f a =
      answersIn files kind segments f a := by
  have hids : ∀ s ∈ segments, (f.id ∈ (remapIndex (coverageGroups groups) s).fragmentIds ↔
      f.id ∈ s.fragmentIds) := by
    intro s hs
    rw [remapIndex_ids _ (hknown s hs).system (hknown s hs).unknown, h.coverageGroups_eq hsmall]
    refine mem_remapCoverage_keep f.id _ s.fragmentIds (fun g hg => ?_)
    rcases mem_map.mp hg with ⟨k, hk, rfl⟩
    refine ⟨fun hold => hkept (mem_flatMap.mpr ⟨k, hk, hold⟩), fun hnew => ?_⟩
    rcases mem_map.mp hnew with ⟨n, hn, hid⟩
    have hlow := (h.fresh k hk n hn).1
    have hhigh := lt_nextFragmentId hf
    omega
  have hkeeps : ∀ s, (remapIndex (coverageGroups groups) s).uuid = s.uuid ∧
      (remapIndex (coverageGroups groups) s).fields = s.fields ∧
      (remapIndex (coverageGroups groups) s).datasetVersion = s.datasetVersion := by
    intro s
    rcases remapIndex_keeps (coverageGroups groups) s with ⟨ids, changed, heq⟩
    rw [heq]
    exact ⟨rfl, rfl, rfl⟩
  have hreaches : ∀ s ∈ segments, reaches kind f (remapIndex (coverageGroups groups) s) =
      reaches kind f s := by
    intro s hs
    cases kind with
    | nearest column =>
      simp only [reaches, (hkeeps s).2.1, (hkeeps s).2.2, decide_eq_decide.mpr (hids s hs)]
    | fullText column element => rfl
  have hany : (segments.map (remapIndex (coverageGroups groups))).any
      (fun s => decide (a ∈ files.stored s.uuid) && reaches kind f s) =
      segments.any (fun s => decide (a ∈ files.stored s.uuid) && reaches kind f s) := by grind
  rw [answersIn, answersIn, hany,
    coveredIn_map kind (fun s => (hkeeps s).2.1) (fun s => (hkeeps s).2.2) hids]

/-- In a new fragment a search finds every row, or none when a segment covered the group whole: no
    index file has an address there. -/
theorem Regroups.answersIn_new
    (hstored : ∀ uuid, ∀ a ∈ files.stored uuid, fragmentOf a < nextFragmentId latest)
    {g : ReuseGroup} (hg : g ∈ groups) (f : DataFragment)
    (hf : (f.id, f.physicalRows) ∈ g.newFragments) (hdel : f.deletionFile = none)
    (hover : f.overlays = []) (a : Nat) (ha : f.id = fragmentOf a) :
    answersIn files kind (segments.map (remapIndex (coverageGroups groups))) f a = true ↔
      offsetOf a < f.physicalRows ∧
        segments.any (fun s => coversWhole s.fragmentIds g.oldIds) = false := by
  have hlow := (h.fresh g hg _ hf).1
  have hids : ∀ s ∈ segments, (f.id ∈ (remapIndex (coverageGroups groups) s).fragmentIds ↔
      coversWhole s.fragmentIds g.oldIds = true) := by
    intro s hs
    rw [remapIndex_ids _ (hknown s hs).system (hknown s hs).unknown, h.coverageGroups_eq hsmall]
    refine mem_remapCoverage_new h.groupsApart
      (mem_map.mpr ⟨g, hg, rfl⟩) (mem_map_of_mem hf) (fun hin => ?_)
    have := (hknown s hs).below f.id hin
    omega
  have hnone : (segments.map (remapIndex (coverageGroups groups))).any
      (fun s => decide (a ∈ files.stored s.uuid) && reaches kind f s) = false := by grind
  have hcovered : coveredIn kind (segments.map (remapIndex (coverageGroups groups))) f =
      segments.any (fun s => coversWhole s.fragmentIds g.oldIds) := by
    rw [coveredIn_plain kind _ f hover, any_map, Bool.eq_iff_iff, any_eq_true, any_eq_true]
    grind
  simp [answersIn, liveRow_of_no_deletions, hnone, hcovered, hdel]

end Regroups

/-- The version after is one whose addresses can be searched. -/
theorem Moves.addressable {files : SearchFiles} {after : Manifest} (h : Moves files latest after groups)
    (hbefore : Addressable files latest)
    (hstored : ∀ uuid, ∀ a ∈ files.stored uuid, fragmentOf a < nextFragmentId latest) :
    Addressable files after := by
  refine ⟨h.ids, fun f hf => ?_, fun uuid a ha f hf hid => ?_⟩
  · rcases h.only f hf with ⟨x, hx, -, hsame⟩ | ⟨g, hg, hnew, -, -⟩
    · rw [hsame.id_eq]
      exact hbefore.small x hx
    · exact (h.fresh g hg _ hnew).2.1
  · rcases h.only f hf with ⟨x, hx, -, hsame⟩ | ⟨g, hg, hnew, -, -⟩
    · rw [hsame.rows_eq]
      exact hbefore.inside uuid a ha x hx (hsame.id_eq ▸ hid)
    · have hlow := (h.fresh g hg _ hnew).1
      have hhigh := hstored uuid a ha
      omega

/-- The groups a deferred compaction commits, as the search sees them. -/
structure Commits (files : SearchFiles) (kind : SearchKind) (original latest after : Manifest)
    (c : Compaction) (groups : List ReuseGroup) : Prop where
  groups_eq : compactionGroups files.vectors original c.rewrites (nextFragmentId latest) = .ok groups
  old : List.Forall₂ (fun r g => r.oldFragmentIds = g.oldIds) c.rewrites groups
  moves : Moves files latest after groups
  segments : segmentsOf files kind after.fields after.indices =
    (segmentsOf files kind latest.fields latest.indices).map (remapIndex (coverageGroups groups))

/-- The groups of a compaction whose fragments are as they were planned. -/
theorem regroups_of_planned {files : SearchFiles} (hready : Searched files original latest theirs c)
    (hexec : Executed files.vectors original c)
    (hsame : ∀ id ∈ c.rewritten, latest.fragment? id ≠ none ∧
      latest.fragment? id = original.fragment? id)
    (hgroups : compactionGroups files.vectors original c.rewrites (nextFragmentId latest) =
      .ok groups) :
    List.Forall₂ (fun r g => r.oldFragmentIds = g.oldIds) c.rewrites groups ∧
      Regroups files latest groups := by
  rcases compactionGroups_ok _ _ _ _ hgroups with ⟨hnew, hpairs⟩
  have hdigests : ∀ r ∈ c.rewrites, ∀ out, oldDigests files.vectors original r.oldFragmentIds =
      .ok out → _ := fun r hr out hout =>
    oldDigests_ok files.vectors (fun id hid f hf => by
      rw [← (hsame id (mem_flatMap.mpr ⟨r, hr, hid⟩)).2] at hf
      exact hready.rows f ((fragment_iff hready.addressable.distinct id f).mp hf).1) hout
  have hold : List.Forall₂ (fun r g => r.oldFragmentIds = g.oldIds) c.rewrites groups :=
    hpairs.imp (fun r g hrg => (oldDigests_ids _ hrg.1).symm)
  rcases compactionGroups_ids _ hgroups with ⟨hrewritten, hids⟩
  have hpartner := (forall₂_partner hpairs).2
  refine ⟨hold, ?_, ?_, ?_, ?_, hrewritten.symm ▸ hexec.distinct, hids ▸ nodup_range', ?_⟩
  · -- The surviving rows are live rows of the version before.
    intro g hg a
    rcases hpartner g hg with ⟨r, hr, hdig, -⟩
    rw [(hdigests r hr _ hdig).1 a, ReuseGroup.oldIds, oldDigests_ids _ hdig]
    refine and_congr_right (fun hin => ?_)
    rw [← (hsame _ (mem_flatMap.mpr ⟨r, hr, hin⟩)).2]
    simp only [fragment_iff hready.addressable.distinct, and_assoc]
  · intro g hg
    rcases hpartner g hg with ⟨r, hr, hdig, -⟩
    exact (hdigests r hr _ hdig).2 ((nodup_flatMap.mp hexec.distinct).1 r hr)
  · intro g hg
    rcases hpartner g hg with ⟨r, hr, hdig, hcount⟩
    rw [length_newAddresses, hcount, hexec.counted r hr _ hdig]
  · intro g hg id hid
    have hin : id ∈ c.rewrites.flatMap (·.oldFragmentIds) :=
      hrewritten ▸ mem_flatMap.mpr ⟨g, hg, hid⟩
    rcases Option.ne_none_iff_exists'.mp (hsame id hin).1 with ⟨f, hf⟩
    exact ⟨f, (fragment_iff hready.addressable.distinct id f).mp hf⟩
  · intro g hg n hn
    have hin : n ∈ groups.flatMap (·.newFragments) := mem_flatMap.mpr ⟨g, hg, hn⟩
    rw [hnew] at hin
    rcases mem_map.mp hin with ⟨f, hf, rfl⟩
    rcases mem_numberFrom _ _ f hf with ⟨⟨x, hx, heq⟩, hbounds⟩
    have hroom := hready.room
    have hlen : (c.rewrites.flatMap (·.newFragments)).length = c.created.length := rfl
    refine ⟨hbounds.1, by simp only; omega, ?_⟩
    show f.physicalRows ≤ 2 ^ 32
    rw [heq]
    exact (hexec.plain x hx).2.2

/-- The fragments of the version after, from those of the reserving one. -/
theorem Regroups.moves {files : SearchFiles} (h : Regroups files latest groups)
    (reserved after : Manifest) (c : Compaction) (hres : Reserves latest reserved c.created.length)
    (hdistinct : (latest.fragments.map (·.id)).Nodup)
    (hplain : ∀ f ∈ c.created, f.deletionFile = none ∧ f.overlays = [])
    (hnew : groups.flatMap (·.newFragments) =
      (numberFrom c.created (nextFragmentId latest)).map (fun f => (f.id, f.physicalRows)))
    (hold : groups.flatMap (·.oldIds) = c.rewritten)
    (hafter : after.fragments = sortFragments
      (reserved.fragments.filter (fun f => f.id ∉ c.rewritten) ++
        numberFrom c.created (nextFragmentId latest))) :
    Moves files latest after groups := by
  rcases hres.rows with ⟨tidy, htidy, hrows⟩
  have hsame : ∀ x, SameRows x (tidy x) := by
    rcases htidy with rfl | rfl
    · exact fun _ => .inl rfl
    · exact fun _ => .inr rfl
  have hmem : ∀ f, f ∈ after.fragments ↔ (∃ x ∈ latest.fragments, x.id ∉ c.rewritten ∧ f = tidy x) ∨
      f ∈ numberFrom c.created (nextFragmentId latest) := by
    intro f
    rw [hafter, mem_sortFragments, mem_append, mem_filter, decide_eq_true_eq, hrows]
    refine or_congr_left ⟨?_, ?_⟩
    · rintro ⟨⟨x, hx, rfl⟩, hnot⟩
      exact ⟨x, hx, (hsame x).id_eq ▸ hnot, rfl⟩
    · rintro ⟨x, hx, hnot, rfl⟩
      exact ⟨⟨x, hx, rfl⟩, (hsame x).id_eq.symm ▸ hnot⟩
  refine ⟨h, ?_, ?_, ?_, ?_⟩
  · intro f hf hnot
    exact ⟨tidy f, (hmem _).mpr (.inl ⟨f, hf, hold ▸ hnot, rfl⟩), hsame f⟩
  · rw [hafter, ((sortFragments_perm _).map _).nodup_iff]
    refine nodup_numbered _
      ((hres.ids.nodup_iff.mpr hdistinct).sublist (filter_sublist.map _)) (fun f hf => ?_)
    -- Old ids are below the new ones.
    rcases (hrows f).mp (mem_of_mem_filter hf) with ⟨z, hz, rfl⟩
    exact (hsame z).id_eq ▸ lt_nextFragmentId hz
  · intro g hg n hn
    have hin : n ∈ groups.flatMap (·.newFragments) := mem_flatMap.mpr ⟨g, hg, hn⟩
    grind
  · intro f hf
    rcases (hmem f).mp hf with ⟨x, hx, hnot, rfl⟩ | hcreated
    · exact .inl ⟨x, hx, hold ▸ hnot, hsame x⟩
    · have hin : (f.id, f.physicalRows) ∈ groups.flatMap (·.newFragments) := by grind
      rcases mem_flatMap.mp hin with ⟨g, hg, hpart⟩
      rcases (mem_numberFrom _ _ f hcreated).1 with ⟨x, hx, heq⟩
      grind

/-- A deferred compaction that commits moves the rows of its groups. -/
theorem deferred_moves {files : SearchFiles} {after : Manifest}
    (hready : Searched files original latest theirs c) (hexec : Executed files.vectors original c)
    (hwork : c.rewrites.all (fun r => r.oldFragmentIds.isEmpty) = false)
    (hcommit : compactCommit files.vectors true original latest theirs c = .ok after) :
    ∃ groups, Commits files kind original latest after c groups := by
  rcases compactCommit_ok hwork hcommit with ⟨hsame, reserved, hreserve, hmade⟩
  have hres := reserveIds_ok hready.committed hready.mark hready.room hreserve
  simp only [compactionManifest, compactionIndices, if_true, bind_eq_ok, pure_eq_ok] at hmade
  rcases hmade with ⟨_, -, indices, ⟨groups, hgroups, entry, hentry, rfl⟩, rfl⟩
  -- The ids start after the last one used, unless there are none to start.
  have hstart : compactionGroups files.vectors original c.rewrites
        (firstNewId reserved c.created.length) =
      compactionGroups files.vectors original c.rewrites (nextFragmentId latest) ∧
      numberFrom c.created (firstNewId reserved c.created.length) =
        numberFrom c.created (nextFragmentId latest) := by
    by_cases hcount : 0 < c.created.length
    · rw [hres.first hcount]
      exact ⟨rfl, rfl⟩
    · have hnil : c.created = [] := length_eq_zero_iff.mp (by omega)
      refine ⟨compactionGroups_next _ _ _ (flatMap_eq_nil_iff.mp hnil) _ _, ?_⟩
      rw [hnil, numberFrom, numberFrom]
  rw [hstart.1] at hgroups
  rcases regroups_of_planned hready hexec hsame hgroups with ⟨hold, hregroups⟩
  refine ⟨groups, hgroups, hold, hregroups.moves reserved _ c hres hready.addressable.distinct
    (fun f hf => ⟨(hexec.plain f hf).1, (hexec.plain f hf).2.1⟩)
    (compactionGroups_ok _ _ _ _ hgroups).1 (flatMap_eq_of_forall₂ hold) ?_, ?_⟩
  · show sortFragments _ = _
    rw [hstart.2]
  · have hfields : entry.fields = [] := by
      grind [fragmentReuseIndexEntry, bind_eq_ok, pure_eq_ok]
    show segmentsOf files kind reserved.fields _ = _
    rw [hres.fields, hres.indices]
    exact segmentsOf_compacted files kind latest.fields _ hready.system hfields

/-- The coverage of the segments a search uses. -/
theorem Searched.known {files : SearchFiles} (h : Searched files original latest theirs c)
    (s : IndexMetadata) (hs : s ∈ segmentsOf files kind latest.fields latest.indices) :
    Known latest s := by
  rcases mem_segmentsOf hs with ⟨hmem, hfields⟩
  refine ⟨?_, h.unknown s hmem, fun id hid =>
    covered_lt_nextFragmentId hmem (h.ascending s hmem) hid⟩
  by_contra hsystem
  exact hfields (h.system s hmem (Bool.eq_true_of_not_eq_false hsystem))

/-- Without fragments to rewrite no row moves. -/
theorem moved_of_no_work (vectors : DeletionVectors) (original latest : Manifest) (c : Compaction)
    (hwork : c.rewrites.all (fun r => r.oldFragmentIds.isEmpty) = true) (a : Nat) :
    moved vectors original latest c a = a := by
  unfold moved
  cases hgroups : compactionGroups vectors original c.rewrites (nextFragmentId latest) with
  | error e => rfl
  | ok groups =>
    refine movedBy_of_not_mem (fun g hg => ?_)
    rcases (forall₂_partner (compactionGroups_ok _ _ _ _ hgroups).2).2 g hg with ⟨r, hr, hdig, -⟩
    rw [isEmpty_iff.mp (all_eq_true.mp hwork r hr), oldDigests, Except.ok.injEq,
      Prod.mk.injEq] at hdig
    rw [← hdig.1]
    exact not_mem_nil

section Commits

variable {files : SearchFiles} {kind : SearchKind} {after : Manifest}
  (h : Commits files kind original latest after c groups)
  (hready : Searched files original latest theirs c)

include h hready

/-- A row of a fragment left alone is found when it was. -/
theorem Commits.answers_kept (f : DataFragment)
    (hf : f ∈ latest.fragments) (hkept : f.id ∉ groups.flatMap (·.oldIds)) (a : Nat)
    (ha : f.id = fragmentOf a) : answers files kind after a = answers files kind latest a := by
  have hafter := h.moves.addressable hready.addressable hready.stored
  have hsmall := hready.addressable.small
  rcases h.moves.kept f hf hkept with ⟨g, hg, hsame⟩
  have heq := h.moves.answersIn_kept kind hsmall _
    (hready.known kind) f hf hkept a
  rw [← h.segments] at heq
  rw [Bool.eq_iff_iff, answers_iff _ hafter, answers_iff _ hready.addressable]
  constructor
  · rintro ⟨x, hx, hxa, hans⟩
    have hxg := hafter.eq_of_id hx hg (by rw [hsame.id_eq, ha, hxa])
    rw [hxg, hsame.answersIn_eq, heq] at hans
    exact ⟨f, hf, ha, hans⟩
  · rintro ⟨x, hx, hxa, hans⟩
    rw [hready.addressable.eq_of_id hx hf (hxa.trans ha.symm)] at hans
    refine ⟨g, hg, by rw [hsame.id_eq, ha], ?_⟩
    rw [hsame.answersIn_eq, heq]
    exact hans

/-- A row of a group is found in its new place unless a segment covered the group whole. -/
theorem Commits.answers_new {g : ReuseGroup} (hg : g ∈ groups) (b : Nat) (hb : b ∈ newAddresses g) :
    answers files kind after b = true ↔ (segmentsOf files kind latest.fields latest.indices).any
      (fun s => coversWhole s.fragmentIds g.oldIds) = false := by
  have hafter := h.moves.addressable hready.addressable hready.stored
  rcases (h.moves.mem_new hg b).mp hb with ⟨n, hn, hfrag, hoffset⟩
  rcases h.moves.written g hg n hn with ⟨f, hf, hid⟩
  have hfb : f.id = fragmentOf b := hid.trans hfrag.symm
  -- The fragment is one a group wrote, and so one this group wrote.
  have hnew : (f.id, f.physicalRows) ∈ g.newFragments ∧ f.physicalRows = n.2 ∧
      f.deletionFile = none ∧ f.overlays = [] := by
    rcases h.moves.only f hf with ⟨x, hx, -, hsame⟩ | ⟨k, hk, hmem, hdel, hover⟩
    · have hlow := (h.moves.fresh g hg n hn).1
      have hhigh := lt_nextFragmentId hx
      rw [← hid, hsame.id_eq] at hlow
      omega
    · have hgk := h.moves.eq_of_new hk hg f.id (mem_map_of_mem hmem) (hid ▸ mem_map_of_mem hn)
      subst hgk
      have hnodup := (nodup_flatMap.mp h.moves.numbered).1 k hk
      have heq := inj_on_of_nodup_map hnodup hmem hn hid
      exact ⟨hmem, congrArg Prod.snd heq, hdel, hover⟩
  rcases hnew with ⟨hmem, hrows, hdel, hover⟩
  have hiff := h.moves.answersIn_new kind hready.addressable.small _
    (hready.known kind) hready.stored hg f hmem hdel hover b hfb
  rw [← h.segments] at hiff
  rw [answers_iff _ hafter]
  constructor
  · rintro ⟨x, hx, hxb, hans⟩
    rw [hafter.eq_of_id hx hf (hxb.trans hfb.symm)] at hans
    exact (hiff.mp hans).2
  · exact fun hwhole => ⟨f, hf, hfb, hiff.mpr ⟨by omega, hwhole⟩⟩

/-- A row found afterwards is in a fragment left alone or where a row of a group went. -/
theorem Commits.answers_only (b : Nat)
    (hb : answers files kind after b = true) :
    (∃ f ∈ latest.fragments, f.id ∉ groups.flatMap (·.oldIds) ∧ f.id = fragmentOf b) ∨
      ∃ g ∈ groups, b ∈ newAddresses g := by
  have hafter := h.moves.addressable hready.addressable hready.stored
  rcases (answers_iff kind hafter b).mp hb with ⟨f, hf, hfb, hans⟩
  rcases h.moves.only f hf with ⟨x, hx, hnot, hsame⟩ | ⟨g, hg, hmem, -, -⟩
  · exact .inl ⟨x, hx, hnot, by rw [← hsame.id_eq, hfb]⟩
  · rw [answersIn, Bool.and_eq_true] at hans
    exact .inr ⟨g, hg, (h.moves.mem_new hg b).mpr ⟨_, hmem, hfb.symm, liveRow_lt _ _ _ hans.1⟩⟩

/-- A row found before is live, and moves with the group that took its fragment up. -/
theorem Commits.answers_before (a : Nat)
    (ha : answers files kind latest a = true) :
    ∃ f ∈ latest.fragments, f.id = fragmentOf a ∧
      ∀ g ∈ groups, fragmentOf a ∈ g.oldIds → a ∈ g.changedRowAddrs := by
  rcases (answers_iff kind hready.addressable a).mp ha with ⟨f, hf, hfa, hans⟩
  rw [answersIn, Bool.and_eq_true] at hans
  exact ⟨f, hf, hfa, fun g hg hold => (h.moves.changed g hg a).mpr ⟨hold, f, hf, hfa, hans.1⟩⟩

/-- The condition on the rewrites, read on the groups. -/
theorem Commits.condition_iff :
    (∀ r ∈ c.rewrites, ∀ f ∈ latest.fragments, f.id ∈ r.oldFragmentIds → ∀ offset,
      liveRow files.vectors f offset = true →
      (answers files kind latest (rowAddress f.id offset) = true ↔
        wholeCovered files kind latest r = false)) ↔
    ∀ g ∈ groups, ∀ a ∈ g.changedRowAddrs, (answers files kind latest a = true ↔
      (segmentsOf files kind latest.fields latest.indices).any
        (fun s => coversWhole s.fragmentIds g.oldIds) = false) := by
  rcases forall₂_partner h.old with ⟨hleft, hright⟩
  constructor
  · intro hcond g hg a ha
    rcases hright g hg with ⟨r, hr, hrg⟩
    rcases (h.moves.changed g hg a).mp ha with ⟨hold, f, hf, hfa, hlive⟩
    have hrow := hcond r hr f hf (by rw [hrg, hfa]; exact hold) (offsetOf a) hlive
    rwa [hfa, rowAddress_eta, wholeCovered, hrg] at hrow
  · intro hcond r hr f hf hold offset hlive
    rcases hleft r hr with ⟨g, hg, hrg⟩
    have hsmall : offset < 2 ^ 32 := lt_of_lt_of_le (liveRow_lt _ _ _ hlive) (hready.rows f hf)
    rw [wholeCovered, hrg]
    refine hcond g hg _ ((h.moves.changed g hg _).mpr ?_)
    grind [fragmentOf_rowAddress, offsetOf_rowAddress]

end Commits

/-- A search returns the same rows after a deferred compaction exactly when, of every rewritten
    group, it found the live rows before just if no segment it uses covers the group whole. -/
theorem deferred_search_iff (files : SearchFiles) (kind : SearchKind)
    (original latest after : Manifest) (theirs : List Operation) (c : Compaction)
    (hready : Searched files original latest theirs c) (hexec : Executed files.vectors original c)
    (hcommit : compactCommit files.vectors true original latest theirs c = .ok after) :
    (∀ b, answers files kind after b = true ↔ ∃ a, answers files kind latest a = true ∧
      moved files.vectors original latest c a = b) ↔
    ∀ r ∈ c.rewrites, ∀ f ∈ latest.fragments, f.id ∈ r.oldFragmentIds → ∀ offset,
      liveRow files.vectors f offset = true →
      (answers files kind latest (rowAddress f.id offset) = true ↔
        wholeCovered files kind latest r = false) := by
  by_cases hwork : c.rewrites.all (fun r => r.oldFragmentIds.isEmpty) = true
  · -- Nothing to rewrite: no version is committed and no row moves.
    rw [compactCommit, if_pos hwork, Except.ok.injEq] at hcommit
    subst hcommit
    simp only [moved_of_no_work _ _ _ _ hwork, exists_eq_right, implies_true, true_iff]
    grind
  rcases deferred_moves kind hready hexec (Bool.eq_false_iff.mpr hwork) hcommit with ⟨groups, h⟩
  have hmoved : ∀ a, moved files.vectors original latest c a = movedBy groups a := by
    intro a
    simp only [moved, h.groups_eq]
  simp only [hmoved]
  rw [h.condition_iff hready]
  constructor
  · intro hset g hg a ha
    have hnew := h.moves.movedBy_mem hg a ha
    rw [← h.answers_new hready hg _ hnew]
    refine ⟨fun hans => (hset _).mpr ⟨a, hans, rfl⟩, fun hans => ?_⟩
    -- Only this row moves there, so this is the row that was found.
    rcases (hset _).mp hans with ⟨b, hb, heq⟩
    rcases h.answers_before hready b hb with ⟨f, hf, hfb, -⟩
    have hlt : fragmentOf b < nextFragmentId latest := hfb ▸ lt_nextFragmentId hf
    rwa [h.moves.movedBy_inj hg a b ha hlt heq.symm]
  · intro hcond b
    constructor
    · intro hb
      rcases h.answers_only hready b hb with ⟨f, hf, hnot, hfb⟩ | ⟨g, hg, hnew⟩
      · refine ⟨b, h.answers_kept hready f hf hnot b hfb ▸ hb, movedBy_of_not_mem ?_⟩
        intro g hg hin
        exact hnot (mem_flatMap.mpr ⟨g, hg, hfb ▸ ((h.moves.changed g hg b).mp hin).1⟩)
      · rcases h.moves.movedBy_surj hg b hnew with ⟨a, ha, heq⟩
        exact ⟨a, (hcond g hg a ha).mpr ((h.answers_new hready hg b hnew).mp hb), heq⟩
    · rintro ⟨a, ha, rfl⟩
      rcases h.answers_before hready a ha with ⟨f, hf, hfa, hgroup⟩
      by_cases hold : f.id ∈ groups.flatMap (·.oldIds)
      · rcases mem_flatMap.mp hold with ⟨g, hg, hin⟩
        have hrow := hgroup g hg (hfa ▸ hin)
        exact (h.answers_new hready hg _ (h.moves.movedBy_mem hg a hrow)).mpr
          ((hcond g hg a hrow).mp ha)
      · have hstay : movedBy groups a = a := movedBy_of_not_mem (fun g hg hin =>
          hold (mem_flatMap.mpr ⟨g, hg, hfa ▸ ((h.moves.changed g hg a).mp hin).1⟩))
        rw [hstay, h.answers_kept hready f hf hold a hfa]
        exact ha

/-- Two fragments of two rows, the first of them covered by a vector index and
    by a full-text index. -/
def embedded : Manifest :=
  { version := 3
    fields := [{ name := "v", id := 0 }, { name := "text", id := 1 }]
    fragments := [{ id := 0, physicalRows := 2 }, { id := 1, physicalRows := 2 }]
    indices := [
      { uuid := 7, name := "v_idx", fields := [0], fragmentIds := [0],
        detailsTypeUrl := "/lance.index.pb.VectorIndexDetails" },
      { uuid := 8, name := "text_idx", fields := [1], fragmentIds := [0],
        detailsTypeUrl := "/lance.index.pb.InvertedIndexDetails" }]
    maxFragmentId := some 1 }

/-- Both indices hold the two rows of the first fragment. -/
def embeddedFiles : SearchFiles :=
  { vectors := fun _ _ => .ok []
    stored := fun uuid => if uuid = 7 ∨ uuid = 8 then [rowAddress 0 0, rowAddress 0 1] else []
    listElement := fun _ => false }

/-- One fragment rewritten into one. -/
def compactOne (id : Nat) : Compaction :=
  { rewrites := [{ oldFragmentIds := [id], newFragments := [{ id := 0, physicalRows := 2 }] }]
    uuid := 9 }

theorem embedded_stored {uuid a : Nat} (h : a ∈ embeddedFiles.stored uuid) :
    a = rowAddress 0 0 ∨ a = rowAddress 0 1 := by
  simp only [embeddedFiles] at h
  grind

theorem embedded_searched (id : Nat) : Searched embeddedFiles embedded embedded [] (compactOne id) where
  committed := fun _ => rfl
  addressable := by
    refine ⟨by decide, by decide, fun uuid a ha f hf _ => ?_⟩
    have hrows : ∀ f ∈ embedded.fragments, f.physicalRows = 2 := by decide
    rw [hrows f hf]
    rcases embedded_stored ha with rfl | rfl <;> decide
  rows := by decide
  ascending := by decide
  unknown := by decide
  system := by decide
  stored := by
    intro uuid a ha
    rcases embedded_stored ha with rfl | rfl <;> decide
  mark := fun h => absurd rfl h
  room := by
    show nextFragmentId embedded + 1 ≤ 2 ^ 32 - 1
    decide

theorem compactOne_executed (id : Nat) (hid : id = 0 ∨ id = 1) :
    Executed embeddedFiles.vectors embedded (compactOne id) where
  distinct := nodup_singleton id
  counted := by
    intro r hr out hout
    rw [mem_singleton.mp hr] at hout ⊢
    rcases hid with rfl | rfl <;>
      · rw [← Except.ok.inj hout]
        rfl
  plain := by
    intro f hf
    rw [mem_singleton.mp hf]
    decide

/-- The rows of a fragment no index covers are scanned before and after. -/
theorem deferred_search_iff_uncovered :
    ∃ after, compactCommit embeddedFiles.vectors true embedded embedded [] (compactOne 1) =
        .ok after ∧
      ∀ b, answers embeddedFiles (.nearest 0) after b = true ↔
        ∃ a, answers embeddedFiles (.nearest 0) embedded a = true ∧
          moved embeddedFiles.vectors embedded embedded (compactOne 1) a = b := by
  refine ⟨_, rfl, (deferred_search_iff embeddedFiles (.nearest 0) embedded embedded _ []
    (compactOne 1) (embedded_searched 1) (compactOne_executed 1 (.inr rfl)) rfl).mpr ?_⟩
  intro r hr f hf hold offset hlive
  rw [mem_singleton.mp hr] at hold ⊢
  have hrows : ∀ f ∈ embedded.fragments, f.physicalRows = 2 := by decide
  have hlt := liveRow_lt _ _ _ hlive
  rw [hrows f hf] at hlt
  rw [mem_singleton.mp hold]
  rcases (show offset = 0 ∨ offset = 1 by omega) with rfl | rfl <;> decide

/-- The first fragment is covered whole. After its compaction no search finds its rows: the new
    fragment is covered, and no index file has its addresses. -/
theorem compacted_rows_vanish :
    ∃ after, compactCommit embeddedFiles.vectors true embedded embedded [] (compactOne 0) =
        .ok after ∧
      ∀ kind ∈ [SearchKind.nearest 0, SearchKind.fullText "text" false], ∀ offset ∈ [0, 1],
        answers embeddedFiles kind embedded (rowAddress 0 offset) = true ∧
        moved embeddedFiles.vectors embedded embedded (compactOne 0) (rowAddress 0 offset) =
          rowAddress 2 offset ∧
        answers embeddedFiles kind after (rowAddress 2 offset) = false :=
  ⟨_, rfl, by decide⟩

end NanoLance
