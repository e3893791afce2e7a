import Mathlib.Data.List.Induction
import NanoLance.RepDef

/-!
# The Shape of an Unraveled Page

Whatever streams a page holds, the layers `unravel` returns fit together as
far as their counts go: it compares each one with the layer inside it. What it
does not compare is where the first list of a layer begins. A level that
continues a list adds a child whether or not a list of that layer has begun,
so where the levels before it are all invisible there the offsets begin past
0. `unravel_wellFormed_iff` says that this is the only way a returned page is
not a well-formed tree.

The loop over a list layer reads two streams side by side. `pairLevels` puts
them together, with a definition level of 0 where there is none, and the loop
is then a fold of `readLevel`; peeling a layer off is `peel` on the pairs.

## Theorems

* `appendBit_represents`: Appending a bit appends an entry.
* `readLists_eq_foldl`: The loop over a list layer is a fold over the pairs.
* `foldl_wellRead`: The offsets grow with the children counted.
* `firstOffset_iff`: The offsets begin at 0 when a list begins first.
* `unravelFrom_wellFormed_iff`: The layers that remain, from any levels.
* `unravel_wellFormed_iff`: The whole page.
-/

namespace NanoLance

namespace RepDef

open List Lib

/-- The layer holds the validity `flags`: its bitmap, if there is one, has a bit for each entry and
    no set bit past them. -/
structure Represents (layer : UnraveledLayer) (flags : List Bool) : Prop where
  length : layer.length = flags.length
  nulls : layer.nullCount = flags.count false
  none : layer.validity = [] → false ∉ flags
  bytes : layer.validity ≠ [] → layer.validity.length = (flags.length + 7) / 8
  bits : layer.validity ≠ [] → ∀ i, bitAt layer.validity i = flags.getD i false

theorem represents_empty (kind : LayerKind) : Represents { kind := kind } [] :=
  ⟨rfl, rfl, fun _ => not_mem_nil, fun h => absurd rfl h, fun h => absurd rfl h⟩

variable {levels : List (Nat × Nat)} {layer : UnraveledLayer} {valid hasDef : Bool}
  {flags : List Bool} {l : ListLevels} {s : ListRead}

theorem getD_append_singleton (flags : List Bool) (b : Bool) (i : Nat) :
    (flags ++ [b]).getD i false = (flags.getD i false || (i == flags.length && b)) := by
  rcases Nat.lt_trichotomy i flags.length with h | h | h
  · rw [getD_append _ _ _ _ h, beq_eq_false_iff_ne.2 (by omega), Bool.false_and, Bool.or_false]
  · simp [h]
  · grind

theorem getD_of_all_true (h : false ∉ flags) (i : Nat) :
    flags.getD i false = decide (i < flags.length) := by
  by_cases hi : i < flags.length
  · grind
  · rw [getD_eq_default _ _ (by omega), decide_eq_false hi]

/-- The bitmap that `appendBit` writes to: a byte of zeros is added at every eighth entry. -/
theorem grown_length (bytes : List Nat) (n : Nat) (h : bytes.length = (n + 7) / 8) :
    (if n % 8 = 0 then bytes ++ [0] else bytes).length = n / 8 + 1 := by grind

theorem grown_bitAt (bytes : List Nat) (n i : Nat) :
    bitAt (if n % 8 = 0 then bytes ++ [0] else bytes) i = bitAt bytes i := by
  split
  · exact bitAt_append_zero bytes i
  · rfl

theorem appendBit_represents (valid : Bool) (h : Represents layer flags) :
    Represents (appendBit layer valid) (flags ++ [valid]) := by
  have hlen : (flags ++ [valid]).length = flags.length + 1 := by
    rw [length_append, length_singleton]
  by_cases hempty : layer.validity = []
  · have hall := h.none hempty
    cases valid with
    | true =>
      simp only [appendBit, hempty, isEmpty_nil, if_true]
      refine ⟨by rw [hlen, ← h.length], ?_, ?_, fun hne => absurd rfl hne,
        fun hne => absurd rfl hne⟩
      · rw [count_append, ← h.nulls]
        rfl
      · grind
    | false =>
      -- the first null: every entry so far is materialized as valid
      simp only [appendBit, hempty, isEmpty_nil, if_true, Bool.false_eq_true, if_false]
      refine ⟨by rw [hlen, ← h.length], ?_, fun hnil => ?_, fun _ => ?_, fun _ i => ?_⟩
      · rw [count_append, ← h.nulls]
        rfl
      · simp only [append_eq_nil_iff, cons_ne_nil, and_false] at hnil
      · show (ones layer.length).length = _
        rw [length_ones, hlen, h.length]
        omega
      · show bitAt (ones layer.length) i = _
        rw [bitAt_ones, getD_append_singleton, Bool.and_false, Bool.or_false,
          getD_of_all_true hall, h.length]
  · have hbytes := h.bytes hempty
    have hgrown := grown_length layer.validity layer.length (by rw [hbytes, h.length])
    have hne : layer.validity.isEmpty = false := by simp [hempty]
    have hceil : layer.length / 8 + 1 = ((flags ++ [valid]).length + 7) / 8 := by
      rw [hlen, h.length]
      omega
    cases valid with
    | true =>
      simp only [appendBit, hne, Bool.false_eq_true, if_false, if_true]
      refine ⟨by rw [hlen, ← h.length], ?_, fun hnil => ?_, fun _ => ?_, fun _ i => ?_⟩
      · rw [count_append, ← h.nulls]
        rfl
      · grind [length_orLast]
      · rw [length_orLast, hgrown, hceil]
      · rw [bitAt_orLast _ hgrown, grown_bitAt, h.bits hempty, getD_append_singleton,
          Bool.and_true, h.length]
    | false =>
      simp only [appendBit, hne, Bool.false_eq_true, if_false]
      refine ⟨by rw [hlen, ← h.length], ?_, fun hnil => ?_, fun _ => ?_, fun _ i => ?_⟩
      · rw [count_append, ← h.nulls]
        rfl
      · grind
      · rw [hgrown, hceil]
      · rw [grown_bitAt, h.bits hempty, getD_append_singleton, Bool.and_false, Bool.or_false]

@[simp] theorem appendBit_kind :
    (appendBit layer valid).kind = layer.kind := by
  unfold appendBit
  split <;> split <;> rfl

@[simp] theorem appendBit_offsets :
    (appendBit layer valid).offsets = layer.offsets := by
  unfold appendBit
  split <;> split <;> rfl

theorem Represents.withOffsets (h : Represents layer flags) (offsets : List Nat) :
    Represents { layer with offsets := offsets } flags :=
  ⟨h.length, h.nulls, h.none, h.bytes, h.bits⟩

/-- The number of clear bits among the first `n` of a bitmap. -/
def clearBits (bytes : List Nat) (n : Nat) : Nat :=
  (List.range n).countP fun i => !bitAt bytes i

/-- A bitmap, if there is one, has its bytes and as many clear bits as the layer counts nulls. -/
def BitmapFits (layer : UnraveledLayer) : Prop :=
  layer.validity ≠ [] →
    layer.validity.length = (layer.length + 7) / 8 ∧
      clearBits layer.validity layer.length = layer.nullCount

theorem countP_range_getD (flags : List Bool) :
    ((List.range flags.length).countP fun i => !flags.getD i false) = flags.count false := by
  induction flags using reverseRecOn with
  | nil => rfl
  | append_singleton flags b ih =>
    rw [length_append, length_singleton, range_succ, countP_append, count_append, ← ih]
    congr 1
    · refine countP_congr fun i hi => ?_
      rw [getD_append _ _ _ _ (mem_range.1 hi)]
    · grind

theorem Represents.bitmapFits (h : Represents layer flags) : BitmapFits layer := by
  intro hne
  refine ⟨by rw [h.bytes hne, h.length], ?_⟩
  rw [h.nulls, ← countP_range_getD flags, clearBits, h.length]
  refine countP_congr fun i _ => ?_
  rw [h.bits hne i]

/-- A list layer's offsets over the layer `inner`: one more than its lists, from 0 and never
    decreasing to the length of `inner`. -/
structure OffsetsFit (layer inner : UnraveledLayer) : Prop where
  length : layer.offsets.length = layer.length + 1
  head : layer.offsets.head? = some 0
  sorted : layer.offsets.Pairwise (· ≤ ·)
  last : layer.offsets.getLast? = some inner.length

/-- One layer over the layer inside it: the items themselves, where there is none. -/
def LayerFits (numItems : Nat) (inner : Option UnraveledLayer) (layer : UnraveledLayer) : Prop :=
  BitmapFits layer ∧
    match inner with
    | none => layer.kind.isItem = true ∧ (numItems ≠ inferItems → layer.length = numItems)
    | some inner =>
        if layer.kind.isItem then layer.length = inner.length else OffsetsFit layer inner

/-- The layers fit together, each over the one before it. -/
def WellFormed (numItems : Nat) : Option UnraveledLayer → List UnraveledLayer → Prop
  | _, [] => True
  | inner, layer :: rest =>
      LayerFits numItems inner layer ∧ WellFormed numItems (some layer) rest

/-- The two streams side by side, with a definition level of 0 where there is none. -/
def pairLevels : List Nat → List Nat → List (Nat × Nat)
  | [], _ => []
  | r :: rep, defs => (r, defs.headD 0) :: pairLevels rep defs.tail

/-- The levels that go on to the next layer out. -/
def peel (levels : List (Nat × Nat)) : List (Nat × Nat) :=
  (levels.filter (0 < ·.1)).map fun level => (level.1 - 1, level.2)

/-- Pass a level on to the next layer out. -/
def ListRead.passOn (s : ListRead) (hasDef : Bool) (r d : Nat) : ListRead :=
  { s with rep := s.rep ++ [r], defs := if hasDef then s.defs ++ [d] else s.defs }

/-- One level of a list layer. -/
def readLevel (hasDef : Bool) (l : ListLevels) (s : ListRead) : Nat × Nat → ListRead
  | (0, _) => { s with curlen := s.curlen + 1 }
  | (r + 1, d) => ListRead.enter l d (s.passOn hasDef r d)

theorem readLists_eq_foldl {rep defs : List Nat} {s' : ListRead}
    (hdefs : hasDef = false → defs = [])
    (h : readLists hasDef l rep defs s = .ok s') :
    s' = (pairLevels rep defs).foldl (readLevel hasDef l) s := by
  induction rep generalizing defs s with
  | nil => exact (Except.ok.inj h).symm
  | cons r rep ih =>
    cases r with
    | zero =>
      refine ih (fun hno => ?_) h
      rw [hdefs hno, tail_nil]
    | succ r =>
      cases hasDef with
      | true =>
        cases defs with
        | nil => cases h
        | cons d defs => exact ih (fun hno => absurd hno (by decide)) h
      | false =>
        rw [hdefs rfl] at h ⊢
        exact ih (fun _ => rfl) h

/-! ### The loop over a list layer -/

/-- A level begins an entry at this layer exactly when its definition level is visible there. -/
theorem enter_cases (l : ListLevels) (d : Nat) (s : ListRead) :
    (l.max < d ∧ ListRead.enter l d s = s) ∨
      (d ≤ l.max ∧ ∃ child valid, ListRead.enter l d s = s.start child valid) := by
  unfold ListRead.enter
  by_cases hzero : d = 0
  · simp [hzero]
  by_cases hmax : l.max < d
  · grind
  · grind

/-- What the loop keeps: an offset for each entry, none past the children counted. -/
structure WellRead (s : ListRead) : Prop where
  length : s.layer.offsets.length = s.layer.length
  sorted : s.layer.offsets.Pairwise (· ≤ ·)
  bound : ∀ o ∈ s.layer.offsets, o ≤ s.curlen
  flags : ∃ flags, Represents s.layer flags

theorem appendBit_length :
    (appendBit layer valid).length = layer.length + 1 := by
  unfold appendBit
  split <;> split <;> rfl

variable {inner : Option UnraveledLayer} {kind : LayerKind} {levels' : Levels}
  {li : Nat} {page : Page} {table : List Nat}

theorem WellRead.start (h : WellRead s) (child valid : Bool) :
    WellRead (s.start child valid) := by
  rcases h.flags with ⟨flags, hflags⟩
  have hcur : s.curlen ≤ (s.start child valid).curlen := by
    simp only [ListRead.start]
    split <;> omega
  refine ⟨?_, ?_, ?_, ?_⟩
  · simp [ListRead.start, appendBit_offsets, appendBit_length, h.length]
  · simp only [ListRead.start, appendBit_offsets]
    refine pairwise_append.2 ⟨h.sorted, pairwise_singleton _ _, ?_⟩
    intro a ha b hb
    rw [mem_singleton.1 hb]
    exact h.bound a ha
  · intro o ho
    simp only [ListRead.start, appendBit_offsets, mem_append, mem_singleton] at ho
    rcases ho with ho | ho
    · exact (h.bound o ho).trans hcur
    · exact ho ▸ hcur
  · exact ⟨_, appendBit_represents valid (hflags.withOffsets _)⟩

theorem readLevel_wellRead (level : Nat × Nat) (h : WellRead s) :
    WellRead (readLevel hasDef l s level) := by
  rcases level with ⟨_ | r, d⟩
  · exact ⟨h.length, h.sorted, fun o ho => Nat.le_succ_of_le (h.bound o ho), h.flags⟩
  · have hpassed : WellRead (s.passOn hasDef r d) := ⟨h.length, h.sorted, h.bound, h.flags⟩
    rw [readLevel]
    rcases enter_cases l d (s.passOn hasDef r d) with ⟨_, hsame⟩ | ⟨_, child, valid, hstart⟩
    · exact hsame.symm ▸ hpassed
    · exact hstart.symm ▸ hpassed.start child valid

theorem foldl_wellRead (h : WellRead s) : WellRead (levels.foldl (readLevel hasDef l) s) := by
  induction levels generalizing s with
  | nil => exact h
  | cons level levels ih => exact ih (readLevel_wellRead level h)

/-- The streams that go on are the levels peeled, side by side as before. -/
theorem foldl_streams (hasDef : Bool) (l : ListLevels) (levels : List (Nat × Nat)) (s : ListRead) :
    (levels.foldl (readLevel hasDef l) s).rep = s.rep ++ (peel levels).map Prod.fst ∧
      (levels.foldl (readLevel hasDef l) s).defs =
        if hasDef then s.defs ++ (peel levels).map Prod.snd else s.defs := by
  induction levels generalizing s with
  | nil => simp [peel, ite_self]
  | cons level levels ih =>
    rcases level with ⟨_ | r, d⟩
    · exact ih _
    · have hpeel : peel ((r + 1, d) :: levels) = (r, d) :: peel levels := by simp [peel]
      have henter : ∀ s, (ListRead.enter l d s).rep = s.rep ∧
          (ListRead.enter l d s).defs = s.defs := by
        intro s
        rcases enter_cases l d s with ⟨_, hsame⟩ | ⟨_, child, valid, hstart⟩
        · exact hsame.symm ▸ ⟨rfl, rfl⟩
        · exact hstart.symm ▸ ⟨rfl, rfl⟩
      have hnext := ih (readLevel hasDef l s (r + 1, d))
      rw [foldl_cons, hpeel, hnext.1, hnext.2]
      simp only [readLevel, ListRead.passOn, henter, map_cons, append_assoc, singleton_append]
      cases hasDef
      · simp
      · simp

theorem pairLevels_map :
    pairLevels (levels.map Prod.fst) (levels.map Prod.snd) = levels := by
  induction levels with
  | nil => rfl
  | cons level levels ih => simp [pairLevels, ih]

theorem pairLevels_map_nil (h : ∀ level ∈ levels, level.2 = 0) :
    pairLevels (levels.map Prod.fst) [] = levels := by
  induction levels with
  | nil => rfl
  | cons level levels ih =>
    simp [pairLevels, ih fun x hx => h x (.tail _ hx), ← h level (.head _)]

theorem pairLevels_nil_snd (rep : List Nat) : ∀ level ∈ pairLevels rep [], level.2 = 0 := by
  induction rep with
  | nil => exact nofun
  | cons r rep ih =>
    intro level hlevel
    rcases mem_cons.1 hlevel with rfl | hrest
    · rfl
    · exact ih level hrest

theorem peel_snd (h : ∀ level ∈ levels, level.2 = 0) :
    ∀ level ∈ peel levels, level.2 = 0 := by
  intro level hlevel
  rcases mem_map.1 hlevel with ⟨outer, houter, rfl⟩
  exact h outer (mem_filter.1 houter).1

/-! ### Where the first list begins -/

/-- The list layer at `depth` begins with a list: no level continues one there before a level that
    begins one and is visible, up to the definition level `max`. A level with a repetition level
    below `depth - 1` was dropped further in. -/
def startsFirst (depth max : Nat) : List (Nat × Nat) → Bool
  | [] => true
  | (r, d) :: levels =>
      if r + 1 = depth then false
      else if depth ≤ r ∧ d ≤ max then true
      else startsFirst depth max levels

theorem startsFirst_peel (depth max : Nat) (levels : List (Nat × Nat)) :
    startsFirst (depth + 1) max (peel levels) = startsFirst (depth + 2) max levels := by
  induction levels with
  | nil => rfl
  | cons level levels ih =>
    rcases level with ⟨_ | r, d⟩
    · rw [startsFirst, if_neg (by omega), if_neg (by omega), ← ih]
      rfl
    · have hpeel : peel ((r + 1, d) :: levels) = (r, d) :: peel levels := by simp [peel]
      rw [hpeel, startsFirst, startsFirst, ih]
      simp

/-- The offset the layer's first list begins at, or the end of the offsets where it has none. -/
def firstOffset (s : ListRead) : Nat :=
  s.layer.offsets.headD s.curlen

theorem firstOffset_start (child valid : Bool) (h : s.layer.offsets ≠ []) :
    (s.start child valid).layer.offsets ≠ [] ∧
      firstOffset (s.start child valid) = firstOffset s := by
  rcases hoff : s.layer.offsets with _ | ⟨o, offsets⟩
  · exact absurd hoff h
  · simp [firstOffset, ListRead.start, appendBit_offsets, hoff]

/-- Once a list has begun the first offset stays. -/
theorem foldl_firstOffset (h : s.layer.offsets ≠ []) :
    firstOffset (levels.foldl (readLevel hasDef l) s) = firstOffset s := by
  induction levels generalizing s with
  | nil => rfl
  | cons level levels ih =>
    have hstep : (readLevel hasDef l s level).layer.offsets ≠ [] ∧
        firstOffset (readLevel hasDef l s level) = firstOffset s := by
      rcases hoff : s.layer.offsets with _ | ⟨o, offsets⟩
      · exact absurd hoff h
      rcases level with ⟨_ | r, d⟩
      · simp [firstOffset, readLevel, hoff]
      · rw [readLevel]
        rcases enter_cases l d (s.passOn hasDef r d) with ⟨_, hsame⟩ | ⟨_, child, valid, hstart⟩
        · rw [hsame]
          exact ⟨h, rfl⟩
        · rw [hstart]
          exact firstOffset_start child valid h
    rw [foldl_cons, ih hstep.1, hstep.2]

theorem firstOffset_iff (hasDef : Bool) (l : ListLevels) (levels : List (Nat × Nat))
    (s : ListRead) (h : s.layer.offsets = []) :
    firstOffset (levels.foldl (readLevel hasDef l) s) = 0 ↔
      s.curlen = 0 ∧ startsFirst 1 l.max levels = true := by
  induction levels generalizing s with
  | nil => simp [firstOffset, h, startsFirst]
  | cons level levels ih =>
    rcases level with ⟨_ | r, d⟩
    · -- a child before any list: the first offset is past it
      rw [foldl_cons, ih (readLevel hasDef l s (0, d)) h]
      simp [readLevel, one_ne_zero, startsFirst]
    · have hdepth : ¬r + 1 + 1 = 1 := by omega
      rw [foldl_cons, startsFirst, if_neg hdepth]
      rcases enter_cases l d (s.passOn hasDef r d) with ⟨hmax, hsame⟩ | ⟨hmax, child, valid, hstart⟩
      · rw [if_neg (by omega), readLevel, hsame, ih (s.passOn hasDef r d) h]
        rfl
      · rw [if_pos ⟨by omega, hmax⟩, readLevel, hstart, foldl_firstOffset]
        · simp [firstOffset, ListRead.start, ListRead.passOn, appendBit_offsets, h]
        · simp [ListRead.start, appendBit_offsets]

/-! ### One layer -/

theorem itemEntries_represents (table : List Nat) (nullable : Bool) (levels : Levels)
    (h : Represents layer flags) :
    (∃ flags, Represents (itemEntries table nullable levels layer) flags) ∧
      (itemEntries table nullable levels layer).kind = layer.kind := by
  unfold itemEntries
  generalize levels.defs = defs
  induction defs generalizing layer flags with
  | nil => exact ⟨⟨flags, h⟩, rfl⟩
  | cons level defs ih =>
    rw [foldl_cons]
    by_cases hvisible : table.getD level 0 ≤ levels.repCmp
    · rw [if_pos hvisible]
      refine ⟨(ih (appendBit_represents _ h)).1, ?_⟩
      rw [(ih (appendBit_represents _ h)).2, appendBit_kind]
    · rw [if_neg hvisible]
      exact ih h

theorem itemLayer_fits {levels : Levels} (hkind : kind.isItem = true)
    (h : itemLayer page table li kind inner levels = .ok (layer, levels')) :
    layer.kind = kind ∧ LayerFits page.numItems inner layer ∧
      levels' = { levels with
        defCmp := if kind = .nullableItem then next16 levels.defCmp else levels.defCmp } := by
  simp only [itemLayer, bind_eq_ok, pure_eq_ok, Prod.mk.injEq] at h
  rcases h with ⟨layer', hlayer, _, hinner, hsame, hlevels⟩
  subst hsame
  have hbitmap : layer'.kind = kind ∧ BitmapFits layer' := by
    unfold itemLayerEntries at hlayer
    split at hlayer
    · rcases itemEntries_represents table (kind == .nullableItem) levels
        (represents_empty kind) with ⟨⟨flags, hflags⟩, hkinds⟩
      exact Except.ok.inj hlayer ▸ ⟨hkinds, hflags.bitmapFits⟩
    · split at hlayer
      · cases hlayer
      · exact Except.ok.inj hlayer ▸ ⟨rfl, fun hne => absurd rfl hne⟩
  refine ⟨hbitmap.1, ⟨hbitmap.2, ?_⟩, hlevels.symm⟩
  rw [hbitmap.1, hkind]
  unfold checkItemLayer at hinner
  cases inner with
  | none =>
    simp only [ensure_eq_ok, Bool.or_eq_true, beq_iff_eq] at hinner
    exact ⟨rfl, fun hdeclared => hinner.resolve_left hdeclared⟩
  | some inner =>
    simp only [ensure_eq_ok, beq_iff_eq] at hinner
    exact hinner

theorem foldl_kind :
    (levels.foldl (readLevel hasDef l) s).layer.kind = s.layer.kind := by
  induction levels generalizing s with
  | nil => rfl
  | cons level levels ih =>
    rw [foldl_cons, ih]
    rcases level with ⟨_ | r, d⟩
    · rfl
    · rw [readLevel]
      rcases enter_cases l d (s.passOn hasDef r d) with ⟨_, hsame⟩ | ⟨_, child, valid, hstart⟩
      · rw [hsame]
        rfl
      · rw [hstart, ListRead.start, appendBit_kind]
        rfl

/-- The offsets of a list layer, with the end of the last list. -/
theorem offsetsFit_iff {inner : UnraveledLayer} (h : WellRead s) (hend : s.curlen = inner.length) :
    OffsetsFit { s.layer with offsets := s.layer.offsets ++ [s.curlen] } inner ↔
      firstOffset s = 0 := by
  have hhead : (s.layer.offsets ++ [s.curlen]).head? = some (firstOffset s) := by
    unfold firstOffset
    cases s.layer.offsets <;> rfl
  constructor
  · intro hfits
    have hzero := hfits.head
    grind
  · intro hzero
    refine ⟨?_, by rw [hhead, hzero], ?_, ?_⟩
    · rw [length_append, length_singleton, h.length]
    · refine pairwise_append.2 ⟨h.sorted, pairwise_singleton _ _, ?_⟩
      intro a ha b hb
      rw [mem_singleton.1 hb]
      exact h.bound a ha
    · rw [getLast?_concat, hend]

theorem pairLevels_foldl (l : ListLevels) (rep : List Nat) {defs : List Nat}
    (layer : UnraveledLayer) (hdefs : hasDef = false → defs = []) :
    let read := (pairLevels rep defs).foldl (readLevel hasDef l) { layer := layer }
    pairLevels read.rep read.defs = peel (pairLevels rep defs) ∧
      (hasDef = false → read.defs = []) := by
  intro read
  rcases foldl_streams hasDef l (pairLevels rep defs) { layer := layer } with ⟨hrep, hdefs'⟩
  rw [show read.rep = _ from hrep, show read.defs = _ from hdefs']
  simp only [nil_append]
  cases hasDef with
  | true => exact ⟨pairLevels_map, fun h => absurd h (by decide)⟩
  | false =>
    refine ⟨pairLevels_map_nil (peel_snd ?_), fun _ => rfl⟩
    rw [hdefs rfl]
    exact pairLevels_nil_snd rep

theorem listLayer_fits_iff {outer : List LayerKind} {inner layer : UnraveledLayer} {levels : Levels}
    (hkind : kind.isItem = false) (hdefs : page.hasDef = false → levels.defs = [])
    (h : listLayer page li kind outer inner levels = .ok (layer, levels')) :
    layer.kind = kind ∧
      (LayerFits page.numItems (some inner) layer ↔
        startsFirst 1 (listLevels levels.defCmp kind outer).max
          (pairLevels levels.rep levels.defs) = true) ∧
      pairLevels levels'.rep levels'.defs = peel (pairLevels levels.rep levels.defs) ∧
      (page.hasDef = false → levels'.defs = []) ∧
      levels'.defCmp = (listLevels levels.defCmp kind outer).defCmp := by
  simp only [listLayer, bind_eq_ok, pure_eq_ok, ensure_eq_ok, beq_iff_eq, Prod.mk.injEq] at h
  rcases h with ⟨read, hread, _, hend, hlayer, hlevels⟩
  have hfold := readLists_eq_foldl hdefs hread
  have hwell : WellRead read := by
    rw [hfold]
    exact foldl_wellRead ⟨rfl, .nil, forall_mem_nil _, [], represents_empty kind⟩
  have hkinds : layer.kind = kind := by
    rw [← hlayer, hfold]
    exact foldl_kind
  have hpeeled := pairLevels_foldl (listLevels levels.defCmp kind outer) levels.rep
    { kind := kind } hdefs
  rw [← hfold] at hpeeled
  refine ⟨hkinds, ?_, hlevels ▸ hpeeled.1, fun hno => hlevels ▸ hpeeled.2 hno, hlevels ▸ rfl⟩
  rcases hwell.flags with ⟨flags, hflags⟩
  have hbitmap : BitmapFits layer := hlayer ▸ (hflags.withOffsets _).bitmapFits
  have hfirst := firstOffset_iff page.hasDef (listLevels levels.defCmp kind outer)
    (pairLevels levels.rep levels.defs) { layer := { kind := kind } } rfl
  rw [← hfold] at hfirst
  rw [LayerFits, hkinds, hkind]
  simp only [Bool.false_eq_true, if_false, hbitmap, true_and]
  rw [← hlayer, offsetsFit_iff hwell hend, hfirst]
  simp

/-! ### Every layer -/

/-- A list begins first at every list layer: the levels are those of the whole page, `depth` list
    layers have been peeled off and `defCmp` is the definition level that is valid. -/
def listsStartFirst (levels : List (Nat × Nat)) : Nat → Nat → List LayerKind → Bool
  | _, _, [] => true
  | defCmp, depth, kind :: outer =>
      if kind.isItem then
        listsStartFirst levels (if kind = .nullableItem then next16 defCmp else defCmp) depth outer
      else
        let l := listLevels defCmp kind outer
        startsFirst (depth + 1) l.max levels && listsStartFirst levels l.defCmp (depth + 1) outer

theorem listsStartFirst_peel (defCmp depth : Nat) (kinds : List LayerKind) :
    listsStartFirst (peel levels) defCmp depth kinds =
      listsStartFirst levels defCmp (depth + 1) kinds := by
  induction kinds generalizing defCmp depth with
  | nil => rfl
  | cons kind outer ih => simp only [listsStartFirst, startsFirst_peel, ih]

theorem unravelFrom_wellFormed_iff {kinds : List LayerKind} {levels : Levels}
    {out : List UnraveledLayer} (hinner : inner = none → (kinds.head?.all LayerKind.isItem) = true)
    (hdefs : page.hasDef = false → levels.defs = [])
    (h : unravelFrom page table li kinds inner levels = .ok out) :
    out.map (·.kind) = kinds ∧
      (WellFormed page.numItems inner out ↔
        listsStartFirst (pairLevels levels.rep levels.defs) levels.defCmp 0 kinds = true) := by
  induction kinds generalizing li inner levels out with
  | nil =>
    rw [← Except.ok.inj h]
    exact ⟨rfl, by simp only [WellFormed, listsStartFirst]⟩
  | cons kind outer ih =>
    simp only [unravelFrom, bind_eq_ok, pure_eq_ok] at h
    rcases h with ⟨⟨layer, levels'⟩, hpeeled, rest, hrest, hout⟩
    rw [← hout, map_cons, WellFormed, listsStartFirst]
    unfold peelLayer at hpeeled
    by_cases hkind : kind.isItem = true
    · rw [if_pos hkind] at hpeeled ⊢
      rcases itemLayer_fits hkind hpeeled with ⟨hlayer, hfits, hlevels⟩
      grind
    · rw [if_neg hkind] at hpeeled ⊢
      rw [Bool.not_eq_true] at hkind
      -- a list layer has a layer inside it: the first layer holds items
      cases inner with
      | none => grind
      | some inner =>
        rcases listLayer_fits_iff hkind hdefs hpeeled with ⟨hlayer, hfits, hpairs, hdefs', hcmp⟩
        grind [listsStartFirst_peel]

/-- The layers returned are those of the descriptor, and they fit together. -/
def WellFormedTree (page : Page) (out : List UnraveledLayer) : Prop :=
  out.map (·.kind.code) = page.layers ∧ WellFormed page.numItems none out

/-- At every list layer of the page the first level that continues a list there comes after one
    that begins a list visible there. -/
def ListsStartFirst (page : Page) : Prop :=
  ∀ kinds, decodeKinds page.layers = .ok kinds →
    listsStartFirst (pairLevels page.rep (if page.hasDef then page.defs else [])) 0 0 kinds = true

theorem code_kindOf (code : Nat) (kind : LayerKind) (h : kindOf code = some kind) :
    kind.code = code := by
  unfold kindOf at h
  split at h <;> cases h <;> rfl

theorem decodeKinds_codes (codes : List Nat) (kinds : List LayerKind)
    (h : decodeKinds codes = .ok kinds) : kinds.map LayerKind.code = codes := by
  induction codes generalizing kinds with
  | nil => rw [← Except.ok.inj h]; rfl
  | cons code codes ih =>
    unfold decodeKinds at h
    split at h
    · cases h
    · next kind hkind =>
      simp only [bind_eq_ok, pure_eq_ok] at h
      rcases h with ⟨rest, hrest, rfl⟩
      rw [map_cons, ih rest hrest, code_kindOf code kind hkind]

theorem isItemLayer_code (kind : LayerKind) : isItemLayer kind.code = kind.isItem := by
  cases kind <;> rfl

/-- Whatever a page holds, the layers `unravel` returns for it are a well-formed tree exactly when
    every list layer of it begins with a list. -/
theorem unravel_wellFormed_iff (page : Page) (out : List UnraveledLayer)
    (h : unravel page = .ok out) : WellFormedTree page out ↔ ListsStartFirst page := by
  simp only [unravel, bind_eq_ok, ensure_eq_ok] at h
  rcases h with ⟨_, hhead, kinds, hkinds, _, _, hout⟩
  have hcodes := decodeKinds_codes page.layers kinds hkinds
  have hitem : (kinds.head?.all LayerKind.isItem) = true := by
    rw [← hcodes] at hhead
    cases kinds with
    | nil => rfl
    | cons kind outer =>
      simp only [map_cons, head?_cons, Option.any_some, isItemLayer_code] at hhead
      simpa only [head?_cons, Option.all_some] using hhead
  have hshape := unravelFrom_wellFormed_iff
    (fun _ => hitem) (fun hno => by simp only [hno, Bool.false_eq_true, if_false]) hout
  have hmap : out.map (·.kind.code) = page.layers := by
    rw [← hcodes, ← hshape.1, map_map]
    rfl
  rw [WellFormedTree, and_iff_right hmap, hshape.2]
  constructor
  · intro hfirst kinds' hkinds'
    grind
  · exact fun hfirst => hfirst kinds hkinds

/-- One row that is a null list and still goes on: its first item continues a list of the inner
    layer, where none has begun. -/
def lateListPage : Page :=
  { rep := [2, 0, 1], hasRep := true, defs := [1, 0, 0], hasDef := true
    layers := [1, 2, 4], numItems := 2 }

/-- The layers returned for it. -/
def lateListLayers : List UnraveledLayer :=
  [{ kind := .allValidItem, length := 2 },
   { kind := .allValidList, length := 1, offsets := [1, 2] },
   { kind := .nullableList, length := 1, offsets := [0, 1], validity := [0], nullCount := 1 }]

/-- The page is accepted, and the offsets of its inner list begin at 1. -/
theorem lateList_not_wellFormed :
    unravel lateListPage = .ok lateListLayers ∧ ¬WellFormedTree lateListPage lateListLayers := by
  refine ⟨by decide, ?_⟩
  rintro ⟨_, _, ⟨_, hoffsets⟩, _⟩
  exact absurd hoffsets.head (by decide)

/-- Three rows of lists of lists: two lists, a null and one empty list. -/
def nestedPage : Page :=
  { rep := [2, 0, 1, 2, 2], hasRep := true, defs := [0, 0, 0, 2, 1], hasDef := true
    layers := [1, 5, 4], numItems := 3 }

theorem unravel_wellFormed_iff_nested :
    ∃ out, unravel nestedPage = .ok out ∧ ListsStartFirst nestedPage ∧
      (WellFormedTree nestedPage out ↔ ListsStartFirst nestedPage) := by
  refine ⟨_, rfl, ?_, unravel_wellFormed_iff nestedPage _ rfl⟩
  intro kinds hkinds
  have hdecoded : [.allValidItem, .emptyableList, .nullableList] = kinds := Except.ok.inj hkinds
  rw [← hdecoded]
  decide

end RepDef

end NanoLance
