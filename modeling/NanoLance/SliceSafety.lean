import NanoLance.ColumnSlice

/-!
# Rejected Cuts

A rejected cut should leave the column as it was, and the source checks before it
writes to have it so. Two checks come late: that of the outer element bitmap, after
the inner one was replaced, and that of the blob payload, after all bitmaps were. A
cut that fails there leaves the column as it was only if the bitmaps it replaced are
those of the rows asked for already.

## Theorems

* `rejected_keeps_iff`: When a rejected cut changes nothing.
-/

namespace NanoLance

namespace ColumnSlice

open List

variable {runs : List Run} {move : ColumnValues → Cut}
  {v : ColumnValues}

/-- The bits of the runs are in the bitmap, if there is one. -/
def Readable (bitmap : List Nat) (perRow : Nat) (runs : List Run) : Prop :=
  bitmap = [] ∨ cutBitmap bitmap runs perRow ≠ none

/-- Cutting the bitmap gives the bitmap back. -/
def Steady (bitmap : List Nat) (nulls perRow : Nat) (runs : List Run) : Prop :=
  bitmap ≠ [] → ∀ cut, cutBitmap bitmap runs perRow = some cut → cut = (bitmap, nulls)

/-- The element bitmap is there for every element, or not at all. -/
def ItemsFit (v : ColumnValues) (total : Nat) : Prop :=
  v.itemValidity = [] ∨
    (v.itemsPerRow ≠ 0 ∧ bitmapBytes (total * v.itemsPerRow) ≤ v.itemValidity.length)

def OuterShort (v : ColumnValues) (total : Nat) : Prop :=
  v.outerItemsPerRow ≠ 0 ∧ v.outerItemValidity ≠ [] ∧
    v.outerItemValidity.length < bitmapBytes (total * v.outerItemsPerRow)

/-- The payload ends before row `last` does. -/
def PayloadShort (v : ColumnValues) (last : Nat) : Prop :=
  v.kind = .blob ∧ v.packedPayload.length < bytesBefore v last

/-- The bitmaps can be cut. -/
structure BitmapsRead (v : ColumnValues) (runs : List Run) : Prop where
  items : Readable v.itemValidity v.itemsPerRow runs
  outer : v.outerItemsPerRow ≠ 0 → Readable v.outerItemValidity v.outerItemsPerRow runs
  validity : Readable v.validity 1 runs

/-- What was replaced before a late check fails is what it was. -/
structure KeepsOnReject (v : ColumnValues) (runs : List Run) (total last : Nat) : Prop where
  outer : ItemsFit v total → OuterShort v total →
    Steady v.itemValidity v.itemNullCount v.itemsPerRow runs
  payload : ItemsFit v total → ¬OuterShort v total → PayloadShort v last → BitmapsRead v runs →
    Steady v.itemValidity v.itemNullCount v.itemsPerRow runs ∧
      (v.outerItemsPerRow ≠ 0 →
        Steady v.outerItemValidity v.outerItemNullCount v.outerItemsPerRow runs) ∧
      Steady v.validity v.nullCount 1 runs

/-- A move that rejects a short payload and nothing else. -/
def Moves (move : ColumnValues → Cut) (last : Nat) : Prop :=
  ∀ v, (PayloadShort v last ∧ ∃ why, move v = .rejected v why) ∨
    (¬PayloadShort v last ∧ ∀ w why, move v ≠ .rejected w why)

theorem moves_slice (first count valueBytes : Nat) :
    Moves (sliceRows first count valueBytes) (first + count) := by
  intro v
  by_cases hshort : PayloadShort v (first + count)
  · refine .inl ⟨hshort, ?_⟩
    rw [sliceRows, hshort.1]
    exact ⟨_, if_pos hshort.2⟩
  · refine .inr ⟨hshort, fun w why h => ?_⟩
    unfold sliceRows at h
    unfold PayloadShort at hshort
    grind

theorem moves_compact (runs : List Run) (total valueBytes : Nat) :
    Moves (compactRows runs total valueBytes) total := by
  intro v
  by_cases hshort : PayloadShort v total
  · refine .inl ⟨hshort, ?_⟩
    rw [compactRows, hshort.1]
    exact ⟨_, if_pos hshort.2⟩
  · refine .inr ⟨hshort, fun w why h => ?_⟩
    unfold compactRows at h
    unfold PayloadShort at hshort
    grind

abbrev ColumnValues.withItems (v : ColumnValues) (bits : List Nat) (n : Nat) : ColumnValues :=
  { v with itemValidity := bits, itemNullCount := n }

abbrev ColumnValues.withOuter (v : ColumnValues) (bits : List Nat) (n : Nat) : ColumnValues :=
  { v with outerItemValidity := bits, outerItemNullCount := n }

abbrev ColumnValues.withValidity (v : ColumnValues) (bits : List Nat) (n : Nat) : ColumnValues :=
  { v with validity := bits, nullCount := n }

/-- A bitmap is cut, or its bits are not all there. -/
theorem cutBitmap_cases {bitmap : List Nat} (runs : List Run) (perRow nulls : Nat)
    (hne : bitmap ≠ []) :
    (cutBitmap bitmap runs perRow = none ∧ ¬Readable bitmap perRow runs) ∨
      ∃ bits n, cutBitmap bitmap runs perRow = some (bits, n) ∧ Readable bitmap perRow runs ∧
        (bits = bitmap ∧ n = nulls ↔ Steady bitmap nulls perRow runs) := by
  unfold Readable Steady
  cases hcut : cutBitmap bitmap runs perRow with
  | none => simp [hne]
  | some cut => exact .inr ⟨cut.1, cut.2, rfl, by simp, by simp [hne, Prod.ext_iff]⟩

section

variable {total : Nat}

theorem items_cases (runs : List Run) (v : ColumnValues) (hfit : ItemsFit v total) :
    (cutItems runs total v = .fault ∧ ¬Readable v.itemValidity v.itemsPerRow runs) ∨
      ∃ bits n, cutItems runs total v = .done (v.withItems bits n) ∧
        Readable v.itemValidity v.itemsPerRow runs ∧
        (bits = v.itemValidity ∧ n = v.itemNullCount ↔
          Steady v.itemValidity v.itemNullCount v.itemsPerRow runs) := by
  unfold cutItems
  by_cases hne : v.itemValidity = []
  · exact .inr ⟨_, _, if_pos hne, .inl hne, by simp [Steady, hne]⟩
  rw [if_neg hne, if_neg (by have := hfit.resolve_left hne; omega)]
  rcases cutBitmap_cases runs v.itemsPerRow v.itemNullCount hne with
    ⟨hcut, hnot⟩ | ⟨bits, n, hcut, hread⟩
  · exact .inl ⟨by rw [hcut], hnot⟩
  · exact .inr ⟨bits, n, by rw [hcut], hread⟩

theorem outer_cases (runs : List Run) (v : ColumnValues) (hfit : ¬OuterShort v total) :
    (cutOuterItems runs total v = .fault ∧
        ¬(v.outerItemsPerRow ≠ 0 → Readable v.outerItemValidity v.outerItemsPerRow runs)) ∨
      ∃ bits n, cutOuterItems runs total v = .done (v.withOuter bits n) ∧
        (v.outerItemsPerRow ≠ 0 → Readable v.outerItemValidity v.outerItemsPerRow runs) ∧
        (bits = v.outerItemValidity ∧ n = v.outerItemNullCount ↔ (v.outerItemsPerRow ≠ 0 →
          Steady v.outerItemValidity v.outerItemNullCount v.outerItemsPerRow runs)) := by
  unfold cutOuterItems
  by_cases hne : v.outerItemsPerRow = 0 ∨ v.outerItemValidity = []
  · refine .inr ⟨_, _, if_pos hne, fun h => .inl (hne.resolve_left h), ?_⟩
    simp only [true_and, true_iff]
    exact fun h hbits => absurd hne (by simp [h, hbits])
  · rw [not_or] at hne
    have hlen : ¬v.outerItemValidity.length < bitmapBytes (total * v.outerItemsPerRow) :=
      fun h => hfit ⟨hne.1, hne.2, h⟩
    rw [if_neg (by simp [hne]), if_neg hlen]
    rcases cutBitmap_cases runs v.outerItemsPerRow v.outerItemNullCount hne.2 with
      ⟨hcut, hnot⟩ | ⟨bits, n, hcut, hread, hiff⟩
    · exact .inl ⟨by rw [hcut], fun h => hnot (h hne.1)⟩
    · exact .inr ⟨bits, n, by rw [hcut], fun _ => hread, by rw [hiff]; simp [hne.1]⟩

theorem validity_cases (runs : List Run) (v : ColumnValues) :
    (cutValidity runs v = .fault ∧ ¬Readable v.validity 1 runs) ∨
      ∃ bits n, cutValidity runs v = .done (v.withValidity bits n) ∧ Readable v.validity 1 runs ∧
        (bits = v.validity ∧ n = v.nullCount ↔ Steady v.validity v.nullCount 1 runs) := by
  unfold cutValidity
  by_cases hne : v.validity = []
  · exact .inr ⟨_, _, if_pos hne, .inl hne, by simp [Steady, hne]⟩
  rw [if_neg hne]
  rcases cutBitmap_cases runs 1 v.nullCount hne with
    ⟨hcut, hnot⟩ | ⟨bits, n, hcut, hread⟩
  · exact .inl ⟨by rw [hcut], hnot⟩
  · exact .inr ⟨bits, n, by rw [hcut], hread⟩

theorem items_rejected (runs : List Run) (v : ColumnValues) (h : ¬ItemsFit v total) :
    ∃ why, cutItems runs total v = .rejected v why := by
  unfold ItemsFit at h
  rw [cutItems, if_neg (by tauto)]
  exact ⟨_, if_pos (by omega)⟩

theorem outer_rejected (runs : List Run) (v : ColumnValues) (h : OuterShort v total) :
    ∃ why, cutOuterItems runs total v = .rejected v why := by
  rw [cutOuterItems, if_neg (by simp [h.1, h.2.1])]
  exact ⟨_, if_pos h.2.2⟩

/-- When the steps leave a rejected column as it was. -/
theorem steps_keep_iff {last : Nat} (hmove : Moves move last) :
    (∀ w why, steps runs total move v = .rejected w why → w = v) ↔
      KeepsOnReject v runs total last := by
  unfold steps
  by_cases hitems : ItemsFit v total
  · rcases items_cases runs v hitems with ⟨hcut, hnot⟩ | ⟨bits, n, hcut, hread, hsteady⟩
    · -- The inner bitmap is read outside: nothing is rejected.
      rw [hcut]
      refine iff_of_true (fun _ _ h => by cases h) ⟨fun _ _ hne cut hsome => ?_,
        fun _ _ _ hall => absurd hall.items hnot⟩
      exact absurd (.inr (by simp [hsome])) hnot
    rw [hcut]
    by_cases houter : OuterShort v total
    · -- The inner bitmap has been replaced.
      rcases outer_rejected runs (v.withItems bits n) houter with ⟨why, hreject⟩
      simp only [Cut.andThen, hreject, Cut.rejected.injEq]
      constructor
      · intro h
        have hv := h _ _ ⟨rfl, rfl⟩
        refine ⟨fun _ _ => hsteady.mp ?_, fun _ hn => absurd houter hn⟩
        exact ⟨congrArg ColumnValues.itemValidity hv, congrArg ColumnValues.itemNullCount hv⟩
      · rintro h _ _ ⟨rfl, -⟩
        rcases hsteady.mpr (h.outer hitems houter) with ⟨rfl, rfl⟩
        rfl
    rcases outer_cases runs (v.withItems bits n) houter with
      ⟨hcut₂, hnot⟩ | ⟨bits₂, n₂, hcut₂, hread₂, hsteady₂⟩
    · simp only [Cut.andThen, hcut₂]
      exact iff_of_true (fun _ _ h => by cases h)
        ⟨fun _ hs => absurd hs houter, fun _ _ _ hall => absurd hall.outer hnot⟩
    rcases validity_cases runs ((v.withItems bits n).withOuter bits₂ n₂) with
      ⟨hcut₃, hnot⟩ | ⟨bits₃, n₃, hcut₃, hread₃, hsteady₃⟩
    · simp only [Cut.andThen, hcut₂, hcut₃]
      exact iff_of_true (fun _ _ h => by cases h)
        ⟨fun _ hs => absurd hs houter, fun _ _ _ hall => absurd hall.validity hnot⟩
    simp only [Cut.andThen, hcut₂, hcut₃]
    rcases hmove (((v.withItems bits n).withOuter bits₂ n₂).withValidity bits₃ n₃) with
      ⟨hshort, why, hreject⟩ | ⟨hlong, hnever⟩
    · -- All three have been replaced.
      simp only [hreject, Cut.rejected.injEq]
      constructor
      · intro h
        have hv := h _ _ ⟨rfl, rfl⟩
        refine ⟨fun _ hs => absurd hs houter, fun _ _ _ _ => ⟨hsteady.mp ?_, hsteady₂.mp ?_,
          hsteady₃.mp ?_⟩⟩
        · exact ⟨congrArg ColumnValues.itemValidity hv, congrArg ColumnValues.itemNullCount hv⟩
        · exact ⟨congrArg ColumnValues.outerItemValidity hv,
            congrArg ColumnValues.outerItemNullCount hv⟩
        · exact ⟨congrArg ColumnValues.validity hv, congrArg ColumnValues.nullCount hv⟩
      · rintro h _ _ ⟨rfl, -⟩
        rcases h.payload hitems houter hshort ⟨hread, hread₂, hread₃⟩ with ⟨h₁, h₂, h₃⟩
        rcases hsteady.mpr h₁ with ⟨rfl, rfl⟩
        rcases hsteady₂.mpr h₂ with ⟨rfl, rfl⟩
        rcases hsteady₃.mpr h₃ with ⟨rfl, rfl⟩
        rfl
    · exact ⟨fun _ => ⟨fun _ hs => absurd hs houter, fun _ _ hs => absurd hs hlong⟩,
        fun _ w why h => absurd h (hnever w why)⟩
  · rcases items_rejected runs v hitems with ⟨why, hreject⟩
    simp only [Cut.andThen, hreject, Cut.rejected.injEq]
    exact ⟨fun _ => ⟨fun h => absurd h hitems, fun h => absurd h hitems⟩, fun _ _ _ h => h.1.symm⟩

end

/-- A property of how a cut of `v` ends that holds when it is done, and when it is rejected with
    `v` as it was. -/
structure Outcome (v : ColumnValues) (P : Cut → Prop) : Prop where
  done : ∀ w, P (.done w)
  rejected : ∀ why, P (.rejected v why)
  andThen : ∀ (cut : Cut) (f : ColumnValues → ColumnValues),
    P (cut.andThen (fun w => .done (f w))) ↔ P cut

/-- The range of values a slice works on, and how many there are. -/
def sliceTarget (v : ColumnValues) (first count total : Nat) : Option (Nat × Nat × Nat) :=
  if v.layers = [] then some (first, count, total)
  else if total < first ∨ total - first < count then none
  else
    match checkLayers v.layers total, sliceLayers v.layers first count with
    | .passes, some (_, at_, n) => some (at_, n, itemsUnder v.layers total)
    | _, _ => none

/-- The slice gets past the checks before its first write. -/
structure SliceReady (v : ColumnValues) (at_ n items valueBytes : Nat) : Prop where
  range : at_ + n ≤ items
  owned : v.borrowed = false
  check : sliceCheck v at_ n items valueBytes = .passes

/-- The runs of values a compaction works on, and how many values there are. -/
def compactTarget (v : ColumnValues) (keep : List Bool) (total : Nat) : Option (List Run × Nat) :=
  if keep.length ≠ total then none
  else if v.layers = [] then some (runsOf keep, total)
  else if keep.all id then none
  else
    match checkLayers v.layers total, cutLayers v.layers (runsOf keep) with
    | .passes, some (_, runs) => some (runs, itemsUnder v.layers total)
    | _, _ => none

structure CompactReady (v : ColumnValues) (runs : List Run) (items valueBytes : Nat) : Prop where
  owned : v.borrowed = false
  inside : runs.any (fun r => r.2 ≤ r.1 || items < r.2) = false
  dropped : rowsIn runs ≠ items
  check : compactCheck v runs items valueBytes = .passes

section

variable {P : Cut → Prop} (hP : Outcome v P)

include hP

theorem Outcome.check (check : Check) (next : Cut) :
    P (check.cut v next) ↔ (check = .faults → P .fault) ∧ (check = .passes → P next) := by
  cases check <;> simp [Check.cut, hP.rejected]

/-- How a slice of values ends is decided by the steps, if it gets to them. -/
theorem Outcome.sliceLeaf {at_ n items valueBytes : Nat}
    (hfault : P .fault ∨ (at_ + n ≤ items → sliceCheck v at_ n items valueBytes ≠ .faults)) :
    P (sliceLeaf v at_ n items valueBytes) ↔ (SliceReady v at_ n items valueBytes →
      P (steps [(at_, at_ + n)] items (sliceRows at_ n valueBytes) v)) := by
  unfold ColumnSlice.sliceLeaf
  split_ifs with hrange howned
  · exact iff_of_true (hP.rejected _) (fun h => by have := h.range; omega)
  · exact iff_of_true (hP.rejected _) (fun h => by simp [h.owned] at howned)
  · rw [hP.check]
    constructor
    · exact fun h hready => h.2 hready.check
    · intro h
      refine ⟨fun hf => hfault.elim id (fun hc => absurd hf (hc (by omega))), fun hc => ?_⟩
      exact h ⟨by omega, by simpa using howned, hc⟩

theorem Outcome.compactLeafRuns {runs : List Run} {items valueBytes : Nat}
    (hfault : P .fault ∨ (runs.any (fun r => r.2 ≤ r.1 || items < r.2) = false →
      compactCheck v runs items valueBytes ≠ .faults)) :
    P (compactLeafRuns v runs items valueBytes) ↔ (CompactReady v runs items valueBytes →
      P (steps runs items (compactRows runs items valueBytes) v)) := by
  unfold ColumnSlice.compactLeafRuns
  split_ifs with howned hinside hall
  · exact iff_of_true (hP.rejected _) (fun h => by simp [h.owned] at howned)
  · exact iff_of_true (hP.rejected _) (fun h => by simp [h.inside] at hinside)
  · exact iff_of_true (hP.done _) (fun h => absurd hall h.dropped)
  · rw [hP.check]
    constructor
    · exact fun h hready => h.2 hready.check
    · intro h
      have hin := Bool.eq_false_iff.mpr hinside
      refine ⟨fun hf => hfault.elim id (fun hc => absurd hf (hc hin)), fun hc => ?_⟩
      exact h ⟨by simpa using howned, hin, hall, hc⟩

/-- How a slice of rows ends is decided by the slice of the values under them. -/
theorem Outcome.slice {first count total : Nat} (valueBytes : Nat)
    (hfault : P .fault ∨ checkLayers v.layers total ≠ .faults ∧ (first + count ≤ total →
      checkLayers v.layers total = .passes → sliceLayers v.layers first count ≠ none)) :
    P (sliceColumnValues v first count total valueBytes) ↔ ∀ at_ n items,
      sliceTarget v first count total = some (at_, n, items) →
        P (ColumnSlice.sliceLeaf v at_ n items valueBytes) := by
  unfold sliceColumnValues sliceTarget
  split_ifs with hflat hrange
  · simp
  · simp [hP.rejected]
  · rw [hP.check]
    have hin : first + count ≤ total := by omega
    cases hcheck : checkLayers v.layers total with
    | rejects why => simp
    | faults => simpa [hcheck] using hfault
    | passes =>
      cases hcut : sliceLayers v.layers first count with
      | none => simpa [hcheck, hcut, hin] using hfault
      | some cut => simp [hP.andThen]

theorem Outcome.compact {keep : List Bool} {total : Nat} (valueBytes : Nat)
    (hfault : P .fault ∨ checkLayers v.layers total ≠ .faults ∧ (keep.length = total →
      checkLayers v.layers total = .passes → cutLayers v.layers (runsOf keep) ≠ none)) :
    P (compactColumnValues v keep total valueBytes) ↔ ∀ runs items,
      compactTarget v keep total = some (runs, items) →
        P (ColumnSlice.compactLeafRuns v runs items valueBytes) := by
  unfold compactColumnValues compactTarget
  split_ifs with hlen hflat hall
  · simp [hP.rejected]
  · simp
  · simp [hP.done]
  · rw [hP.check]
    cases hcheck : checkLayers v.layers total with
    | rejects why => simp
    | faults => simpa [hcheck] using hfault
    | passes =>
      cases hcut : cutLayers v.layers (runsOf keep) with
      | none => simpa [hcheck, hcut, not_not.mp hlen] using hfault
      | some cut => simp [hP.andThen]

end

/-- **A rejected cut leaves the column as it was if and only if** the late checks do not
    fail, or what was replaced before them is what it was. -/
theorem rejected_keeps_iff (v : ColumnValues) (first count total valueBytes : Nat)
    (keep : List Bool) :
    ((∀ w why, sliceColumnValues v first count total valueBytes = .rejected w why → w = v) ↔
      ∀ at_ n items, sliceTarget v first count total = some (at_, n, items) →
        SliceReady v at_ n items valueBytes →
          KeepsOnReject v [(at_, at_ + n)] items (at_ + n)) ∧
    ((∀ w why, compactColumnValues v keep total valueBytes = .rejected w why → w = v) ↔
      ∀ runs items, compactTarget v keep total = some (runs, items) →
        CompactReady v runs items valueBytes → KeepsOnReject v runs items items) := by
  have hkeeps : Outcome v (fun cut => ∀ w why, cut = .rejected w why → w = v) :=
    ⟨by simp, by simp [eq_comm], fun cut f => by cases cut <;> simp [Cut.andThen]⟩
  have hfault : ∀ w why, Cut.fault = .rejected w why → w = v := by simp
  constructor
  · rw [hkeeps.slice valueBytes (.inl hfault)]
    simp only [hkeeps.sliceLeaf (.inl hfault), steps_keep_iff (moves_slice _ _ _)]
  · rw [hkeeps.compact valueBytes (.inl hfault)]
    simp only [hkeeps.compactLeafRuns (.inl hfault), steps_keep_iff (moves_compact _ _ _)]

/-- A column of `rows` rows without values. -/
abbrev emptyColumn (kind : Kind) (rows : Nat) : ColumnValues where
  kind := kind
  rows := rows
  borrowed := false
  fixed := []
  large := false
  offsets := []
  data := []
  rowPackedSizes := []
  packedPayload := []
  validity := []
  nullCount := 0
  itemValidity := []
  itemsPerRow := 0
  itemNullCount := 0
  outerItemValidity := []
  outerItemsPerRow := 0
  outerItemNullCount := 0
  layers := []

/-- Two blob rows, the payload of the second cut short, without bitmaps. -/
abbrev cutShort : ColumnValues :=
  { emptyColumn .blob 2 with rowPackedSizes := [1, 3], packedPayload := [7, 7] }

theorem rejected_keeps_iff_blob :
    (∃ why, sliceColumnValues cutShort 1 1 2 0 = .rejected cutShort why) ∧
      ∀ w why, sliceColumnValues cutShort 1 1 2 0 = .rejected w why → w = cutShort := by
  refine ⟨⟨_, rfl⟩, (rejected_keeps_iff cutShort 1 1 2 0 []).1.mpr (fun at_ n items _ _ => ?_)⟩
  constructor
  · exact fun _ h => absurd rfl h.1
  · exact fun _ _ _ _ => ⟨fun h => absurd rfl h, fun h => absurd rfl h, fun h => absurd rfl h⟩

/-- Elements of so many rows that their count wraps to none, and one outer element a row. -/
abbrev wrappedItems : ColumnValues :=
  { emptyColumn .fixedWidth 0 with
    itemValidity := [2], itemsPerRow := 4, itemNullCount := 1
    outerItemValidity := [1], outerItemsPerRow := 1 }

/-- The same rows, the first of them null: the rejected slice drops the bitmap. And the short
    outer bitmap of the wrapped column is found when the inner one is gone. -/
theorem rejected_slice_drops_bitmap :
    sliceColumnValues { cutShort with validity := [2], nullCount := 1 } 1 1 2 0 =
        .rejected cutShort "blob packed rows run past the payload buffer" ∧
      sliceColumnValues wrappedItems 0 0 (2 ^ 62) 4 =
        .rejected { wrappedItems with itemValidity := [], itemNullCount := 0 }
          "outer element validity bitmap covers fewer elements than the column claims" := by
  decide

end ColumnSlice

end NanoLance
