import NanoLance.Lib.Bitmap

/-!
# Cutting Decoded Columns

A decoded column is cut down to some of its rows in place: to a range of them, or
to those a mask keeps. The layers of lists and structs above the values turn rows
into runs of values, the values are moved to the front of their buffer, and the
bitmaps are packed again.

A cut is done; or it is rejected with a message, and then the column is what the steps
before the check made of it; or it touched memory outside a buffer, which the source
has no word for and `Cut.fault` stands for.

Offsets are kept as their values, read as unsigned words. A column may claim any
number of rows, so the sizes that are computed from it wrap: a check can pass because
a product is a small number, and what is read then may be outside.

## Main definitions

* `ColumnValues`, `Layer`: A column.
* `Cut`: How a cut ends.
* `sliceLeaf`, `compactLeafRuns`: Cutting the values.
* `checkLayers`, `sliceLayers`, `cutLayers`: From rows to values.
* `sliceColumnValues`, `compactColumnValues`: Cutting a column.
-/

namespace NanoLance

namespace ColumnSlice

open List

inductive Kind where
  | fixedWidth
  | variableWidth
  | blob
  deriving DecidableEq, Repr

/-- A layer of lists or structs; structs have no offsets. -/
structure Layer where
  isList : Bool
  length : Nat
  offsets : List Int
  validity : List Nat
  nullCount : Nat
  deriving DecidableEq, Repr

structure ColumnValues where
  kind : Kind
  rows : Nat
  /-- The values are in a buffer of someone else. -/
  borrowed : Bool
  fixed : List UInt8
  large : Bool
  offsets : List Nat
  data : List UInt8
  rowPackedSizes : List Nat
  packedPayload : List UInt8
  validity : List Nat
  nullCount : Nat
  itemValidity : List Nat
  itemsPerRow : Nat
  itemNullCount : Nat
  outerItemValidity : List Nat
  outerItemsPerRow : Nat
  outerItemNullCount : Nat
  layers : List Layer
  deriving DecidableEq, Repr

inductive Cut where
  | done (v : ColumnValues)
  | rejected (v : ColumnValues) (why : String)
  /-- Memory outside a buffer was read or written. -/
  | fault
  /-- So many values that the place of an offset wraps: offsets are then written before they are
      read, which is not followed. -/
  | wrapped
  deriving DecidableEq, Repr

/-- How a check ends; a read outside a buffer faults. -/
inductive Check where
  | passes
  | rejects (why : String)
  | faults
  deriving DecidableEq, Repr

def Check.andThen : Check → Check → Check
  | .passes, next => next
  | check, _ => check

/-- What follows a check. -/
def Check.cut (v : ColumnValues) (next : Cut) : Check → Cut
  | .passes => next
  | .rejects why => .rejected v why
  | .faults => .fault

/-- The next step, on what the last one left. -/
def Cut.andThen : Cut → (ColumnValues → Cut) → Cut
  | .done v, next => next v
  | cut, _ => cut

/-- Rows from one up to another. -/
abbrev Run := Nat × Nat

/-! ## Bitmaps -/

def bitmapBytes (rows : Nat) : Nat := (rows + 7) % 2 ^ 64 / 8

def pack (bits : List Bool) : List Nat :=
  (range (bitmapBytes bits.length)).map (fun k =>
    ((range 8).map (fun j => if bits.getD (8 * k + j) false then 2 ^ j else 0)).sum)

/-- The bits of some runs, `perRow` for each row, and how many are clear. A bitmap without clear
    bits is dropped. The new bitmap has room for them: there are not `2 ^ 64` to copy. -/
def cutBitmap (src : List Nat) (runs : List Run) (perRow : Nat) : Option (List Nat × Nat) :=
  let at_ := runs.flatMap (fun r =>
    (range' (r.1 * perRow) ((r.2 - r.1) * perRow % 2 ^ 64)).map (· % 2 ^ 64))
  if at_.all (fun i => i / 8 < src.length) then
    let bits := at_.map (Lib.bitAt src)
    some (if bits.count false = 0 then [] else pack bits, bits.count false)
  else none

/-- The element validity of fixed-size lists. -/
def cutItems (runs : List Run) (total : Nat) (v : ColumnValues) : Cut :=
  if v.itemValidity = [] then .done v
  else if v.itemsPerRow = 0 ∨ v.itemValidity.length < bitmapBytes (total * v.itemsPerRow) then
    .rejected v "element validity bitmap covers fewer elements than the column claims"
  else
    match cutBitmap v.itemValidity runs v.itemsPerRow with
    | some (bits, nulls) => .done { v with itemValidity := bits, itemNullCount := nulls }
    | none => .fault

/-- The same for the outer of two levels. -/
def cutOuterItems (runs : List Run) (total : Nat) (v : ColumnValues) : Cut :=
  if v.outerItemsPerRow = 0 ∨ v.outerItemValidity = [] then .done v
  else if v.outerItemValidity.length < bitmapBytes (total * v.outerItemsPerRow) then
    .rejected v "outer element validity bitmap covers fewer elements than the column claims"
  else
    match cutBitmap v.outerItemValidity runs v.outerItemsPerRow with
    | some (bits, nulls) => .done { v with outerItemValidity := bits, outerItemNullCount := nulls }
    | none => .fault

def cutValidity (runs : List Run) (v : ColumnValues) : Cut :=
  if v.validity = [] then .done v
  else
    match cutBitmap v.validity runs 1 with
    | some (bits, nulls) => .done { v with validity := bits, nullCount := nulls }
    | none => .fault

/-! ## Buffers -/

/-- `memmove` inside a buffer. -/
def moveTo (buf : List UInt8) (dst src len : Nat) : Option (List UInt8) :=
  if src + len ≤ buf.length ∧ dst + len ≤ buf.length then
    some (buf.take dst ++ (buf.drop src).take len ++ buf.drop (dst + len))
  else none

/-- A buffer of another size. -/
def resize (buf : List UInt8) (n : Nat) : List UInt8 :=
  buf.take n ++ replicate (n - buf.length) 0

/-- The bytes of a range of rows moved to the front. -/
def sliceMove (pos : Nat → Nat) (first count : Nat) (buf : List UInt8) : Option (List UInt8) :=
  let bytes := (pos (first + count) + 2 ^ 64 - pos first) % 2 ^ 64
  if pos first ≠ 0 ∧ bytes ≠ 0 then (moveTo buf 0 (pos first) bytes).map (resize · bytes)
  else some (resize buf bytes)

/-- The bytes of runs moved to the front one after another, those before them at `at_`. -/
def moveRuns (pos : Nat → Nat) : List Run → List UInt8 → Nat → Option (List UInt8)
  | [], buf, at_ => some (resize buf at_)
  | (b, e) :: runs, buf, at_ =>
    if pos b = at_ then moveRuns pos runs buf (at_ + (pos e - pos b))
    else
      match moveTo buf at_ (pos b) (pos e - pos b) with
      | some buf => moveRuns pos runs buf (at_ + (pos e - pos b))
      | none => none

/-- An offset written and read again. -/
def narrow (large : Bool) (x : Nat) : Nat :=
  if large then x % 2 ^ 64
  else if x % 2 ^ 32 < 2 ^ 31 then x % 2 ^ 32
  else x % 2 ^ 32 + 2 ^ 64 - 2 ^ 32

/-- Where an offset is: its place in bytes wraps. -/
def ColumnValues.slot (v : ColumnValues) (i : Nat) : Nat := i % (if v.large then 2 ^ 61 else 2 ^ 62)

def ColumnValues.holds (v : ColumnValues) (i : Nat) : Bool := v.slot i < v.offsets.length

def ColumnValues.offsetAt (v : ColumnValues) (i : Nat) : Nat := v.offsets.getD (v.slot i) 0

/-- The offsets of runs. Slots are written behind those still to be read. -/
def compactOffsets (v : ColumnValues) : List Run → Nat → List Nat
  | [], _ => []
  | (b, e) :: runs, at_ =>
    (range' b (e - b)).map (fun row =>
      narrow v.large (v.offsetAt (row + 1) + at_ + 2 ^ 64 - v.offsetAt b)) ++
      compactOffsets v runs (at_ + (v.offsetAt e - v.offsetAt b))

def bytesBefore (v : ColumnValues) (row : Nat) : Nat := (v.rowPackedSizes.take row).sum % 2 ^ 64

/-- The packed bytes of a run of blob rows are in the payload. -/
def blobHeld (v : ColumnValues) (r : Run) : Bool :=
  bytesBefore v r.1 ≤ bytesBefore v r.2 && bytesBefore v r.2 ≤ v.packedPayload.length

/-- The packed bytes of a run of blob rows. -/
def blobBytes (v : ColumnValues) (r : Run) : List UInt8 :=
  (v.packedPayload.take (bytesBefore v r.2)).drop (bytesBefore v r.1)

/-- The steps after the checks. -/
def steps (runs : List Run) (total : Nat) (move : ColumnValues → Cut) (v : ColumnValues) : Cut :=
  (((cutItems runs total v).andThen (cutOuterItems runs total)).andThen
    (cutValidity runs)).andThen move

/-! ## The values -/

/-- What both kinds of cut check first. -/
def validityCheck (v : ColumnValues) (total : Nat) : Check :=
  if v.validity ≠ [] ∧ v.validity.length < bitmapBytes total then
    .rejects "validity bitmap covers fewer rows than the column claims"
  else .passes

def offsetsCheck (v : ColumnValues) (total : Nat) : Check :=
  if v.offsets.length < v.slot (total + 1) then
    .rejects "variable-width offsets cover fewer rows than the column claims"
  else .passes

def blobCheck (v : ColumnValues) (total : Nat) : Check :=
  if v.rowPackedSizes.length < total then .rejects "blob column has fewer packed rows than it claims"
  else .passes

def sliceCheck (v : ColumnValues) (first count total valueBytes : Nat) : Check :=
  (validityCheck v total).andThen
    (match v.kind with
    | .fixedWidth =>
      if v.fixed = [] then .passes
      else if valueBytes = 0 then .rejects "fixed-width column has no value width"
      else if v.fixed.length / valueBytes < total then
        .rejects "fixed-width buffer is shorter than the rows the column claims"
      else .passes
    | .variableWidth =>
      (offsetsCheck v total).andThen
        (if !v.holds (first + count) then .faults
        else if v.data.length < v.offsetAt (first + count) then
          .rejects "variable-width offset runs past the data buffer"
        else .passes)
    | .blob => blobCheck v total)

def sliceRows (first count valueBytes : Nat) (v : ColumnValues) : Cut :=
  match v.kind with
  | .fixedWidth =>
    if v.fixed = [] then .done { v with rows := count }
    else
      match sliceMove (· * valueBytes) first count v.fixed with
      | some buf => .done { v with fixed := buf, rows := count }
      | none => .fault
  | .variableWidth =>
    if !(range' first (count + 1)).all v.holds then .fault
    else
      match sliceMove v.offsetAt first count v.data with
      | some buf =>
        .done { v with
          offsets := (range' first (count + 1)).map (fun i =>
            narrow v.large (v.offsetAt i + 2 ^ 64 - v.offsetAt first))
          data := buf
          rows := count }
      | none => .fault
  | .blob =>
    if v.packedPayload.length < bytesBefore v (first + count) then
      .rejected v "blob packed rows run past the payload buffer"
    else if !blobHeld v (first, first + count) then .fault
    else
      .done { v with
        packedPayload := blobBytes v (first, first + count)
        rowPackedSizes := (v.rowPackedSizes.drop first).take count
        rows := count }

def sliceLeaf (v : ColumnValues) (first count total valueBytes : Nat) : Cut :=
  if total < first ∨ total - first < count then .rejected v "row range is outside the column"
  else if v.borrowed then .rejected v "cannot slice a column holding a borrowed buffer"
  else
    (sliceCheck v first count total valueBytes).cut v
      (steps [(first, first + count)] total (sliceRows first count valueBytes) v)

/-- The offsets at `places` do not decrease from `previous` on and stay inside the data. The first
    that does not, or is not there, ends the check. -/
def offsetsFit (v : ColumnValues) : Nat → List Nat → Check
  | _, [] => .passes
  | previous, i :: places =>
    if !v.holds i then .faults
    else if v.offsetAt i < previous ∨ v.data.length < v.offsetAt i then
      .rejects "variable-width offset runs past the data buffer"
    else offsetsFit v (v.offsetAt i) places

def runsFit (v : ColumnValues) : List Run → Check
  | [] => .passes
  | r :: runs =>
    if !v.holds r.1 then .faults
    else (offsetsFit v (v.offsetAt r.1) (range' (r.1 + 1) (r.2 - r.1))).andThen (runsFit v runs)

def compactCheck (v : ColumnValues) (runs : List Run) (total valueBytes : Nat) : Check :=
  (validityCheck v total).andThen
    (match v.kind with
    | .fixedWidth =>
      if v.fixed ≠ [] ∧ (valueBytes = 0 ∨ v.fixed.length / valueBytes < total) then
        .rejects "fixed-width buffer is shorter than the rows the column claims"
      else .passes
    | .variableWidth => (offsetsCheck v total).andThen (runsFit v runs)
    | .blob => blobCheck v total)

def rowsIn (runs : List Run) : Nat := (runs.map (fun r => r.2 - r.1)).sum

def compactRows (runs : List Run) (total valueBytes : Nat) (v : ColumnValues) : Cut :=
  match v.kind with
  | .fixedWidth =>
    if v.fixed = [] then .done { v with rows := rowsIn runs }
    else
      match moveRuns (· * valueBytes) runs v.fixed 0 with
      | some buf => .done { v with fixed := buf, rows := rowsIn runs }
      | none => .fault
  | .variableWidth =>
    if runs.any (fun r => v.slot r.2 ≠ r.2) then .wrapped
    else
      match moveRuns v.offsetAt runs v.data 0 with
      | some buf =>
        .done { v with offsets := 0 :: compactOffsets v runs 0, data := buf, rows := rowsIn runs }
      | none => .fault
  | .blob =>
    if v.packedPayload.length < bytesBefore v total then
      .rejected v "blob packed rows run past the payload buffer"
    else if !(runs.flatMap (fun r => range' r.1 (r.2 - r.1))).all (fun row =>
        blobHeld v (row, row + 1)) then .fault
    else
      .done { v with
        packedPayload := runs.flatMap (blobBytes v)
        rowPackedSizes := runs.flatMap (fun r => (v.rowPackedSizes.take r.2).drop r.1)
        rows := rowsIn runs }

def compactLeafRuns (v : ColumnValues) (runs : List Run) (total valueBytes : Nat) : Cut :=
  if v.borrowed then .rejected v "cannot compact a column holding a borrowed buffer"
  else if runs.any (fun r => r.2 ≤ r.1 || total < r.2) then
    .rejected v "kept rows are outside the column"
  else if rowsIn runs = total then .done v
  else
    (compactCheck v runs total valueBytes).cut v
      (steps runs total (compactRows runs total valueBytes) v)

/-- The runs of kept rows, from row `i` on. -/
def runsFrom : Nat → List Bool → List Run
  | _, [] => []
  | i, false :: keep => runsFrom (i + 1) keep
  | i, true :: keep =>
    match runsFrom (i + 1) keep with
    | (b, e) :: runs => if b = i + 1 then (i, e) :: runs else (i, i + 1) :: (b, e) :: runs
    | [] => [(i, i + 1)]

def runsOf (keep : List Bool) : List Run := runsFrom 0 keep

/-! ## Layers -/

def Layer.offsetAt (l : Layer) (i : Nat) : Nat := (l.offsets.getD i 0).toNat

/-- A layer with the length of the one below it, if there is one. With so many lists that the
    number of offsets wraps to none, the first offset is read all the same. -/
def checkLayer (k : Nat) (l : Layer) (next : Option Nat) : Check :=
  if l.validity ≠ [] ∧ l.validity.length < bitmapBytes l.length then
    .rejects s!"nested layer {k} is malformed"
  else if !l.isList then
    if l.offsets ≠ [] ∨ next.any (· ≠ l.length) then .rejects s!"struct layer {k} is malformed"
    else .passes
  else if l.offsets.length ≠ (l.length + 1) % 2 ^ 64 then .rejects s!"list layer {k} is malformed"
  else if l.offsets = [] then .faults
  else if l.offsets.head? ≠ some 0 then .rejects s!"list layer {k} is malformed"
  else if ¬l.offsets.IsChain (· ≤ ·) then .rejects s!"list layer {k} has decreasing offsets"
  else if next.any (· ≠ l.offsetAt l.length) then .rejects s!"list layer {k} ends past its children"
  else .passes

def checkLayersFrom : Nat → List Layer → Check
  | _, [] => .passes
  | k, l :: layers =>
    (checkLayer k l (layers.head?.map (·.length))).andThen (checkLayersFrom (k + 1) layers)

/-- The number of values under the layers. -/
def itemsUnder : List Layer → Nat → Nat
  | [], rows => rows
  | l :: layers, _ => itemsUnder layers (if l.isList then l.offsetAt l.length else l.length)

def checkLayers (layers : List Layer) (rows : Nat) : Check :=
  match layers.head? with
  | some l =>
    if l.length ≠ rows then .rejects s!"list column holds {l.length} rows, not {rows}"
    else checkLayersFrom 0 layers
  | none => .passes

/-- The entries of a range are in the layer, and the bits of its bitmap. -/
def Layer.holds (l : Layer) (r : Run) : Bool :=
  r.2 ≤ l.length && (l.validity.isEmpty || r.2 ≤ r.1 || (r.2 - 1) / 8 < l.validity.length)

/-- The validity of some entries of a layer. -/
def layerBits (l : Layer) (entries : List Nat) : List Nat × Nat :=
  let bits := entries.map (fun i => l.validity.isEmpty || Lib.bitAt l.validity i)
  (if bits.count false = 0 then [] else pack bits, bits.count false)

/-- Some entries of a layer, their children one after another. -/
def cutLayer (l : Layer) (entries : List Nat) : Layer where
  isList := l.isList
  length := entries.length
  offsets := if l.isList then
      entries.scanl (fun at_ i => at_ + (l.offsets.getD (i + 1) 0 - l.offsets.getD i 0)) 0
    else []
  validity := (layerBits l entries).1
  nullCount := (layerBits l entries).2

/-- The layers of a range of entries, and the range of values under them; none when an entry past
    the end is read. -/
def sliceLayers : List Layer → Nat → Nat → Option (List Layer × Nat × Nat)
  | [], at_, n => some ([], at_, n)
  | l :: layers, at_, n =>
    if !l.holds (at_, at_ + n) then none
    else
      let below := if l.isList then
          sliceLayers layers (l.offsetAt at_) (l.offsetAt (at_ + n) - l.offsetAt at_)
        else sliceLayers layers at_ n
      below.map (fun cut => (cutLayer l (range' at_ n) :: cut.1, cut.2))

/-- The children of runs of lists; runs that meet are one. -/
def childRuns (l : Layer) : List Run → List Run
  | [] => []
  | (b, e) :: runs =>
    if l.offsetAt e ≤ l.offsetAt b then childRuns l runs
    else
      match childRuns l runs with
      | (b', e') :: rest =>
        if b' = l.offsetAt e then (l.offsetAt b, e') :: rest
        else (l.offsetAt b, l.offsetAt e) :: (b', e') :: rest
      | [] => [(l.offsetAt b, l.offsetAt e)]

def cutLayers : List Layer → List Run → Option (List Layer × List Run)
  | [], runs => some ([], runs)
  | l :: layers, runs =>
    if !runs.all l.holds then none
    else
      (cutLayers layers (if l.isList then childRuns l runs else runs)).map (fun cut =>
        (cutLayer l (runs.flatMap (fun r => range' r.1 (r.2 - r.1))) :: cut.1, cut.2))

/-! ## Columns -/

def sliceColumnValues (v : ColumnValues) (first count total valueBytes : Nat) : Cut :=
  if v.layers = [] then sliceLeaf v first count total valueBytes
  else if total < first ∨ total - first < count then .rejected v "row range is outside the column"
  else
    (checkLayers v.layers total).cut v
      (match sliceLayers v.layers first count with
      | some (cut, at_, n) =>
        (sliceLeaf v at_ n (itemsUnder v.layers total) valueBytes).andThen
          (fun v => .done { v with layers := cut })
      | none => .fault)

def compactColumnValues (v : ColumnValues) (keep : List Bool) (total valueBytes : Nat) : Cut :=
  if keep.length ≠ total then .rejected v "keep mask does not cover the column's rows"
  else if v.layers = [] then compactLeafRuns v (runsOf keep) total valueBytes
  else if keep.all id then .done v
  else
    (checkLayers v.layers total).cut v
      (match cutLayers v.layers (runsOf keep) with
      | some (cut, runs) =>
        (compactLeafRuns v runs (itemsUnder v.layers total) valueBytes).andThen
          (fun v => .done { v with layers := cut })
      | none => .fault)

end ColumnSlice

end NanoLance
