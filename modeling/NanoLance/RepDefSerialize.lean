import NanoLance.RepDef

/-!
# Serializing a Nested Column to Levels

The inverse of `unravel`: the rows of a nested column, given layer by layer
from the outside in, as repetition and definition levels. Two passes visit the
rows. The first one finds out what occurs at each layer and counts levels and
value slots; the layers' kinds and the definition levels are then fixed, and
the second pass writes the levels.

A visit goes down the layers by recursion on the layers that are left. The
source keeps its tables by layer number; here what belongs to a layer stands
with it, and the flags of a pass are a list over the layers left, with those
of the items last. A struct without a bitmap is passed straight through in the
source; it is always valid, and visiting it does the same.
-/

namespace NanoLance

namespace RepDef

open List Lib

/-- A layer of a nested column: a list, with offsets into the next layer, or a struct, with one
    child per entry. Either pointer can be null. -/
structure SerializeLayer where
  isList : Bool
  offsets : Option (List Int) := none
  validity : Option (List Nat) := none
  deriving DecidableEq, Repr

inductive SerializeError
  | refused (message : String)
  | outOfBounds
  deriving DecidableEq, Repr

/-- An entry past the end of a bitmap is null. -/
def validAt (bits : Option (List Nat)) (i : Nat) : Bool :=
  match bits with
  | none => true
  | some bytes => bytes.isEmpty || bitAt bytes i

/-- What occurs among the entries serialized, at one layer. -/
structure LayerFlags where
  hasNull : Bool := false
  hasEmpty : Bool := false
  deriving DecidableEq, Repr

def LayerFlags.merge (f g : LayerFlags) : LayerFlags :=
  { hasNull := f.hasNull || g.hasNull, hasEmpty := f.hasEmpty || g.hasEmpty }

/-- What the first pass finds: the flags of the layers left and of the items, and how many levels
    and value slots the second pass will write. -/
structure Counts where
  flags : List LayerFlags
  levels : Nat
  items : Nat
  deriving DecidableEq, Repr

/-- `merge_counts`. -/
def Counts.merge (a b : Counts) : Counts :=
  { flags := zipWith LayerFlags.merge a.flags b.flags
    levels := a.levels + b.levels
    items := a.items + b.items }

/-- The counts before anything is visited, over `n` layers left. -/
def Counts.zero (n : Nat) : Counts :=
  { flags := replicate (n + 1) {}, levels := 0, items := 0 }

/-- `list_depth_`: how many list layers there are among those left, a sixteen bit number. -/
def listDepth (layers : List SerializeLayer) : Nat :=
  layers.countP (·.isList) % 2 ^ 16

/-- `mark_hidden_nulls`: the layers inside a null struct share its index down to the first list,
    and a null there makes its layer nullable though no level shows it. -/
def hiddenNulls (items : List Nat) (idx : Nat) : List SerializeLayer → List LayerFlags
  | [] => [{ hasNull := !validAt (some items) idx }]
  | layer :: inner =>
      { hasNull := !validAt layer.validity idx } ::
        (if layer.isList then replicate (inner.length + 1) {}
         else hiddenNulls items idx inner)

/-- Where list `idx` begins and ends. -/
def listBounds (k : Nat) (layer : SerializeLayer) (idx : Nat) :
    Except SerializeError (Int × Int) :=
  let offsets := layer.offsets.getD []
  if offsets.length ≤ (idx + 1) % 2 ^ 64 then
    .error (.refused s!"list layer {k} has too few offsets")
  else
    match offsets[idx]?, offsets[(idx + 1) % 2 ^ 64]? with
    | some first, some last => .ok (first, last)
    | _, _ => .error .outOfBounds

/-- The indices of a list's children, as sixty-four bit numbers. -/
def childIndices (first last : Int) : List Nat :=
  (range (last - first).toNat).map fun i => ((first + i) % 2 ^ 64).toNat

/-- The first pass over entry `idx` of layer `k`. -/
def countVisit (items : List Nat) : Nat → List SerializeLayer → Nat → Except SerializeError Counts
  | _, [], idx =>
      .ok { flags := [{ hasNull := !validAt (some items) idx }], levels := 1, items := 1 }
  | k, layer :: inner, idx =>
      if !layer.isList then
        if validAt layer.validity idx then do
          let below ← countVisit items (k + 1) inner idx
          return { below with flags := {} :: below.flags }
        else
          .ok
            { flags := { hasNull := true } :: hiddenNulls items idx inner
              levels := 1
              items := if listDepth inner ≠ 0 then 0 else 1 }
      else do
        let (first, last) ← listBounds k layer idx
        let none := replicate (inner.length + 1) {}
        if !validAt layer.validity idx then
          .ok { flags := { hasNull := true } :: none, levels := 1, items := 0 }
        else if last < first then
          .error (.refused s!"list layer {k} has decreasing offsets")
        else if last = first then
          .ok { flags := { hasEmpty := true } :: none, levels := 1, items := 0 }
        else do
          let below ← (childIndices first last).foldlM
            (fun (counts : Counts) child => do
              let more ← countVisit items (k + 1) inner child
              return counts.merge more)
            (Counts.zero inner.length)
          return { below with flags := {} :: below.flags }

/-- The kind of a layer in which `flags` occur. -/
def kindOfFlags (isList : Bool) (flags : LayerFlags) : LayerKind :=
  if isList then
    match flags.hasNull, flags.hasEmpty with
    | true, true => .nullAndEmptyList
    | true, false => .nullableList
    | false, true => .emptyableList
    | false, false => .allValidList
  else if flags.hasNull then .nullableItem
  else .allValidItem

/-- A layer with the definition levels of its nulls and empties, 0 where it has none. -/
structure NumberedLayer where
  layer : SerializeLayer
  nullLevel : Nat
  emptyLevel : Nat
  deriving DecidableEq, Repr

/-- The layers with their definition levels, the items' null level, the next level to give out and
    the kinds, innermost first. -/
structure Assigned where
  layers : List NumberedLayer
  itemNull : Nat
  next : Nat
  kinds : List LayerKind
  deriving DecidableEq, Repr

/-- Fix every layer's kind, and number the definition levels from the items outward. -/
def assignLevels : List SerializeLayer → List LayerFlags → Assigned
  | [], flags =>
      let kind := kindOfFlags false (flags.headD {})
      if kind = .nullableItem then { layers := [], itemNull := 1, next := 2, kinds := [kind] }
      else { layers := [], itemNull := 0, next := 1, kinds := [kind] }
  | layer :: inner, flags =>
      let below := assignLevels inner flags.tail
      let kind := kindOfFlags layer.isList (flags.headD {})
      let numbered :=
        match kind with
        | .nullableItem | .nullableList => { layer, nullLevel := below.next, emptyLevel := 0 }
        | .emptyableList => { layer, nullLevel := 0, emptyLevel := below.next }
        | .nullAndEmptyList =>
            { layer, nullLevel := below.next, emptyLevel := next16 below.next }
        | .allValidItem | .allValidList => { layer, nullLevel := 0, emptyLevel := 0 }
      let next :=
        match kind with
        | .nullableItem | .nullableList | .emptyableList => next16 below.next
        | .nullAndEmptyList => next16 (next16 below.next)
        | .allValidItem | .allValidList => below.next
      { layers := numbered :: below.layers
        itemNull := below.itemNull
        next := next
        kinds := below.kinds ++ [kind] }

/-- `kNoSlot`: a level that owns no value slot. -/
def noSlot : Nat :=
  2 ^ 64 - 1

/-- What the second pass writes for one level. -/
structure Push where
  rep : Nat
  defn : Nat
  slot : Nat
  deriving DecidableEq, Repr

/-- Put one after another what a visit writes for each of `indices`: the first one begins with the
    repetition level `rep`, the others with `continuation`. -/
def emitChildren (visit : Nat → Nat → Except SerializeError (List Push)) (continuation : Nat) :
    List Nat → Nat → Except SerializeError (List Push)
  | [], _ => .ok []
  | child :: rest, rep => do
      let pushes ← visit child rep
      let more ← emitChildren visit continuation rest continuation
      return pushes ++ more

/-- The second pass over entry `idx` of layer `k`, which begins with the repetition level `rep`. -/
def emitVisit (items : List Nat) (itemNull : Nat) :
    Nat → List NumberedLayer → Nat → Nat → Except SerializeError (List Push)
  | _, [], idx, rep =>
      .ok [{ rep, defn := if validAt (some items) idx then 0 else itemNull, slot := idx }]
  | k, numbered :: inner, idx, rep =>
      let layer := numbered.layer
      let below := inner.map (·.layer)
      if !layer.isList then
        if validAt layer.validity idx then emitVisit items itemNull (k + 1) inner idx rep
        else
          .ok [{ rep, defn := numbered.nullLevel
                 slot := if listDepth below ≠ 0 then noSlot else idx }]
      else do
        let (first, last) ← listBounds k layer idx
        if !validAt layer.validity idx then
          .ok [{ rep, defn := numbered.nullLevel, slot := noSlot }]
        else if last < first then
          .error (.refused s!"list layer {k} has decreasing offsets")
        else if last = first then
          .ok [{ rep, defn := numbered.emptyLevel, slot := noSlot }]
        else
          -- each later child starts a new entry one list level in
          emitChildren (emitVisit items itemNull (k + 1) inner)
            ((listDepth (layer :: below) + (2 ^ 16 - 1)) % 2 ^ 16) (childIndices first last) rep

/-- Levels for a run of rows. -/
structure Serialized where
  rep : List Nat
  defs : List Nat
  layers : List Nat
  items : List Nat
  isSlot : List Bool
  hasRep : Bool
  hasDef : Bool
  deriving DecidableEq, Repr

/-- `check`. -/
def checkLayers (layers : List SerializeLayer) (firstRow numRows : Nat) :
    Except SerializeError Unit := do
  for (layer, k) in layers.zipIdx do
    ensure (!(layer.isList && (layer.offsets.getD []).isEmpty))
      (.refused s!"list layer {k} has no offsets")
  ensure
    (!(layers.head?.any fun layer =>
      layer.isList &&
        decide ((layer.offsets.getD []).length < (firstRow + numRows + 1) % 2 ^ 64)))
    (.refused "rows past the end of the outermost list")

/-- The first pass over some rows. -/
def countRows (layers : List SerializeLayer) (items : List Nat) (rows : List Nat) :
    Except SerializeError Counts :=
  rows.foldlM
    (fun (counts : Counts) row => do
      let more ← countVisit items 0 layers row
      return counts.merge more)
    (Counts.zero layers.length)

/-- Fill an output that the first pass sized: what is not written stays 0. -/
def fill (size : Nat) (written : List Nat) : List Nat :=
  written ++ replicate (size - written.length) 0

/-- The value slots among what is written. -/
def slotsOf (pushes : List Push) : List Nat :=
  (pushes.map (·.slot)).filter (· != noSlot)

/-- The second pass over some rows: their levels, and their value slots in the places counted for
    them. -/
def emitRows (items : List Nat) (assigned : Assigned) (rowRep : Nat) (rows : List Nat)
    (counts : Counts) : Except SerializeError (List Push × List Nat) := do
  let pushes ← emitChildren (emitVisit items assigned.itemNull 0 assigned.layers) rowRep rows rowRep
  return (pushes, fill counts.items (slotsOf pushes))

/-- The rows of each part, when both passes run over parts of the rows side by side. -/
def partRows (threads firstRow numRows : Nat) : List (List Nat) :=
  let parts := min threads (numRows / 8192)
  if 1 < parts then
    (range parts).map fun k =>
      let rowOf := fun k => firstRow + numRows * k / parts
      range' (rowOf k) (rowOf (k + 1) - rowOf k)
  else [range' firstRow ((firstRow + numRows) % 2 ^ 64 - firstRow)]

/-- The outputs, sized by the first pass and written by the second. A stream that no layer needs is
    left empty. -/
def assemble (rowRep : Nat) (assigned : Assigned) (counts : Counts)
    (written : List (List Push × List Nat)) : Serialized :=
  let hasRep := rowRep != 0
  let hasDef := decide (1 < assigned.next)
  let pushes := (written.map Prod.fst).flatten
  { rep := if hasRep then fill counts.levels (pushes.map (·.rep)) else []
    defs := if hasDef then fill counts.levels (pushes.map (·.defn)) else []
    layers := assigned.kinds.map LayerKind.code
    items := (written.map Prod.snd).flatten
    isSlot := if hasRep || hasDef then pushes.map (·.slot != noSlot) else []
    hasRep := hasRep
    hasDef := hasDef }

/-- Serialize the rows from `firstRow` on: both passes over every part. -/
def serialize (threads : Nat) (layers : List SerializeLayer) (items : List Nat)
    (firstRow numRows : Nat) : Except SerializeError Serialized := do
  checkLayers layers firstRow numRows
  let counted ← (partRows threads firstRow numRows).mapM fun rows => do
    let counts ← countRows layers items rows
    return (rows, counts)
  let counts := (counted.map Prod.snd).foldl Counts.merge (Counts.zero layers.length)
  let assigned := assignLevels layers counts.flags
  let written ← counted.mapM fun (rows, counts) =>
    emitRows items assigned (listDepth layers) rows counts
  return assemble (listDepth layers) assigned counts written

end RepDef

end NanoLance
