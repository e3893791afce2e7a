import NanoLance.Lib.Bitmap
import NanoLance.Lib.Outcome

/-!
# Unraveling Repetition and Definition Levels

A page of a nested column holds its values and two streams of levels. The
repetition level of a value says how many of the lists around it begin there;
the definition level says which layer, if any, is null or empty at that place.
`unravel` peels the layers off from the inside: an item or struct layer turns
into a bitmap, a list layer into offsets and a bitmap, and the levels that
begin no list at that layer are dropped before the next one.

The streams, the layer list and the item count all come from the file. The
level arithmetic is on sixteen bits and wraps, and the reader indexes the
definition levels by the position of a repetition level: where the two streams
are not of one length the read is out of bounds, which is an outcome of its
own here.

## Theorems

* `kindOf_code`: Every layer kind is read back from its code.
-/

namespace NanoLance

namespace RepDef

open Lib

/-- What a layer of the descriptor says can occur in it. -/
inductive LayerKind
  | allValidItem | allValidList | nullableItem | nullableList | emptyableList | nullAndEmptyList
  deriving DecidableEq, Repr

def LayerKind.code : LayerKind → Nat
  | .allValidItem => 1
  | .allValidList => 2
  | .nullableItem => 3
  | .nullableList => 4
  | .emptyableList => 5
  | .nullAndEmptyList => 6

def kindOf : Nat → Option LayerKind
  | 1 => some .allValidItem
  | 2 => some .allValidList
  | 3 => some .nullableItem
  | 4 => some .nullableList
  | 5 => some .emptyableList
  | 6 => some .nullAndEmptyList
  | _ => none

theorem kindOf_code (k : LayerKind) : kindOf k.code = some k := by
  cases k <;> rfl

def LayerKind.isItem : LayerKind → Bool
  | .allValidItem | .nullableItem => true
  | .allValidList | .nullableList | .emptyableList | .nullAndEmptyList => false

/-- A layer of items or structs, by the code the file gives for it. -/
def isItemLayer (code : Nat) : Bool :=
  code == LayerKind.allValidItem.code || code == LayerKind.nullableItem.code

/-- One layer of the result. Items and structs have validity only; lists have offsets too.
    The bitmap is least significant bit first, and empty when every entry is valid. -/
structure UnraveledLayer where
  kind : LayerKind
  length : Nat := 0
  offsets : List Nat := []
  validity : List Nat := []
  nullCount : Nat := 0
  deriving DecidableEq, Repr

/-- Append one entry's validity. Every entry is valid until the first null, so the bitmap is only
    materialized then; after that a byte is added every eighth entry. -/
def appendBit (layer : UnraveledLayer) (valid : Bool) : UnraveledLayer :=
  let i := layer.length
  if layer.validity.isEmpty then
    if valid then { layer with length := i + 1 }
    else
      { layer with
        length := i + 1
        validity := List.replicate (i / 8) 255 ++ [2 ^ (i % 8) - 1]
        nullCount := layer.nullCount + 1 }
  else
    let bytes := if i % 8 = 0 then layer.validity ++ [0] else layer.validity
    if valid then { layer with length := i + 1, validity := orLast bytes (2 ^ (i % 8)) }
    else { layer with length := i + 1, validity := bytes, nullCount := layer.nullCount + 1 }

/-- Why `unravel` gives no layers: it refused the page, or it read past the definition levels. -/
inductive UnravelError
  | refused (message : String)
  | outOfBounds
  deriving DecidableEq, Repr

/-- `kInferItems`: the page does not declare its item count. -/
def inferItems : Nat :=
  2 ^ 64 - 1

/-- The arguments of `unravel`. The levels are sixteen bit numbers. -/
structure Page where
  rep : List Nat
  hasRep : Bool
  defs : List Nat
  hasDef : Bool
  layers : List Nat
  numItems : Nat
  deriving DecidableEq, Repr

/-- Sixteen bit increment. -/
def next16 (n : Nat) : Nat :=
  (n + 1) % 2 ^ 16

/-- The layer kinds, or the refusal of a code that is none. -/
def decodeKinds : List Nat → Except UnravelError (List LayerKind)
  | [] => .ok []
  | code :: codes =>
      match kindOf code with
      | none => .error (.refused s!"unknown repetition/definition layer {code}")
      | some kind => do
          let kinds ← decodeKinds codes
          return kind :: kinds

/-- `num_lists` after one more layer. -/
def listsAfter (numLists : Nat) (kind : LayerKind) : Nat :=
  if kind.isItem then numLists else next16 numLists

/-- The entries of `levels_to_rep` that one layer adds, with `numLists` lists up to and
    including it. -/
def levelsOf (numLists : Nat) : LayerKind → List Nat
  | .allValidItem | .allValidList => []
  | .nullableItem | .nullableList | .emptyableList => [numLists]
  | .nullAndEmptyList => [numLists, numLists]

/-- `levels_to_rep` without its first entry, and `num_lists`, over the layers that remain. -/
def levelTableFrom (numLists : Nat) : List LayerKind → List Nat × Nat
  | [] => ([], numLists)
  | kind :: kinds =>
      let n := listsAfter numLists kind
      let rest := levelTableFrom n kinds
      (levelsOf n kind ++ rest.1, rest.2)

/-- `levels_to_rep[d]`: the repetition depth at which definition level `d` is visible. Level 0, a
    valid item, is visible everywhere. -/
def levelTable (kinds : List LayerKind) : List Nat :=
  0 :: (levelTableFrom 0 kinds).1

def numLists (kinds : List LayerKind) : Nat :=
  (levelTableFrom 0 kinds).2

/-- `max_def`, a sixteen bit number. -/
def maxDef (kinds : List LayerKind) : Nat :=
  ((levelTable kinds).length - 1) % 2 ^ 16

/-- What `unravel` checks of the streams before it peels a layer off. -/
def checkLevels (page : Page) (kinds : List LayerKind) : Except UnravelError Unit := do
  ensure ((numLists kinds != 0) == page.hasRep) (.refused
    (if page.hasRep then "repetition levels on a column with no list layer"
     else "a list layer with no repetition levels"))
  ensure (!(page.hasRep && page.hasDef && page.rep.length != page.defs.length)) (.refused
    ("repetition and definition level counts differ (" ++ toString page.rep.length ++ " vs " ++
      toString page.defs.length ++ ")"))
  ensure (!(!page.hasRep && page.hasDef && page.numItems != inferItems &&
      page.defs.length != page.numItems)) (.refused
    ("definition levels cover " ++ toString page.defs.length ++ " items, the page holds " ++
      toString page.numItems))
  ensure (!(page.hasDef && page.defs.any (maxDef kinds < ·))) (.refused
    s!"definition level above the layers' maximum of {maxDef kinds}")
  ensure (!(page.hasRep && page.rep.any (numLists kinds < ·))) (.refused
    s!"repetition level above the {numLists kinds} list layers")
  ensure (!(page.hasRep && page.rep.head?.any (· != numLists kinds))) (.refused
    "repetition levels do not start at a row boundary")

/-- What is left of the streams at a layer, with `def_cmp` and `rep_cmp`. -/
structure Levels where
  rep : List Nat
  defs : List Nat
  defCmp : Nat
  repCmp : Nat
  deriving DecidableEq, Repr

/-- The entries of an item or struct layer: the levels visible at its depth. -/
def itemEntries (table : List Nat) (nullable : Bool) (levels : Levels) (layer : UnraveledLayer) :
    UnraveledLayer :=
  levels.defs.foldl (fun layer level =>
    if table.getD level 0 ≤ levels.repCmp then
      appendBit layer (!nullable || level ≤ levels.defCmp)
    else layer) layer

/-- The entries of an item or struct layer: one for each level, or for each declared item, where
    there are no definition levels. -/
def itemLayerEntries (page : Page) (table : List Nat) (kind : LayerKind) (levels : Levels) :
    Except UnravelError UnraveledLayer :=
  if page.hasDef then
    .ok (itemEntries table (kind == .nullableItem) levels { kind := kind })
  else if !page.hasRep && page.numItems == inferItems then
    .error (.refused "an item count is needed when there are no levels to infer it from")
  else
    .ok { kind := kind, length := if page.hasRep then levels.rep.length else page.numItems }

/-- The first layer has the declared number of items; a struct above a list has one entry for each
    of that layer's lists. -/
def checkItemLayer (page : Page) (li : Nat) (inner : Option UnraveledLayer)
    (layer : UnraveledLayer) : Except UnravelError Unit :=
  match inner with
  | none =>
      ensure (page.numItems == inferItems || layer.length == page.numItems) (.refused
        s!"levels describe {layer.length} items, the page holds {page.numItems}")
  | some inner =>
      ensure (layer.length == inner.length) (.refused
        ("struct layer " ++ toString li ++ " has " ++ toString layer.length ++
          " entries over " ++ toString inner.length ++ " lists"))

/-- Peel an item or struct layer off. `inner` is the layer inside it, if there is one, and `li` its
    place in the layer list. -/
def itemLayer (page : Page) (table : List Nat) (li : Nat) (kind : LayerKind)
    (inner : Option UnraveledLayer) (levels : Levels) :
    Except UnravelError (UnraveledLayer × Levels) := do
  let layer ← itemLayerEntries page table kind levels
  checkItemLayer page li inner layer
  return (layer, { levels with
    defCmp := if kind = .nullableItem then next16 levels.defCmp else levels.defCmp })

/-- What the definition levels mean at a list layer. A level of 0 for `null` or `empty` stands for
    none. -/
structure ListLevels where
  null : Nat
  empty : Nat
  upperNull : Nat
  max : Nat
  defCmp : Nat
  deriving DecidableEq, Repr

/-- The nullable structs directly above a list raise its highest level: a null struct masks the
    list, which then reads as null. -/
def raise (max : Nat) (outer : List LayerKind) : Nat :=
  (outer.takeWhile LayerKind.isItem).foldl
    (fun max kind => if kind = .nullableItem then next16 max else max) max

/-- The levels of a list layer whose valid level is `defCmp` and over which the layers `outer`
    stand. -/
def listLevels (defCmp : Nat) (kind : LayerKind) (outer : List LayerKind) : ListLevels :=
  let plus (n : Nat) := (defCmp + n) % 2 ^ 16
  let null := if kind = .nullableList ∨ kind = .nullAndEmptyList then plus 1 else 0
  let empty :=
    if kind = .emptyableList then plus 1
    else if kind = .nullAndEmptyList then plus 2
    else 0
  let upperNull := Nat.max (Nat.max null empty) defCmp
  { null, empty, upperNull
    max := raise upperNull outer
    defCmp :=
      if kind = .nullAndEmptyList then plus 2
      else if kind = .allValidList then defCmp
      else plus 1 }

/-- What a list layer has read so far: `curlen`, the layer with its offsets, and the levels that
    go on to the next layer. -/
structure ListRead where
  curlen : Nat := 0
  layer : UnraveledLayer
  rep : List Nat := []
  defs : List Nat := []
  deriving DecidableEq, Repr

/-- A list begins here: its offset is the number of children so far, and its first child, if it
    has one at this level, follows. -/
def ListRead.start (s : ListRead) (child valid : Bool) : ListRead :=
  { s with
    layer := appendBit { s.layer with offsets := s.layer.offsets ++ [s.curlen] } valid
    curlen := if child then s.curlen + 1 else s.curlen }

/-- The entry that a level with definition level `d` begins at this layer. -/
def ListRead.enter (l : ListLevels) (d : Nat) (s : ListRead) : ListRead :=
  if d = 0 then s.start true true
  else if l.max < d then s  -- an outer layer's null or empty list: no list here
  else if (l.null ≠ 0 ∧ d = l.null) ∨ l.upperNull < d then s.start false false
  else if l.empty ≠ 0 ∧ d = l.empty then s.start false true
  else s.start true true  -- a valid list whose first child is null

/-- The loop over the levels of a list layer. The definition level is read at the position of the
    repetition level, and only where that one is not 0. -/
def readLists (hasDef : Bool) (l : ListLevels) :
    List Nat → List Nat → ListRead → Except UnravelError ListRead
  | [], _, s => .ok s
  | 0 :: rep, defs, s => readLists hasDef l rep defs.tail { s with curlen := s.curlen + 1 }
  | (r + 1) :: rep, defs, s =>
      if hasDef then
        match defs with
        | [] => .error .outOfBounds
        | d :: defs =>
            readLists hasDef l rep defs
              (ListRead.enter l d { s with rep := s.rep ++ [r], defs := s.defs ++ [d] })
      else readLists hasDef l rep defs ({ s with rep := s.rep ++ [r] }.start true true)

/-- Peel a list layer off, over the layer `inner` and under the layers `outer`. -/
def listLayer (page : Page) (li : Nat) (kind : LayerKind) (outer : List LayerKind)
    (inner : UnraveledLayer) (levels : Levels) :
    Except UnravelError (UnraveledLayer × Levels) := do
  let l := listLevels levels.defCmp kind outer
  let read ← readLists page.hasDef l levels.rep levels.defs { layer := { kind := kind } }
  ensure (read.curlen == inner.length) (.refused
    ("list layer " ++ toString li ++ " covers " ++ toString read.curlen ++
      " children but the layer inside it has " ++ toString inner.length))
  return ({ read.layer with offsets := read.layer.offsets ++ [read.curlen] },
    { rep := read.rep, defs := read.defs, defCmp := l.defCmp, repCmp := next16 levels.repCmp })

/-- Peel one layer off. The first layer holds items, so a list layer has a layer inside it. -/
def peelLayer (page : Page) (table : List Nat) (li : Nat) (kind : LayerKind)
    (outer : List LayerKind) (inner : Option UnraveledLayer) (levels : Levels) :
    Except UnravelError (UnraveledLayer × Levels) :=
  if kind.isItem then itemLayer page table li kind inner levels
  else listLayer page li kind outer (inner.getD { kind := kind }) levels

/-- Peel the layers that remain off, over the layer `inner`. -/
def unravelFrom (page : Page) (table : List Nat) :
    Nat → List LayerKind → Option UnraveledLayer → Levels →
      Except UnravelError (List UnraveledLayer)
  | _, [], _, _ => .ok []
  | li, kind :: outer, inner, levels => do
      let peeled ← peelLayer page table li kind outer inner levels
      let rest ← unravelFrom page table (li + 1) outer (some peeled.1) peeled.2
      return peeled.1 :: rest

/-- Unravel one page: its layers, innermost first. -/
def unravel (page : Page) : Except UnravelError (List UnraveledLayer) := do
  ensure (page.layers.head?.any isItemLayer)
    (.refused "repetition/definition layers must start with an item layer")
  let kinds ← decodeKinds page.layers
  checkLevels page kinds
  unravelFrom page (levelTable kinds) 0 kinds none
    { rep := page.rep, defs := if page.hasDef then page.defs else [], defCmp := 0, repCmp := 0 }

end RepDef

end NanoLance
