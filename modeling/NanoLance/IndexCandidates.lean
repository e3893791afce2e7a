import NanoLance.IndexSearch
import NanoLance.Lib.Merge

/-!
# Candidates a Scalar Index Leaves

A filter is answered from the scalar indices as far as they go. Each test of a
column is given to the indices of its field, in the manifest's order, and the
first one all of whose segments answer is used. The answers are put together up
the tree of the filter: an AND intersects them where both speak of a fragment,
an OR unites them there, and a NOT has none.

What a segment answers with is what its files hold: row addresses as they were
when it was built, or the ids of rows that keep theirs. Both are turned into
addresses of the version that is read, the first by the fragment reuse index.
The searches of the segments' files are not modelled here; `Searches` has what
they return.

## Main definitions

* `predicateAnswer`, `conditionAnswer`, `indexCandidates`: The answer to a test,
  to a filter, and the candidates of a scan.
-/

namespace NanoLance

namespace IndexAnswers

open Lib

/-! ## Row sets -/

/-- Offsets by fragment, each fragment once. -/
abbrev Rows := List (Nat × List Nat)

/-- The offsets of a fragment. -/
def Rows.offsets (rows : Rows) (fragment : Nat) : List Nat :=
  ((rows.find? (fun e => e.1 = fragment)).map Prod.snd).getD []

/-- The offsets of a fragment changed, of a new one from none. -/
def Rows.modify (rows : Rows) (fragment : Nat) (change : List Nat → List Nat) : Rows :=
  if rows.any (fun e => e.1 = fragment) then
    rows.map (fun e => if e.1 = fragment then (e.1, change e.2) else e)
  else rows ++ [(fragment, change [])]

/-- Offsets put behind those of a fragment. -/
def Rows.push (rows : Rows) (fragment : Nat) (offsets : List Nat) : Rows :=
  rows.modify fragment (· ++ offsets)

/-- Every row as an address. -/
def Rows.addresses (rows : Rows) : List Nat :=
  rows.flatMap (fun e => e.2.map (rowAddress e.1))

/-- An answer: for each fragment in `covered` the rows that may pass, ascending. -/
structure RowSet where
  covered : List Nat := []
  rows : Rows := []
  /-- The rows are exactly those that pass. -/
  exact : Bool := false
  deriving DecidableEq, Repr

def sameFragments (a b : List Nat) : Bool :=
  a.all (fun f => f ∈ b) && b.all (fun f => f ∈ a)

/-- The rows of some fragments, those without any left out. -/
def rowsOver (fragments : List Nat) (rows : Nat → List Nat) : Rows :=
  fragments.filterMap (fun f => if (rows f).isEmpty then none else some (f, rows f))

/-- Both sides of an AND. A fragment only one side covers keeps that side's rows. -/
def both (a b : RowSet) : RowSet where
  covered := a.covered ++ b.covered
  rows := rowsOver (a.covered ++ b.covered).dedup (fun f =>
    if f ∈ a.covered && f ∈ b.covered then
      setIntersection (a.rows.offsets f) (b.rows.offsets f)
    else if f ∈ a.covered then a.rows.offsets f
    else b.rows.offsets f)
  exact := a.exact && b.exact && sameFragments a.covered b.covered

/-- Both sides of an OR, where both cover the fragment. -/
def either (a b : RowSet) : RowSet where
  covered := a.covered.filter (fun f => f ∈ b.covered)
  rows := rowsOver (a.covered.filter (fun f => f ∈ b.covered)).dedup (fun f =>
    setUnion (a.rows.offsets f) (b.rows.offsets f))
  exact := a.exact && b.exact

/-! ## Addresses -/

/-- A version of the fragment reuse index rewrote the fragment. -/
def touches (steps : List RemapStep) (fragment : Nat) : Bool :=
  steps.any (fun step => (step.find? fragment).isSome)

/-- A row moved, left out when it is gone. -/
def moveRow (place : Nat → Option Nat) (moved : Rows) (address : Nat) : Rows :=
  match place address with
  | some address => moved.push (fragmentOf address) [offsetOf address]
  | none => moved

def moveRows (place : Nat → Option Nat) (moved : Rows) (addresses : List Nat) : Rows :=
  addresses.foldl (moveRow place) moved

/-- The rows where the fragment reuse index says they are now. -/
def remapRows (steps : List RemapStep) (rows : Rows) : Rows :=
  (rows.foldl (fun (moved : Rows) e =>
    if !touches steps e.1 then moved.push e.1 e.2
    else moveRows (resolve steps) moved (e.2.map (rowAddress e.1))) []).map
    (fun e => (e.1, ascending e.2))

/-- Row ids as the addresses of their rows. -/
def toAddresses (find : Nat → Option Nat) (rows : Rows) : Rows :=
  (moveRows find [] rows.addresses).map (fun e => (e.1, e.2.insertionSort (· ≤ ·)))

/-! ## Fields and predicates -/

/-- A test of a column. `json` is set when the column is read through a JSON accessor. -/
structure Predicate (τ : Type) where
  column : List String
  json : Bool
  test : τ

def lower (s : String) : String := s.map Char.toLower

/-- The child of a field with a name: the exact one, else the only one up to case. -/
def childNamed (fields : List Field) (parent : Int) (name : String) : Option Field :=
  match fields.find? (fun f => f.parentId = parent && f.name = name) with
  | some f => some f
  | none =>
    match fields.filter (fun f => f.parentId = parent && lower f.name = lower name) with
    | [f] => some f
    | _ => none

/-- The field at the end of a path of names. -/
def walkPath (fields : List Field) : Int → List String → Option Field
  | _, [] => none
  | parent, [name] => childNamed fields parent name
  | parent, name :: rest =>
    match childNamed fields parent name with
    | some f => walkPath fields f.id rest
    | none => none

/-- The field a column path names: one whose name is the whole path, else the
    one the path leads to. -/
def fieldOf (fields : List Field) (path : List String) : Option Field :=
  let joined := path.foldl (fun joined name =>
    joined ++ ((if joined.isEmpty then "" else ".") ++ name)) ""
  if 1 < path.length then
    match childNamed fields (-1) joined with
    | some f => some f
    | none => walkPath fields (-1) path
  else walkPath fields (-1) path

/-! ## Segments -/

/-- The searches there are. -/
inductive IndexKind where
  | json
  | btree
  | bloomFilter
  | zoneMap
  | bitmap
  | labelList
  | nGram
  deriving DecidableEq, Repr

def jsonUrl : String := "/lance.index.pb.JsonIndexDetails"

def bloomUrl : String := "/lance.index.pb.BloomFilterIndexDetails"

def zoneMapUrl : String := "/lance.table.ZoneMapIndexDetails"

/-- The search a segment is answered by, if any. -/
def kindOf (index : IndexMetadata) : Option IndexKind :=
  let url := index.detailsTypeUrl
  if url = jsonUrl then some .json
  else if url = "/lance.table.BTreeIndexDetails" && index.files.length = 2 &&
      index.files.any (fun file => file.1 = "page_lookup.lance") then some .btree
  else if url = bloomUrl && !index.files.isEmpty then some .bloomFilter
  else if url = zoneMapUrl && !index.files.isEmpty then some .zoneMap
  else if url = "/lance.table.BitmapIndexDetails" && !index.files.isEmpty then some .bitmap
  else if url = "/lance.table.LabelListIndexDetails" && !index.files.isEmpty then some .labelList
  else if url = "/lance.table.NGramIndexDetails" && !index.files.isEmpty then some .nGram
  else none

/-- The segment holds row addresses, whether or not rows have ids. -/
def zoned (index : IndexMetadata) : Bool :=
  index.detailsTypeUrl = zoneMapUrl || index.detailsTypeUrl = bloomUrl

/-- The rows of the segment's answers are exactly those that pass. -/
def IndexKind.exact : IndexKind → Bool
  | .btree | .bitmap => true
  | _ => false

/-- What the files of the indices answer: where a segment's files are, its rows for a test if it
    answers it, and how a test is printed. -/
structure Searches (τ : Type) where
  dir : IndexMetadata → Except String Unit
  search : IndexKind → IndexMetadata → Predicate τ → Except String (Option Rows)
  text : Predicate τ → String

section Answers

variable {τ : Type} (env : Searches τ) (m : Manifest) (steps : Option (List RemapStep))
  (rowIds : Option (Nat → Option Nat))

/-- A segment's own answer, and whether it is exact. -/
def searchSegment (index : IndexMetadata) (p : Predicate τ) :
    Except String (Option (Rows × Bool)) := do
  env.dir index
  if (index.detailsTypeUrl = jsonUrl : Bool) != p.json then return none
  else
    match kindOf index with
    | none => return none
    | some kind => do
      let rows ← env.search kind index p
      return rows.map (fun rows => (rows, kind.exact))

/-- The rows of a segment after the fragment reuse index. Ids do not move, so that it is left out
    where rows have them. -/
def remapAnswer (rows : Rows) : Rows :=
  match steps with
  | some steps => if rowIds.isNone then remapRows steps rows else rows
  | none => rows

/-- The rows of a segment as addresses of the version that is read. -/
def placeRows (index : IndexMetadata) (rows : Rows) : Rows :=
  match rowIds with
  | some find =>
    if zoned index then remapAnswer steps rowIds rows
    else toAddresses find (remapAnswer steps rowIds rows)
  | none => remapAnswer steps rowIds rows

/-- The fragments a segment speaks for: its coverage as the fragment reuse index has it, without the
    fragments overlaid since it was built. -/
def coverageOf (index : IndexMetadata) : List Nat :=
  (reuseCoverage steps index.fragmentIds).filter (fun id => id ∉ fragmentsStaleForIndex m index)

/-- One fragment's rows of a segment, if it speaks for the fragment. -/
def mergeEntry (covered : List Nat) (all : Rows) (e : Nat × List Nat) : Rows :=
  if e.1 ∈ covered then
    all.modify e.1 (fun there => if there.isEmpty then e.2 else setUnion there e.2)
  else all

/-- A segment's rows added to the others'. -/
def addSegment (set : RowSet) (covered : List Nat) (rows : Rows) : RowSet :=
  { set with
    covered := set.covered ++ covered
    rows := rows.foldl (mergeEntry covered) set.rows }

/-- All the segments of an index, `none` when one of them does not answer. -/
def answerSegments (p : Predicate τ) : List IndexMetadata → RowSet → Bool →
    Except String (Option RowSet)
  | [], set, exact => .ok (some { set with exact := exact })
  | index :: rest, set, exact => do
    match ← searchSegment env index p with
    | none => return none
    | some (rows, exactSegment) =>
      answerSegments p rest
        (addSegment set (coverageOf m steps index) (placeRows steps rowIds index rows))
        (exact && exactSegment)

/-- A segment put to the others of its name. -/
def addNamed (groups : List (String × List IndexMetadata)) (index : IndexMetadata) :
    List (String × List IndexMetadata) :=
  if groups.any (fun g => g.1 = index.name) then
    groups.map (fun g => if g.1 = index.name then (g.1, g.2 ++ [index]) else g)
  else groups ++ [(index.name, [index])]

/-- The indices of a field, each with its segments, in the manifest's order. -/
def byName (field : Int) : List (String × List IndexMetadata) :=
  (m.indices.filter (fun index => index.fields = [field] && index.hasFragmentBitmap)).foldl
    addNamed []

def coversLive (set : RowSet) : Bool :=
  m.fragments.any (fun f => f.id % 2 ^ 32 ∈ set.covered)

/-- The type an index is named by: what stands between the last dot of its details' type and
    `IndexDetails`. -/
def typeName (url : String) : String :=
  let last := (url.toList.reverse.takeWhile (· ≠ '.')).reverse
  let name := String.ofList (last.take (last.length - "IndexDetails".length))
  if name = "Json" then "BTree" else name

/-- The first index that answers. -/
def firstAnswer (p : Predicate τ) : List (String × List IndexMetadata) →
    Except String (Option RowSet × List String)
  | [] => .ok (none, [])
  | (name, segments) :: rest => do
    match ← answerSegments env m steps rowIds p segments {} true with
    | none => firstAnswer p rest
    | some set =>
      if coversLive m set then
        let url := (segments.head?.map (·.detailsTypeUrl)).getD ""
        return (some set,
          [s!"ScalarIndexQuery: query=[{env.text p}]@{name}({typeName url})"])
      else firstAnswer p rest

/-- The answer of the field's indices to a test. -/
def predicateAnswer (p : Predicate τ) : Except String (Option RowSet × List String) :=
  match fieldOf m.fields p.column with
  | none => .ok (none, [])
  | some field => firstAnswer env m steps rowIds p (byName m field.id)

/-- A filter as an index sees it: its AND, OR and NOT over tests of a column and
    other conditions. -/
inductive Condition (τ ε : Type) where
  | predicate (p : Predicate τ)
  | and (a b : Condition τ ε)
  | or (a b : Condition τ ε)
  | not (a : Condition τ ε)
  | other (e : ε)

/-- The answer to an AND. A side without an answer may match any row: what the other leaves only
    prunes. -/
def andAnswer : Option RowSet → Option RowSet → Option RowSet
  | some a, some b => some (both a b)
  | some a, none => some { a with exact := false }
  | none, some b => some { b with exact := false }
  | none, none => none

def orAnswer : Option RowSet → Option RowSet → Option RowSet
  | some a, some b => some (either a b)
  | _, _ => none

def conditionAnswer {ε : Type} : Condition τ ε → Except String (Option RowSet × List String)
  | .predicate p => predicateAnswer env m steps rowIds p
  | .and a b => do
    let left ← conditionAnswer a
    let right ← conditionAnswer b
    return (andAnswer left.1 right.1, left.2 ++ right.2)
  | .or a b => do
    let left ← conditionAnswer a
    let right ← conditionAnswer b
    return (orAnswer left.1 right.1, left.2 ++ right.2)
  | .not _ => .ok (none, [])
  | .other _ => .ok (none, [])

end Answers

/-- What a scan is given: for each fragment listed, the rows it has to look at. -/
structure IndexCandidates where
  rows : Rows := []
  used : List String := []
  exact : Bool := false
  deriving DecidableEq, Repr

/-- What the dataset holds beside its manifest: external reuse indices, and the index of the row ids
    of its fragments, which finds the address of a live row. -/
structure DatasetFiles where
  reuse : Nat → Except String (List ReuseVersion)
  rowIdIndex : Manifest → Except String (Nat → Option Nat)

/-- The row id index of a version, `none` when rows have no ids of their own. -/
def DatasetFiles.rowIds (files : DatasetFiles) (m : Manifest) :
    Except String (Option (Nat → Option Nat)) :=
  if isStable m then (files.rowIdIndex m).map some else .ok none

/-- The candidates of a filter. -/
def indexCandidates {τ ε : Type} (files : DatasetFiles) (env : Searches τ) (m : Manifest)
    (filter : Condition τ ε) : Except String IndexCandidates :=
  if m.indices.isEmpty then .ok {}
  else do
    let steps ← loadReuse files.reuse m
    let rowIds ← files.rowIds m
    let answer ← conditionAnswer env m steps rowIds filter
    match answer.1 with
    | none => return {}
    | some set => return {
        rows := ((ascending set.covered).filter (fun f =>
          m.fragments.any (fun fragment => fragment.id % 2 ^ 32 = f))).map
          (fun f => (f, set.rows.offsets f))
        used := answer.2
        exact := set.exact }

/-! ## Counting -/

/-- A filter's count taken from the indices. -/
structure IndexCount where
  exact : Bool := false
  count : Nat := 0
  uncovered : List Nat := []
  lines : List String := []
  deriving DecidableEq, Repr

/-- The rows that are deleted, both lists ascending. -/
def deletedHits : List Nat → List Nat → Nat
  | _, [] => 0
  | deleted, row :: rest =>
    (if (deleted.dropWhile (· < row)).head? = some row then 1 else 0) +
      deletedHits (deleted.dropWhile (· < row)) rest

/-- One fragment counted. -/
def countFragment (vectors : DeletionVectors) (candidates : IndexCandidates) (out : IndexCount)
    (f : DataFragment) : Except String IndexCount :=
  match candidates.rows.find? (fun e => e.1 = f.id % 2 ^ 32) with
  | none => .ok { out with uncovered := out.uncovered ++ [f.id] }
  | some e =>
    if !candidates.exact then .ok { out with uncovered := out.uncovered ++ [f.id] }
    else do
      let deleted ← deletedRows vectors f
      return { out with count := out.count + (e.2.length - deletedHits deleted e.2) }

/-- The count of a filter, and the fragments left to scan for it. -/
def countFromIndex {τ ε : Type} (files : DatasetFiles) (vectors : DeletionVectors)
    (env : Searches τ) (m : Manifest) (filter : Condition τ ε) : Except String IndexCount := do
  let candidates ← indexCandidates files env m filter
  m.fragments.foldlM (countFragment vectors candidates)
    { exact := candidates.exact, lines := candidates.used }

end IndexAnswers

end NanoLance
