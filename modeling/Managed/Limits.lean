import Managed.Space.Basic
import Managed.Toml.Document

/-!
# Reading limits

The limits of an object space are given by a TOML document with the tables `gc` and `arrays`. What
is not given keeps its default, and what is not known is ignored. A table may also be given as an
array of its values in order; a point in time counts as a table that holds nothing known.
-/

namespace Managed

namespace Toml

/-- The values of the named fields of a table. -/
def fields? (names : List String) : Option Value → Option (List (Option Value))
  | none => some (names.map fun _ => none)
  | some (.table _ entries) => some (names.map (List.lookup · entries))
  | some (.inline entries) => some (names.map (List.lookup · entries))
  | some (.array elements) => some (names.zipIdx.map fun (_, i) => elements[i]?)
  | some .moment => some (names.map fun _ => none)
  | some _ => none

/-- A natural number of at most `greatest`, or the default if there is no value. -/
def natural? (greatest default : Nat) : Option Value → Option Nat
  | none => some default
  | some (.integer n) => if 0 ≤ n ∧ n ≤ greatest then some n.toNat else none
  | some _ => none

end Toml

open Toml

def HeapLimits.ofValue? (v : Option Value) : Option HeapLimits := do
  let d : HeapLimits := {}
  match ← fields? ["nursery_threshold", "max_objects", "nursery_budget"] v with
  | [threshold, objects, budget] =>
    let threshold ← natural? (UInt32.size - 1) d.nurseryThreshold.toNat threshold
    return {
      nurseryThreshold := threshold.toUInt32
      maxObjects := ← natural? Word.max d.maxObjects objects
      nurseryBudget := ← natural? Word.max d.nurseryBudget budget }
  | _ => none

def ArrayLimits.ofValue? (v : Option Value) : Option ArrayLimits := do
  let d : ArrayLimits := {}
  match ← fields? ["max_elements", "growth_threshold", "small_growth_increment"] v with
  | [elements, threshold, increment] =>
    return {
      maxElements := ← natural? Word.max d.maxElements elements
      growthThreshold := ← natural? Word.max d.growthThreshold threshold
      smallGrowthIncrement := ← natural? Word.max d.smallGrowthIncrement increment }
  | _ => none

namespace SpaceLimits

inductive ReadError where
  | unreadable (path : String)
  | malformed
deriving DecidableEq, Repr

def ReadError.message : ReadError → String
  | unreadable path => "failed to read configuration file " ++ path
  | malformed => "invalid configuration"

def parse (text : String) : Except ReadError SpaceLimits :=
  let limits := do
    let document ← Toml.parse? text
    return {
      heap := ← HeapLimits.ofValue? (document.find? "gc")
      arrays := ← ArrayLimits.ofValue? (document.find? "arrays") : SpaceLimits }
  match limits with
  | some limits => .ok limits
  | none => .error .malformed

/-- The limits given by a file, `contents` being what could be read from it. -/
def load (path : String) (contents : Option String) : Except ReadError SpaceLimits :=
  match contents with
  | some text => parse text
  | none => .error (.unreadable path)

end SpaceLimits

end Managed
