import Managed.Heap.Basic

/-!
# Why an operation fails
-/

namespace Managed

/-- The classes of managed objects. -/
inductive ObjectClass where
  | string
  | array
  | relation
  | supplier
deriving DecidableEq, Repr

def ObjectClass.name : ObjectClass → String
  | string => "String"
  | array => "Array"
  | relation => "Relation"
  | supplier => "Supplier"

/-- The operations that only arrays of one dimension have. -/
inductive LinearOperation where
  | extend
  | shrink
  | append
  | insert
  | delete
  | slice
deriving DecidableEq, Repr

def LinearOperation.name : LinearOperation → String
  | extend => "extend"
  | shrink => "shrink"
  | append => "append"
  | insert => "insert"
  | delete => "delete"
  | slice => "section"

inductive Fault where
  | missingArgument (position : Nat)
  | invalidSubscript (position : Nat) (found : String)
  | tooManySubscripts (max : Nat)
  | tooFewSubscripts (min : Nat)
  | subscriptOutOfRange (position value limit : Nat)
  | capacityExceeded (requested max : Nat)
  | sparse (index : Nat)
  | comparatorSilent
  | comparatorNotNumeric (result : String)
  | notComparable (found : ObjectClass)
  | multiDimensional (operation : LinearOperation)
  | invalidOption (option : String)
  | wrongClass (expected found : ObjectClass)
  | supplierExhausted
  | heap (error : HeapError)
deriving DecidableEq, Repr

def Fault.message : Fault → String
  | missingArgument p => "missing argument in position " ++ toString p
  | invalidSubscript p found =>
    "subscript " ++ toString p ++ " must be a positive whole number; found \"" ++ found ++ "\""
  | tooManySubscripts max => "too many subscripts for array; " ++ toString max ++ " expected"
  | tooFewSubscripts min => "not enough subscripts for array; " ++ toString min ++ " expected"
  | subscriptOutOfRange p value limit =>
    "subscript " ++ toString p ++ " value " ++ toString value ++ " exceeds the array bound of " ++
      toString limit
  | capacityExceeded requested max =>
    "array size " ++ toString requested ++ " exceeds the maximum of " ++ toString max ++ " elements"
  | sparse i => "array is sparse; no item at index " ++ toString i
  | comparatorSilent => "sort comparator did not return a result"
  | comparatorNotNumeric result =>
    "sort comparator result \"" ++ result ++ "\" is not a whole number"
  | notComparable found => found.name ++ " object does not support comparison"
  | multiDimensional operation =>
    operation.name ++ " is not supported for a multidimensional array"
  | invalidOption option =>
    "invalid option \"" ++ option ++ "\"; expected one of \"C\" or \"L\""
  | wrongClass expected found =>
    found.name ++ " object found where " ++ expected.name ++ " was required"
  | supplierExhausted => "no more items available from supplier"
  | heap error => error.message

end Managed
