import Managed.Relation
import Managed.SlotArray.Basic
import Managed.Supplier

/-!
# Managed objects
-/

namespace Managed

inductive Object where
  | string (text : String)
  | array (slots : SlotArray Ref)
  | relation (relation : Relation)
  | supplier (supplier : Supplier)
deriving Repr

namespace Object

def kind : Object → ObjectClass
  | string _ => .string
  | array _ => .array
  | relation _ => .relation
  | supplier _ => .supplier

/-- The text that an object stands for. -/
def stringValue : Object → String
  | string text => text
  | array _ => "an Array"
  | relation _ => "a Relation"
  | supplier _ => "a Supplier"

def text? : Object → Option String
  | string text => some text
  | _ => none

end Object

instance : Traced (SlotArray Ref) where
  refs a := a.allItems

instance : Traced Object where
  refs
    | .string _ => []
    | .array a => Traced.refs a
    | .relation r => Traced.refs r
    | .supplier s => Traced.refs s

end Managed
