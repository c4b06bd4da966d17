import Managed.Word

/-!
# Shapes

A shape is the list of the sizes of an array's dimensions. The slots of a shaped array lie in
row-major order: the last subscript varies fastest. Subscripts count from 1, offsets from 0.

When a shape grows, the slots that keep their subscripts move in runs of neighbours; `runs` lists
these.
-/

namespace Managed

structure Shape where
  sizes : List Nat
deriving DecidableEq, Repr

namespace Shape

def rank (s : Shape) : Nat :=
  s.sizes.length

/-- The number of slots, if it is a word. The product is taken from the left, so a zero that comes
before the product gets too large makes the count zero. -/
def count? (s : Shape) : Option Nat :=
  s.sizes.foldlM Word.mul? 1

/-- The distance between neighbours along each of the dimensions with these sizes: the product of
the sizes that follow. -/
def stridesOf : List Nat → List Nat
  | [] => []
  | _ :: rest => rest.foldr Word.mul 1 :: stridesOf rest

def strides (s : Shape) : List Nat :=
  stridesOf s.sizes

/-- The offset of a list of subscripts. -/
def offset (s : Shape) (subscripts : List Nat) : Nat :=
  (List.zipWith (fun stride sub => Word.mul (sub - 1) stride) s.strides subscripts).foldl Word.add 0

/-- Splits an offset along the given strides. -/
def coordinates : List Nat → Nat → List Nat
  | [], _ => []
  | stride :: rest, offset => (offset / stride + 1) :: coordinates rest (offset % stride)

/-- The subscripts of an offset. -/
def subscripts (s : Shape) (offset : Nat) : List Nat :=
  coordinates s.strides offset

/-- The index of the first subscript that exceeds its dimension. -/
def firstBeyond? (s : Shape) (subscripts : List Nat) : Option Nat :=
  (subscripts.zip s.sizes).findIdx? fun (sub, size) => size < sub

/-- The written form, as in `[2, 3]`. -/
def text (s : Shape) : String :=
  "[" ++ String.intercalate ", " (s.sizes.map toString) ++ "]"

/-! ## Growing -/

/-- A run of slots that moves from one block to another. -/
structure Run where
  source : Nat
  target : Nat
  length : Nat
deriving DecidableEq, Repr

/-- The runs below a list of dimensions, each given by its old size and its strides in the old and
the new block. Along the last one all slots lie side by side. -/
def runsBelow : List (Nat × Nat × Nat) → Nat → Nat → List Run
  | [], _, _ => []
  | [(size, stride, _)], source, target => [⟨source, target, Word.mul size stride⟩]
  | (size, stride, stride') :: rest, source, target =>
    (List.range size).flatMap fun i =>
      runsBelow rest (Word.add source (Word.mul i stride)) (Word.add target (Word.mul i stride'))

/-- The runs of slots that keep their subscripts when the shape `s`, of `size` slots, grows to `t`.
Both have the same rank. Beyond the last dimension that grows, the order of slots does not change.
-/
def runs (size : Nat) (s t : Shape) : List Run :=
  match (List.range s.rank).reverse.find? fun i => s.sizes[i]? != t.sizes[i]? with
  | none => [⟨0, 0, size⟩]
  | some last => runsBelow ((s.sizes.zip (s.strides.zip t.strides)).take (last + 1)) 0 0

/-- Copies one run of slots. -/
def Run.copy {α : Type} (run : Run) (source target : Array (Option α)) : Array (Option α) :=
  (List.range run.length).foldl
    (fun block k => block.setIfInBounds (run.target + k) (source[run.source + k]?).join) target

end Shape

end Managed
