/-!
# Generations and object headers

An object starts in the nursery, moves to the survivor generation and then to the old one. The
header of an object carries its generation, its age within that generation, the mark of a running
collection and whether the object is in the remembered set.
-/

namespace Managed

inductive Generation where
  | nursery
  | survivor
  | old
deriving DecidableEq, Repr, Inhabited

namespace Generation

/-- The generation an object is promoted to. -/
def next? : Generation → Option Generation
  | nursery => some survivor
  | survivor => some old
  | old => none

def isYoung (g : Generation) : Bool :=
  g.next?.isSome

end Generation

structure Header where
  generation : Generation := .nursery
  /-- Collections survived since the object entered its generation. -/
  age : UInt32 := 0
  marked : Bool := false
  remembered : Bool := false
deriving DecidableEq, Repr, Inhabited

namespace Header

def mark (h : Header) : Header :=
  { h with marked := true }

def unmark (h : Header) : Header :=
  { h with marked := false }

def remember (h : Header) : Header :=
  { h with remembered := true }

def forget (h : Header) : Header :=
  { h with remembered := false }

/-- Entering a generation starts a new age. -/
def enter (h : Header) (g : Generation) : Header :=
  { h with generation := g, age := 0 }

/-- The header of an object that a sweep keeps. The mark goes away. A young object is one collection
older, and is promoted once its age reaches `threshold`. -/
def survive (threshold : UInt32) (h : Header) : Header :=
  match h.generation.next? with
  | none => h.unmark
  | some g =>
    if threshold ≤ h.age + 1 then h.unmark.enter g else { h.unmark with age := h.age + 1 }

end Header

end Managed
