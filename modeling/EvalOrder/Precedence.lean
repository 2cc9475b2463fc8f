import EvalOrder.Level

/-! Splitting a text into operations, one per operator. The tiers are taken in turn and each is read
from left to right. An operand reaches to the nearest operator, or, where an operation made before
ends there, over the whole of that operation. The first and the last byte of a text are no operators
of it, yet an operand stops at them. -/
namespace EvalOrder

structure Mark where
  offset : Nat
  operator : Operator
  deriving DecidableEq

def marksOf (t : Text) : List Mark :=
  (Text.bytes t).zipIdx.filterMap fun b => (Operator.ofByte? b.1).map (⟨b.2, ·⟩)

def Mark.isInner (t : Text) (m : Mark) : Bool :=
  1 ≤ m.offset && m.offset + 1 < Text.size t

namespace Precedence

/-- Where an operand that ends right before `offset` starts. The first byte of the text is part of it. -/
def leftEdge (marks : List Mark) (offset : Nat) : Nat :=
  let before := marks.filter fun m => 1 ≤ m.offset && m.offset < offset
  (before.getLast?.map (·.offset + 1)).getD 0

/-- The last byte of an operand that starts right after `offset`, in a text of `size` bytes. -/
def rightEdge (marks : List Mark) (size offset : Nat) : Nat :=
  ((marks.find? (offset < ·.offset)).map (·.offset - 1)).getD (size - 1)

def make (t : Text) (marks : List Mark) (made : List Operation) (m : Mark) : Operation :=
  let start := ((endingBefore? made m.offset).map Operation.start).getD (leftEdge marks m.offset)
  let stop := ((startingAfter? made m.offset).map Operation.stop).getD
    (rightEdge marks (Text.size t) m.offset)
  ⟨start, stop, m.operator, Text.slice t start (stop + 1), made.length⟩

def visits (t : Text) (marks : List Mark) : List Mark :=
  Tier.all.flatMap fun tier => marks.filter fun m => m.isInner t && m.operator.tier == tier

def run (t : Text) (marks taken : List Mark) : List Operation :=
  taken.foldl (fun made m => made ++ [make t marks made m]) []

end Precedence

def operationsOf (t : Text) : List Operation :=
  let marks := marksOf t
  Precedence.run t marks (Precedence.visits t marks)

def Level.split (level : Level) : Level :=
  { level with operations := operationsOf level.masked }

end EvalOrder
