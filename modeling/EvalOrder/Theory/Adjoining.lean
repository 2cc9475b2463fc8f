import EvalOrder.Level

/-! The operations next to an operator whose turn it is. Several of those made before may end right in
front of it, or start right behind it. Which one of them is the widest is said of their bytes alone; only
the program asks for the order in which they were made. -/
namespace EvalOrder

namespace Operation

def Within (inner outer : Operation) : Prop :=
  outer.start ≤ inner.start ∧ inner.stop ≤ outer.stop

/-- The operations cover different bytes: one lies in the other, or they have none in common. -/
def Laminar (a b : Operation) : Prop :=
  ¬ (a.start = b.start ∧ a.stop = b.stop) ∧ (a.stop < b.start ∨ b.stop < a.start ∨ a.Within b ∨ b.Within a)

def Covers (o : Operation) (i : Nat) : Prop :=
  o.start ≤ i ∧ i ≤ o.stop

end Operation

/-- Of the operations that end right before byte `i` the one that starts first, and none only if none ends
there. -/
def WidestBefore (operations : List Operation) (i : Nat) : Option Operation → Prop
  | none => ∀ o ∈ operations, o.stop + 1 ≠ i
  | some o => o ∈ operations ∧ o.stop + 1 = i ∧ ∀ p ∈ operations, p.stop + 1 = i → o.start ≤ p.start

def WidestAfter (operations : List Operation) (i : Nat) : Option Operation → Prop
  | none => ∀ o ∈ operations, o.start ≠ i + 1
  | some o => o ∈ operations ∧ o.start = i + 1 ∧ ∀ p ∈ operations, p.start = i + 1 → p.stop ≤ o.stop

/-- The operations are ready for the operator at byte `i`: looking for the latest one on a side finds the
widest. -/
structure LatestWidest (operations : List Operation) (i : Nat) : Prop where
  laminar : operations.Pairwise Operation.Laminar
  uncovered : ∀ o ∈ operations, ¬ o.Covers i
  before : WidestBefore operations i (endingBefore? operations i)
  after : WidestAfter operations i (startingAfter? operations i)

end EvalOrder
