import EvalOrder.Theory.Binding
import Mathlib.Logic.ExistsUnique

/-! The operations of a text as the inner nodes of one tree, from the leaves to the root. Every operand is
a leaf or the whole of an operation made before, and every operation but the last is used up once. -/
namespace EvalOrder

def Operation.Spans (o : Operation) (lo hi : Nat) : Prop :=
  o.start = lo ∧ o.stop + 1 = hi

def Leaf (t : Text) (lo hi : Nat) : Prop :=
  ∀ p o, lo ≤ p → p < hi → 1 ≤ p → p + 1 < Text.size t → ¬ OperatorAt t p o

/-- What an operation may have on one side: a leaf, or the span of one operation, with a smaller number. -/
def Operand (t : Text) (operations : List Operation) (number lo hi : Nat) : Prop :=
  Leaf t lo hi ∨ ∃ o ∈ operations, o.Spans lo hi ∧ o.sequence < number ∧ ∀ p ∈ operations, p.Spans lo hi →
    p = o

/-- The operation is all that stands on one side of the operator at byte `i` of `later`. -/
def Operation.OperandOf (o later : Operation) (i : Nat) : Prop :=
  o.Spans later.start i ∨ o.Spans (i + 1) (later.stop + 1)

structure EvaluationTree (t : Text) (places : List Nat) (operations : List Operation) : Prop where
  operands : ∀ (k i : Nat) (o : Operation), places[k]? = some i → operations[k]? = some o →
    o.start ≤ i ∧ i ≤ o.stop ∧ Operand t operations o.sequence o.start i ∧
      Operand t operations o.sequence (i + 1) (o.stop + 1)
  consumed : ∀ (k : Nat) (o : Operation), operations[k]? = some o → k + 1 < operations.length →
    ∃! j, k < j ∧ ∃ i later, places[j]? = some i ∧ operations[j]? = some later ∧ o.OperandOf later i
  root : ∀ o, operations.getLast? = some o → o.start = 0 ∧
    ((∃ p, OperatorAt t (Text.size t - 1) p) ∧ o.stop + 2 = Text.size t ∨
      (¬ ∃ p, OperatorAt t (Text.size t - 1) p) ∧ o.stop + 1 = Text.size t)

end EvalOrder
