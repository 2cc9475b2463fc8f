import EvalOrder.Level

/-! Precedence, said of the bytes of a text and of each operator by itself. An operand reaches to the
nearest operator that binds later, on the right also to one that binds at the same time. An operator in
the first byte is part of an operand; one in the last byte has no operands either, yet it ends any operand
before it. -/
namespace EvalOrder

def OperatorAt (t : Text) (offset : Nat) (o : Operator) : Prop :=
  ∃ b, (Text.bytes t)[offset]? = some b ∧ Operator.ofByte? b = some o

/-- The greatest place before `limit` with a property, and none only if there is no such place. -/
def NearestBefore (P : Nat → Prop) (limit : Nat) : Option Nat → Prop
  | none => ∀ q, q < limit → ¬ P q
  | some p => p < limit ∧ P p ∧ ∀ q, p < q → q < limit → ¬ P q

def NearestAfter (P : Nat → Prop) (limit : Nat) : Option Nat → Prop
  | none => ∀ q, limit < q → ¬ P q
  | some p => limit < p ∧ P p ∧ ∀ q, limit < q → q < p → ¬ P q

def LeftWall (t : Text) (o : Operator) (p : Nat) : Prop :=
  1 ≤ p ∧ ∃ w, OperatorAt t p w ∧ o.tier.rank < w.tier.rank

def RightWall (t : Text) (o : Operator) (q : Nat) : Prop :=
  ∃ w, OperatorAt t q w ∧ (o.tier.rank ≤ w.tier.rank ∨ q + 1 = Text.size t)

structure Binds (t : Text) (i : Nat) (o : Operation) : Prop where
  operator : OperatorAt t i o.operator
  left : ∃ wall, NearestBefore (LeftWall t o.operator) i wall ∧ o.start = (wall.map (· + 1)).getD 0
  right : ∃ wall, NearestAfter (RightWall t o.operator) i wall ∧
    o.stop = (wall.map (· - 1)).getD (Text.size t - 1)
  text : Text.slice? t o.start (o.stop + 1) = some o.text

/-- The operator at byte `i` binds before the one at byte `j`, or at the same time and further to the left. -/
def BindsEarlier (t : Text) (i j : Nat) : Prop :=
  ∃ o p, OperatorAt t i o ∧ OperatorAt t j p ∧
    (o.tier.rank < p.tier.rank ∨ o.tier.rank = p.tier.rank ∧ i < j)

/-- All operators with a byte on either side, in the order of evaluation. -/
structure Taken (t : Text) (places : List Nat) : Prop where
  mem : ∀ i, i ∈ places ↔ 1 ≤ i ∧ i + 1 < Text.size t ∧ ∃ o, OperatorAt t i o
  order : places.Pairwise (BindsEarlier t)

/-- One operation for each operator taken, numbered in their order. -/
structure Bound (t : Text) (places : List Nat) (operations : List Operation) : Prop where
  taken : Taken t places
  length : operations.length = places.length
  made : ∀ (k i : Nat) (o : Operation), places[k]? = some i → operations[k]? = some o →
    o.sequence = k ∧ Binds t i o

end EvalOrder
