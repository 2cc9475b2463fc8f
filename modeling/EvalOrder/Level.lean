import EvalOrder.Failure
import EvalOrder.Operator

/-! Levels: the whole expression, or one parenthesized part of it, with the operations it is split
into. The two kinds of level end differently. The outermost one stops at the size of the source, any
other at its closing parenthesis; `span` is the same for both. -/
namespace EvalOrder

/-- One operator with its operands. Both ends are bytes of the operation, in the masked text of its level. -/
structure Operation where
  start : Nat
  stop : Nat
  operator : Operator
  text : Text
  sequence : Nat
  deriving DecidableEq

def endingBefore? (operations : List Operation) (offset : Nat) : Option Operation :=
  (operations.filter fun o => o.stop + 1 == offset).getLast?

def startingAfter? (operations : List Operation) (offset : Nat) : Option Operation :=
  (operations.filter fun o => o.start == offset + 1).getLast?

/-- `raw` is the text in the source, parentheses included. `masked` has the levels right inside
replaced by aliases, and no parentheses; alias `k` stands for the level at place `nested[k]`. -/
structure Level where
  start : Nat
  stop : Nat
  height : Nat
  raw : Text
  masked : Text
  nested : List Nat
  operations : List Operation
  deriving DecidableEq

namespace Level

def outermost (source : Text) : Level :=
  ⟨0, Text.size source, 0, source, [], [], []⟩

def opened (start height : Nat) : Level :=
  ⟨start, start, height, [], [], [], []⟩

def close (source : Text) (stop : Nat) (level : Level) : Level :=
  { level with stop, raw := Text.slice source level.start (stop + 1) }

def span (level : Level) : Span :=
  ⟨level.start, level.start + Text.size level.raw⟩

def order (a b : Level) : Ordering :=
  (compare b.height a.height).then (compare a.start b.start)

def sort (levels : List Level) : List Level :=
  levels.mergeSort fun a b => (order a b).isLE

def contains (level other : Level) : Bool :=
  level.start ≤ other.start && other.stop < level.stop

def unresolved (level : Level) (name : Text) : Failure :=
  ⟨.unresolved name level.nested.length, [level.span]⟩

end Level

end EvalOrder
