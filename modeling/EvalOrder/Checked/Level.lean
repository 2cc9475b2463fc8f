import EvalOrder.Checked.Fault
import EvalOrder.Level

/-! The questions about a single level, with every sum and slice checked. -/
namespace EvalOrder.Checked

def fillRaw (source : Text) (level : Level) : Checked Level := do
  let raw ← slice source level.start level.stop
  return { level with raw }

def span (level : Level) : Checked Span := do
  let stop ← add level.start (Text.size level.raw)
  return ⟨level.start, stop⟩

/-- Only of a deeper level may it be asked whether it lies inside. -/
def contains (level other : Level) : Checked Bool :=
  if level.height < other.height then .ok (level.contains other) else .error .notDeeper

def endingBefore? (operations : List Operation) (offset : Nat) : Checked (Option Operation) :=
  look operations.reverse
where
  look : List Operation → Checked (Option Operation)
    | [] => .ok none
    | o :: rest => do
      let next ← add o.stop 1
      if next = offset then .ok (some o) else look rest

def startingAfter? (operations : List Operation) (offset : Nat) : Checked (Option Operation) :=
  look operations.reverse
where
  look : List Operation → Checked (Option Operation)
    | [] => .ok none
    | o :: rest => do
      let next ← add offset 1
      if o.start = next then .ok (some o) else look rest

def adjoining (operations : List Operation) (offset : Nat) :
    Checked (Option Operation × Option Operation) := do
  let left ← endingBefore? operations offset
  let right ← startingAfter? operations offset
  return (left, right)

def unresolved (level : Level) (name : Text) : Checked Failure := do
  let covered ← span level
  return ⟨.unresolved name level.nested.length, [covered]⟩

end EvalOrder.Checked
