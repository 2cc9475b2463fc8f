import EvalOrder.Plan
import EvalOrder.Theory.Placement
import EvalOrder.Theory.Structure
import Mathlib.Logic.Function.Iterate

/-! Masking several times over. The texts are masked anew each time, but what is nested stays, so the
numbers of the aliases go up, and with them the bytes of everything behind. A plan made afterwards should
not show it. -/
namespace EvalOrder

def aliasesIn (t : Text) : List Text :=
  ((tokenize t).filter (·.kind == .aliasName)).map Token.text

def maskedTimes (n : Nat) (levels : List Level) : List Level :=
  (maskAll^[n] levels).map Level.split

/-- A level masked `n` times against the same level masked `once`, when the levels right inside are
`children`. Only the last copy of them is named in the masked text. An index that fits no word names
nothing, so the steps are the same as long as the number of nested levels is one. -/
structure Level.Repeats (levels : List Level) (n : Nat) (children : List Level) (once again : Level) :
    Prop where
  nested : once.nested.map (fun place => levels[place]?) = children.map some
  copies : again.nested = (List.replicate n once.nested).flatten
  aliases : aliasesIn again.masked =
    (List.range' ((n - 1) * children.length) children.length).map aliasOf
  operators : again.operations.map Operation.operator = once.operations.map Operation.operator
  steps : again.nested.length ≤ wordLimit → ∃ texts,
    stepsOf (maskedTimes 1 levels) once = .ended (.ok texts) ∧
      stepsOf (maskedTimes n levels) again = .ended (.ok texts)

end EvalOrder
