import EvalOrder.Level
import EvalOrder.Token

/-! The levels of a source. One pass from left to right keeps the open parentheses, innermost first;
each closing one completes the level opened last. Parentheses, markers and operators are single
characters, so the pass need not form tokens; a walk over them finds the same. -/
namespace EvalOrder

/-- The starts of the parentheses still open, innermost first, and the levels completed. -/
structure Brackets where
  opened : List Nat
  closed : List Level

namespace Brackets

def read (source : Text) (offset : Nat) (c : Char) (b : Brackets) : Except Failure Brackets :=
  match Kind.ofChar c with
  | .openParen => .ok { b with opened := offset :: b.opened }
  | .closeParen =>
    match b.opened with
    | [] => .error (.ofByte .stray offset)
    | start :: opened =>
      let level := (Level.opened start b.opened.length).close source offset
      .ok ⟨opened, level :: b.closed⟩
  | .marker => .error (.ofByte .reserved offset)
  | _ => .ok b

def scan (source : Text) : Nat → Text → Brackets → Except Failure Brackets
  | _, [], b => .ok b
  | offset, c :: rest, b => do
    let next ← read source offset c b
    scan source (offset + c.utf8Size) rest next

def finish (b : Brackets) : Except Failure (List Level) :=
  match b.opened with
  | [] => .ok b.closed
  | start :: _ => .error (.ofByte .unclosed start)

end Brackets

/-- The levels of a source, deepest first. The outermost one is last. -/
def levelsOf (source : Text) : Except Failure (List Level) := do
  let brackets ← Brackets.scan source 0 source ⟨[], []⟩
  let closed ← brackets.finish
  return Level.sort (Level.outermost source :: closed)

end EvalOrder
