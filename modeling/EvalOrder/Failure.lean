import EvalOrder.Text

/-! Why an expression has no order of evaluation, and where in the source the fault lies. -/
namespace EvalOrder

/-- Bytes from `start` up to, and without, `stop`. -/
structure Span where
  start : Nat
  stop : Nat
  deriving DecidableEq

inductive Cause where
  | unclosed
  | stray
  | reserved
  | unresolved (name : Text) (available : Nat)
  deriving DecidableEq

structure Failure where
  cause : Cause
  spans : List Span
  deriving DecidableEq

namespace Failure

def ofByte (cause : Cause) (offset : Nat) : Failure :=
  ⟨cause, [⟨offset, offset + 1⟩]⟩

def message (failure : Failure) : Text :=
  match failure.cause with
  | .unclosed => "unbalanced parentheses: opening brace with no closing one".toList
  | .stray => "unbalanced parentheses: closing brace with no opening one".toList
  | .reserved => "the `@` character is reserved and cannot appear in an expression".toList
  | .unresolved name available =>
    "alias `".toList ++ name ++ "` does not name a nested level (".toList ++
      Nat.toDigits 10 available ++ " available)".toList

end Failure

end EvalOrder
