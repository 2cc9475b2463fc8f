import EvalOrder.Failure
import EvalOrder.Token

/-! Arithmetic and access as a machine does them: numbers are 64-bit words, a slice or an item may be
missing, and a run that meets any of this stops. The faults are kept apart from the failures of an
expression, which are answers. -/
namespace EvalOrder

inductive Fault where
  | overflow
  | underflow
  | missingItem
  | missingSlice
  | notDeeper
  | endless
  | reversedSpan
  deriving DecidableEq

def Fault.message? : Fault → Option Text
  | notDeeper => some "lower or with equal height level cannot be nested".toList
  | _ => none

abbrev Checked := Except Fault

abbrev CheckedRun := ExceptT Failure Checked

namespace Checked

def add (a b : Nat) : Checked Nat :=
  if a + b < wordLimit then .ok (a + b) else .error .overflow

def subtract (a b : Nat) : Checked Nat :=
  if b ≤ a then .ok (a - b) else .error .underflow

def item (xs : List α) (i : Nat) : Checked α :=
  match xs[i]? with
  | some x => .ok x
  | none => .error .missingItem

/-- The bytes from `start` up to and with `last`. -/
def slice (t : Text) (start last : Nat) : Checked Text := do
  let stop ← add last 1
  match Text.slice? t start stop with
  | some middle => .ok middle
  | none => .error .missingSlice

def suffix (t : Text) (start : Nat) : Checked Text :=
  match Text.slice? t start (Text.size t) with
  | some rest => .ok rest
  | none => .error .missingSlice

def replace (t : Text) (start stop : Nat) (new : Text) : Checked Text :=
  match Text.slice? t 0 start, Text.slice? t start stop, Text.slice? t stop (Text.size t) with
  | some before, some _, some after => .ok (before ++ new ++ after)
  | _, _, _ => .error .missingSlice

end Checked

end EvalOrder
