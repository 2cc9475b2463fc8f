import EvalOrder.Checked.Level
import EvalOrder.Plan

/-! The stages of planning with every sum, difference, item and slice checked. Each answers as the
unchecked stage does unless it meets a fault. -/
namespace EvalOrder.Checked

/-- All levels met so far, the outermost first, and the places of those still open, innermost first. -/
structure Brackets where
  levels : List Level
  opened : List Nat

def failAt (cause : Cause) (offset : Nat) : CheckedRun α := do
  let stop ← add offset 1
  throw ⟨cause, [⟨offset, stop⟩]⟩

def Brackets.close (source : Text) (levels : List Level) (place stop : Nat) : Checked (List Level) := do
  let level ← item levels place
  let closed ← fillRaw source { level with stop }
  return levels.set place closed

def Brackets.read (source : Text) (offset : Nat) (c : Char) (b : Brackets) : CheckedRun Brackets :=
  match Kind.ofChar c with
  | .openParen => do
    let height ← add b.opened.length 1
    return ⟨b.levels ++ [Level.opened offset height], b.levels.length :: b.opened⟩
  | .closeParen =>
    match b.opened with
    | [] => failAt .stray offset
    | place :: opened => do
      let levels ← Brackets.close source b.levels place offset
      return ⟨levels, opened⟩
  | .marker => failAt .reserved offset
  | _ => return b

def Brackets.scan (source : Text) : Nat → Text → Brackets → CheckedRun Brackets
  | _, [], b => return b
  | offset, c :: rest, b => do
    let next ← Brackets.read source offset c b
    Brackets.scan source (offset + c.utf8Size) rest next

def Brackets.finish (b : Brackets) : CheckedRun (List Level) :=
  match b.opened with
  | [] => return b.levels
  | place :: _ => do
    let level ← (item b.levels place : Checked Level)
    failAt .unclosed level.start

def levelsOf (source : Text) : CheckedRun (List Level) := do
  let brackets ← Brackets.scan source 0 source ⟨[Level.outermost source], []⟩
  let levels ← brackets.finish
  return Level.sort levels

def holds (level other : Level) : Checked Bool := do
  let deeper ← add level.height 1
  if other.height = deeper then contains level other else return false

def mask (levels : List Level) (place : Nat) (level : Level) : Checked Level := do
  let top := (levels.head?.map Level.height).getD 0
  let others := if level.height < top then (levels.take place).zipIdx else []
  let state ← others.foldlM (fun state other => do
    let inside ← holds level other.1
    return if inside then Level.hide state other else state) (level.raw, level.nested)
  return { level with masked := state.1.filter (!isParenthesis ·), nested := state.2 }

def maskAll (levels : List Level) : Checked (List Level) :=
  (List.range levels.length).mapM fun place => do
    let level ← item levels place
    mask levels place level

/-- Reads the bytes before `offset` from right to left, without the very first, up to an operator. -/
def leftEdge (bytes : List UInt8) : Nat → Checked Nat
  | 0 | 1 => .ok 0
  | i + 2 => do
    let b ← item bytes (i + 1)
    if (Operator.ofByte? b).isSome then add (i + 1) 1 else leftEdge bytes (i + 1)

/-- Reads `left` bytes from `i` on, up to an operator. -/
def rightEdge (bytes : List UInt8) : (left i : Nat) → Checked Nat
  | 0, _ => subtract bytes.length 1
  | left + 1, i => do
    let b ← item bytes i
    if (Operator.ofByte? b).isSome then subtract i 1 else rightEdge bytes left (i + 1)

def make (t : Text) (made : List Operation) (i : Nat) (o : Operator) : Checked Operation := do
  let (left, right) ← adjoining made i
  let start ← match left with
    | some operation => pure operation.start
    | none => leftEdge (Text.bytes t) i
  let stop ← match right with
    | some operation => pure operation.stop
    | none => do
      let first ← add i 1
      rightEdge (Text.bytes t) (Text.size t - first) first
  let text ← slice t start stop
  return ⟨start, stop, o, text, made.length⟩

def takeTier (t : Text) (made : List Operation) (tier : Tier) : Checked (List Operation) :=
  (List.range' 1 (Text.size t - 2)).foldlM (fun made i => do
    let b ← item (Text.bytes t) i
    match (Operator.ofByte? b).filter (·.tier == tier) with
    | some o => return made ++ [← make t made i o]
    | none => return made) made

def operationsOf (t : Text) : Checked (List Operation) :=
  Tier.all.foldlM (takeTier t) []

def split (level : Level) : Checked Level := do
  let operations ← operationsOf level.masked
  return { level with operations }

def search (levels : List Level) (level : Level) (t : Text) : Checked Search :=
  match (tokenize t).find? (·.kind == .aliasName) with
  | none => return .done (.ok t)
  | some token => do
    let digits ← suffix token.text 1
    match level.named? levels (marker :: digits) with
    | none => return .done (.error (← unresolved level token.text))
    | some raw => return .again (← replace t token.start token.stop raw)

def expandWithin (levels : List Level) (level : Level) : Nat → Text → CheckedRun Text
  | 0, _ => (throw Fault.endless : Checked _)
  | searches + 1, t => do
    match ← search levels level t with
    | .done (.ok u) => return u
    | .done (.error failure) => throw failure
    | .again u => expandWithin levels level searches u

def expand (levels : List Level) (level : Level) (t : Text) : CheckedRun Text :=
  expandWithin levels level (searchBound t) t

def stepsOf (levels : List Level) (level : Level) : CheckedRun (List Text) :=
  level.operations.mapM fun o => expand levels level o.text

def splitLevelsOf (source : Text) : CheckedRun (List Level) := do
  let found ← levelsOf source
  let masked ← maskAll found
  (masked.mapM split : Checked _)

def plan (source : Text) : CheckedRun Plan := do
  let levels ← splitLevelsOf source
  let steps ← levels.mapM (stepsOf levels)
  return ⟨levels, steps.flatten⟩

end EvalOrder.Checked
