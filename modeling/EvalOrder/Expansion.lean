import EvalOrder.Level
import EvalOrder.Token

/-! Putting the raw texts back for the aliases. The text is read anew from its beginning after every
replacement, so an alias in what was put in, or one that forms at a seam, is replaced too. Raw texts
of a source hold no marker, so there the aliases of the text itself are all there is. Levels made by
hand can name each other without end, so the number of searches is bounded, and they may run out. -/
namespace EvalOrder

/-- The first alias, between the text before it and the text after it. A marker opens an alias if a
digit follows, and takes all digits there. -/
def firstAlias? : Text → Option (Text × Text × Text)
  | [] => none
  | c :: t =>
    if c == marker && (t.head?.any Char.isDigit) then
      some ([], c :: t.takeWhile Char.isDigit, t.dropWhile Char.isDigit)
    else (firstAlias? t).map fun found => (c :: found.1, found.2)

def Level.named? (level : Level) (levels : List Level) (name : Text) : Option Text := do
  let index ← indexOfAlias? name
  let place ← level.nested[index]?
  let other ← levels[place]?
  return other.raw

inductive Search where
  | done (result : Except Failure Text)
  | again (text : Text)

def search (levels : List Level) (level : Level) (t : Text) : Search :=
  match firstAlias? t with
  | none => .done (.ok t)
  | some (before, name, after) =>
    match level.named? levels name with
    | none => .done (.error (level.unresolved name))
    | some raw => .again (before ++ raw ++ after)

def expandWithin (levels : List Level) (level : Level) : Nat → Text → Option (Except Failure Text)
  | 0, _ => none
  | searches + 1, t =>
    match search levels level t with
    | .done result => some result
    | .again u => expandWithin levels level searches u

/-- One search for each marker and a wide margin for levels made by hand. -/
def searchBound (t : Text) : Nat :=
  t.count marker + 4294967296

/-- An answer or a failure, and neither if the searches run out before they come to an end. -/
abbrev Searched := ExceptT Failure Option

def Searched.ended {α : Type} (result : Except Failure α) : Searched α :=
  ExceptT.mk (some result)

theorem Searched.ended_inj {α : Type} {r s : Except Failure α} :
    Searched.ended r = Searched.ended s ↔ r = s :=
  Option.some_inj

def expand (levels : List Level) (level : Level) (t : Text) : Searched Text :=
  ExceptT.mk (expandWithin levels level (searchBound t) t)

def stepsOf (levels : List Level) (level : Level) : Searched (List Text) :=
  level.operations.mapM fun o => expand levels level o.text

end EvalOrder
