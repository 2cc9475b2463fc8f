import EvalOrder.Level
import EvalOrder.Token

/-! Masked texts. In the raw text of a level each level right inside it gives way to an alias, found by
its text and not by its place: the first occurrence that is left is replaced. What follows a closing
parenthesis comes to stand right after an alias, so a digit there joins it. -/
namespace EvalOrder

def isParenthesis (c : Char) : Bool :=
  c == '(' || c == ')'

namespace Level

def holds (level other : Level) : Bool :=
  other.height == level.height + 1 && level.contains other

/-- Hides one nested level, the one at `place`, behind the next alias. -/
def hide (state : Text × List Nat) (other : Level × Nat) : Text × List Nat :=
  (other.1.raw.replaceFirst (aliasOf state.2.length) state.1, state.2 ++ [other.2])

/-- The levels of a deepest-first list, with their places, that an alias of `level` may stand for.
Only levels lower than the first one of the list have any. -/
def hidden (levels : List Level) (place : Nat) (level : Level) : List (Level × Nat) :=
  let top := (levels.head?.map Level.height).getD 0
  (levels.take place).zipIdx.filter fun other => level.height < top && level.holds other.1

/-- Masks the level at `place`. Aliases count on from what is nested already. -/
def mask (levels : List Level) (place : Nat) (level : Level) : Level :=
  let state := (hidden levels place level).foldl hide (level.raw, level.nested)
  { level with masked := state.1.filter (!isParenthesis ·), nested := state.2 }

end Level

def maskAll (levels : List Level) : List Level :=
  levels.mapIdx (Level.mask levels)

end EvalOrder
