import EvalOrder.Masking
import EvalOrder.Theory.Structure

/-! Masking by place. Which levels stand right inside a level, and in which order, is said of their bytes
alone; the bytes of each give way to its alias. No text is searched for. -/
namespace EvalOrder

namespace Level

def Surrounds (level inner : Level) : Prop :=
  level.interior.start ≤ inner.start ∧ inner.stop < level.interior.stop

/-- No level stands between the two. -/
def RightAround (levels : List Level) (level inner : Level) : Prop :=
  level.Surrounds inner ∧ ∀ other ∈ levels, level.Surrounds other → ¬ other.Surrounds inner

end Level

/-- The levels right inside `level`, in the order of the source. -/
structure Children (levels : List Level) (level : Level) (children : List Level) : Prop where
  mem : ∀ inner, inner ∈ children ↔ inner ∈ levels ∧ level.RightAround levels inner
  order : children.Pairwise fun a b => a.stop < b.start

/-- A text from byte `start` to byte `stop`, the spans in it replaced by the aliases from `k` on. None if
an end of a span is inside a character, or before the end of the span to the left. -/
def weave (t : Text) (stop : Nat) : (start k : Nat) → List Span → Option Text
  | start, _, [] => Text.slice? t start stop
  | start, k, span :: rest => do
    let before ← Text.slice? t start span.start
    let after ← weave t stop span.stop (k + 1) rest
    return before ++ aliasOf k ++ after

/-- `old` stands in `t` right after `before`, and nowhere further to the left. -/
def FirstAfter (before old t : Text) : Prop :=
  (∃ after, t = before ++ old ++ after) ∧ ∀ u v, t = u ++ old ++ v → before.length ≤ u.length

namespace Level

def part (level inner : Level) : Span :=
  ⟨inner.start - level.start, inner.stop + 1 - level.start⟩

def withAliases (level : Level) (stop : Nat) (children : List Level) : Option Text :=
  weave level.raw stop 0 0 (children.map level.part)

/-- The text of the level at `place` after the first `k` searches. -/
def searched (levels : List Level) (place : Nat) (level : Level) (k : Nat) : Text :=
  (((hidden levels place level).take k).foldl hide (level.raw, level.nested)).1

def enclose (level : Level) (t : Text) : Text :=
  if level.height = 0 then t else '(' :: (t ++ [')'])

/-- All that masking does to a level it does at the places of the children, one after the other; of the
parentheses only the own ones are taken away. Alias `k` stands for child `k`. -/
structure MaskedInPlace (levels : List Level) (place : Nat) (level : Level) (children : List Level) :
    Prop where
  hidden : (hidden levels place level).map Prod.fst = children
  search : ∀ k child, children[k]? = some child → ∃ before,
    level.withAliases (child.start - level.start) (children.take k) = some before ∧
      level.withAliases (Text.size level.raw) (children.take k) = some (searched levels place level k) ∧
      FirstAfter before child.raw (searched levels place level k)
  masked : ∃ masked nested, (maskAll levels)[place]? = some { level with masked, nested } ∧
    level.withAliases (Text.size level.raw) children = some (level.enclose masked) ∧
      nested.map (fun other => levels[other]?) = children.map some

end Level

end EvalOrder
