import EvalOrder.Plan
import EvalOrder.Theory.Placement
import Mathlib.Logic.ExistsUnique

/-! The lists of nested levels as one tree, the tree of the parentheses. A level stands in the list of the
level right around it and in no other, and before that level in the list of all levels. -/
namespace EvalOrder

/-- Of the levels around `inner`, `level` lies in all others. -/
def Level.Innermost (levels : List Level) (level inner : Level) : Prop :=
  level.Surrounds inner ∧ ∀ other ∈ levels, other.Surrounds inner → other = level ∨ other.Surrounds level

/-- The list of the level at `place` holds the places of the levels right inside it, in the order of the
source. -/
structure Level.Nests (levels : List Level) (place : Nat) (level : Level) : Prop where
  mem : ∀ i, i ∈ level.nested ↔ ∃ inner, levels[i]? = some inner ∧ level.Innermost levels inner
  order : level.nested.Pairwise fun i j =>
    ∀ a b, levels[i]? = some a → levels[j]? = some b → a.stop < b.start
  once : level.nested.Nodup
  inside : ∀ i ∈ level.nested, ∀ inner, levels[i]? = some inner →
    inner.height = level.height + 1 ∧ level.Surrounds inner
  earlier : ∀ i ∈ level.nested, i < place

structure NestingTree (levels : List Level) : Prop where
  nests : ∀ (place : Nat) (level : Level), levels[place]? = some level → level.Nests levels place
  root : ∃ outermost, levels.getLast? = some outermost ∧ outermost.height = 0 ∧
    ∀ level ∈ levels, levels.length - 1 ∉ level.nested
  parent : ∀ i, i + 1 < levels.length → ∃! place : Nat, ∃ level : Level, levels[place]? = some level ∧
    i ∈ level.nested

/-- For each step, the place of the level that it is made of. -/
def owners (texts : List (List Text)) : List Nat :=
  texts.zipIdx.flatMap fun (steps, place) => steps.map fun _ => place

/-- All steps of a level stand before all steps of any level around it. -/
def Plan.InnerFirst (p : Plan) : Prop :=
  ∃ texts, p.levels.mapM (stepsOf p.levels) = .ended (.ok texts) ∧ p.steps = texts.flatten ∧
    ∀ (i j : Nat) (outer inner : Level), p.levels[i]? = some outer → p.levels[j]? = some inner →
      outer.Surrounds inner → ∀ m n : Nat, (owners texts)[m]? = some j → (owners texts)[n]? = some i → m < n

end EvalOrder
