import EvalOrder.Masking
import EvalOrder.Precedence
import EvalOrder.Settling

/-! The order of evaluation of an expression: its levels, deepest first, and the text of every
operation in the order in which an evaluator has to take them. -/
namespace EvalOrder

structure Plan where
  levels : List Level
  steps : List Text
  deriving DecidableEq

def splitLevelsOf (source : Text) : Except Failure (List Level) :=
  (levelsOf source).map fun levels => (maskAll levels).map Level.split

theorem unmarked_of_splitLevelsOf {source : Text} {levels : List Level}
    (found : splitLevelsOf source = .ok levels) :
    ∀ level ∈ levels, marker ∉ level.raw := by
  rw [splitLevelsOf] at found
  cases raised : levelsOf source with
  | error failure =>
    rw [raised] at found
    cases found
  | ok bare =>
    rw [raised] at found
    cases found
    intro level listed
    obtain ⟨masked, inside, rfl⟩ := List.mem_map.mp listed
    obtain ⟨place, short, rfl⟩ := List.mem_mapIdx.mp inside
    exact unmarked_of_levelsOf raised bare[place] (List.getElem_mem short)

/-- The search for a plan. Only levels made by hand can make it run out. -/
def plan? (source : Text) : Searched Plan := do
  let levels ← splitLevelsOf source
  let steps ← levels.mapM (stepsOf levels)
  return ⟨levels, steps.flatten⟩

theorem plan?_isSome (source : Text) : (plan? source).run.isSome := by
  refine bind_isSome rfl fun levels accepted => bind_isSome ?_ fun steps _ => rfl
  have found : splitLevelsOf source = .ok levels := Option.some.inj accepted
  exact mapM_isSome fun level _ => stepsOf_isSome (unmarked_of_splitLevelsOf found) level

/-- Fails if the parentheses do not pair up, on a marker, and on an alias that cannot be put back.
Operands are not looked at; they may be empty. -/
def plan (source : Text) : Except Failure Plan :=
  (plan? source).run.get (plan?_isSome source)

def Plan.nestedIn (p : Plan) (level : Level) : List Text :=
  level.nested.filterMap fun place => p.levels[place]?.map Level.raw

end EvalOrder
