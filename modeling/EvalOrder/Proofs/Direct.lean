import EvalOrder.Proofs.Steps
import Mathlib

/-! Main statement: without a digit right after a closing parenthesis every source that is scanned has a plan,
and its steps are those read off the source with no alias at all. The bound on the size is the one that a
length in a machine word gives. -/
namespace EvalOrder

open EvalOrder.Part Site

theorem digitAfterClose_cons {c : Char} {t : Text} :
    DigitAfterClose (c :: t) ↔ c = ')' ∧ digitFirst t = true ∨ DigitAfterClose t := by
  constructor
  · rintro ⟨before, digit, after, split, is_digit⟩
    cases before with
    | nil =>
      obtain ⟨rfl, rfl⟩ := List.cons.inj split
      exact .inl ⟨rfl, is_digit⟩
    | cons d before =>
      obtain ⟨rfl, rfl⟩ := List.cons.inj split
      exact .inr ⟨before, digit, after, rfl, is_digit⟩
  · rintro (⟨rfl, first⟩ | ⟨before, digit, after, rfl, is_digit⟩)
    · cases t with
      | nil => cases first
      | cons d t => exact ⟨[], d, t, rfl, first⟩
    · exact ⟨c :: before, digit, after, rfl, is_digit⟩

theorem not_digitAfterClose_nil : ¬ DigitAfterClose [] := by
  rintro ⟨before, digit, after, split, _⟩
  cases before <;> cases split

instance decidableDigitAfterClose : (t : Text) → Decidable (DigitAfterClose t)
  | [] => .isFalse not_digitAfterClose_nil
  | _ :: t =>
    have := decidableDigitAfterClose t
    decidable_of_iff _ digitAfterClose_cons.symm

/-- The levels come from the deepest on, and at one depth from left to right. -/
def Visited (levels : List Level) : Prop :=
  levels.Pairwise fun a b => b.height < a.height ∨ a.height = b.height ∧ a.start < b.start

theorem visited_levels (ps : List Part) : Visited ((all ps).map level) :=
  List.pairwise_map.mpr ((rows_precedes (isRow_root ps)).imp fun h =>
    h.imp_right fun same => ⟨same.1, start_lt_of_apart same.2⟩)

/-- Without a digit after a group, the plan holds the texts of the parts, site by site. -/
theorem plan_of_clear {ps : List Part} (unmarked : marker ∉ join ps) (fits : Text.size (join ps) < wordLimit)
    (clear : ∀ s ∈ all ps, Clear s.inside) :
    plan (join ps) = .ok ⟨(all ps).map (finished (all ps)), (all ps).flatMap steps⟩ := by
  have traversal : ((all ps).map (finished (all ps))).mapM (passesOf ((all ps).map (finished (all ps)))) =
      .ok ((all ps).map steps) := by
    rw [mapM_eq_ok_iff, List.map_map, List.map_map]
    exact List.map_congr_left fun s hs => passesOf_of_clear unmarked fits hs (clear s hs)
  exact plan_eq_ok_iff.mpr ⟨splitLevelsOf_join unmarked, _, traversal, List.flatMap_def⟩

theorem plan_eq_directSteps {source : Text} {levels : List Level} (found : levelsOf source = .ok levels)
    (fits : Text.size source < wordLimit) (free : ¬ DigitAfterClose source) :
    Visited levels ∧ ∃ p, plan source = .ok p ∧ p.steps = directSteps source levels := by
  obtain ⟨ps, rfl, unmarked, rfl⟩ := levelsOf_eq_ok_iff.mp found
  refine ⟨visited_levels ps, _, plan_of_clear unmarked fits fun s hs => clear_site free hs, ?_⟩
  change (all ps).flatMap steps = _
  rw [directSteps, List.flatMap_map, List.flatMap_def, List.flatMap_def]
  congr 1
  apply List.map_congr_left
  intro s hs
  exact (directSteps_eq at_level hs).symm

theorem plan_eq_directSteps_siblings : ∃ levels, levelsOf "-(é+1)+(é+1)&<b".toList = .ok levels ∧
    Text.size "-(é+1)+(é+1)&<b".toList < wordLimit ∧ ¬ DigitAfterClose "-(é+1)+(é+1)&<b".toList ∧
      Visited levels ∧ ∃ p, plan "-(é+1)+(é+1)&<b".toList = .ok p ∧
        p.steps = directSteps "-(é+1)+(é+1)&<b".toList levels := by
  have found : levelsOf "-(é+1)+(é+1)&<b".toList = .ok [⟨1, 6, 1, "(é+1)".toList, [], [], []⟩,
      ⟨8, 13, 1, "(é+1)".toList, [], [], []⟩, Level.outermost "-(é+1)+(é+1)&<b".toList] := by cbv
  have fits : Text.size "-(é+1)+(é+1)&<b".toList < wordLimit := by decide
  have free : ¬ DigitAfterClose "-(é+1)+(é+1)&<b".toList := by decide
  exact ⟨_, found, fits, free, plan_eq_directSteps found fits free⟩

end EvalOrder
