import EvalOrder.Proofs.Direct
import EvalOrder.Proofs.Placement
import EvalOrder.Proofs.Steps
import EvalOrder.Proofs.Tokens
import EvalOrder.Theory.Repetition

/-! One more masking leaves a level at its site with one more copy of its places in front, and counts its
aliases on from there. So the operations cover the same parts, whatever the numbers, and every alias names
the group it stands for, whatever copy it names. -/
namespace EvalOrder

open EvalOrder.Part Site

namespace Site

def copies (sites : List Site) (n : Nat) (s : Site) : List Nat :=
  (List.replicate n (places sites s)).flatten

theorem copies_succ (sites : List Site) (n : Nat) (s : Site) :
    copies sites (n + 1) s = copies sites n s ++ places sites s := by
  rw [copies, List.replicate_succ', List.flatten_append, List.flatten_singleton]
  rfl

def remasked (sites : List Site) (n : Nat) (s : Site) : Level :=
  { s.level with
    masked := masked (copies sites n s).length s.inside, nested := copies sites n s ++ places sites s }

theorem remasked_succ (sites : List Site) (n : Nat) (s : Site) :
    { s.remasked sites n with
      masked := masked (s.remasked sites n).nested.length s.inside,
      nested := (s.remasked sites n).nested ++ places sites s } = s.remasked sites (n + 1) := by
  have nested : (s.remasked sites n).nested = copies sites (n + 1) s := (copies_succ sites n s).symm
  rw [nested]
  rfl

variable {ps : List Part} {s : Site}

theorem length_groups (s : Site) : (groups s.inside).length = s.children.length :=
  (length_among s.first (s.height + 1) s.inside).symm

theorem length_places (member : s ∈ all ps) : (places (all ps) s).length = s.children.length := by
  have listed := congrArg List.length (map_places member)
  simpa using listed

theorem length_copies (member : s ∈ all ps) (n : Nat) :
    (copies (all ps) n s).length = n * s.children.length := by
  rw [copies, List.length_flatten, List.map_replicate, List.sum_replicate_nat, length_places member]

theorem length_nested (member : s ∈ all ps) (n : Nat) :
    (s.remasked (all ps) n).nested.length = (n + 1) * s.children.length := by
  rw [← length_copies member, copies_succ]
  rfl

theorem nestedOn_remasked (ps : List Part) (n : Nat) (s : Site) :
    NestedOn (all ps) s (copies (all ps) n s) ((all ps).map fun d => (d.remasked (all ps) n).split)
      (s.remasked (all ps) n).split := by
  refine ⟨List.map_map, rfl, fun place listed => ?_⟩
  obtain ⟨copy, hcopy, listed⟩ := List.mem_flatten.mp listed
  rwa [List.eq_of_mem_replicate hcopy] at listed

end Site

theorem maskAll_iterate (n : Nat) (ps : List Part) :
    maskAll^[n + 1] ((all ps).map level) = (all ps).map (remasked (all ps) n) := by
  induction n with
  | zero => exact maskAll_levels ps
  | succ n ih =>
    have placed (s : Site) : s.At (s.remasked (all ps) n) := ⟨rfl, rfl, rfl⟩
    rw [Function.iterate_succ_apply', ih, maskAll_view placed (fun _ => rfl)]
    exact List.map_congr_left fun s _ => remasked_succ (all ps) n s

theorem maskedTimes_levels (n : Nat) (ps : List Part) :
    maskedTimes (n + 1) ((all ps).map level) = (all ps).map fun s => (s.remasked (all ps) n).split := by
  rw [maskedTimes, maskAll_iterate, List.map_map]
  rfl

theorem aliasesIn_masked {ps : List Part} (unmarked : marker ∉ join ps) (clear : Clear ps) (k : Nat) :
    aliasesIn (masked k ps) = (List.range' k (groups ps).length).map aliasOf := by
  suffices any :
      ∀ start, ((Token.place start (lexemes (masked k ps))).filter (·.kind == .aliasName)).map Token.text =
      (List.range' k (groups ps).length).map aliasOf from any 0
  induction ps generalizing k with
  | nil => exact fun _ => rfl
  | cons p ps ih =>
    intro start
    rw [join_cons, List.mem_append, not_or] at unmarked
    cases p with
    | char c plain =>
      have other := ne_marker_of_not_mem_text unmarked.1
      rw [masked, aliases_cons fun h => absurd h other]
      exact ih unmarked.2 clear k _
    | group inside =>
      have stop : digitFirst (masked (k + 1) ps) = false := by
        rw [digitFirst_masked]
        exact clear.1
      have first := lexemes_alias (Nat.toDigits_ne_nil (b := 10) (n := k)) (aliasOf_digits k) stop
      rw [masked, aliasOf, List.cons_append, first, groups, List.length_cons, List.range'_succ, List.map_cons,
        Token.place, List.filter_cons_of_pos rfl, List.map_cons, ih unmarked.2 clear.2 (k + 1)]
      rfl

/-- The steps of a site are its parts of the source, so they say nothing of the number of copies. -/
theorem stepsOf_remasked {ps : List Part} {s : Site} {n : Nat} (unmarked : marker ∉ join ps)
    (free : ¬ DigitAfterClose (join ps)) (member : s ∈ all ps)
    (fits : (s.remasked (all ps) n).nested.length ≤ wordLimit) :
    stepsOf (maskedTimes (n + 1) ((all ps).map level)) (s.remasked (all ps) n).split =
      .ended (.ok s.steps) := by
  have on := nestedOn_remasked ps n s
  rw [maskedTimes_levels, stepsOf_eq (on.namesGroups unmarked member).harmless, Searched.ended_inj]
  refine on.passesOf_eq unmarked ?_ member (clear_site free member) rfl
  rw [length_groups, ← length_places member, ← List.length_append]
  exact fits

theorem maskAll_repeated {source : Text} {levels : List Level} (found : levelsOf source = .ok levels)
    (free : ¬ DigitAfterClose source) {n : Nat} (some_time : 1 ≤ n) {place : Nat} {level : Level}
    (here : levels[place]? = some level) : ∃ children once again, Children levels level children ∧
      (maskedTimes 1 levels)[place]? = some once ∧ (maskedTimes n levels)[place]? = some again ∧
      Level.Repeats levels n children once again := by
  obtain ⟨ps, rfl, unmarked, rfl⟩ := levelsOf_eq_ok_iff.mp found
  obtain ⟨m, rfl⟩ : ∃ m, n = m + 1 := ⟨n - 1, by omega⟩
  rw [List.getElem?_map, Option.map_eq_some_iff] at here
  obtain ⟨s, here, rfl⟩ := here
  have member : s ∈ all ps := List.mem_of_getElem? here
  have at_place (i : Nat) :
      (maskedTimes (i + 1) ((all ps).map Site.level))[place]? = some (s.remasked (all ps) i).split := by
    rw [maskedTimes_levels, List.getElem?_map, here]
    rfl
  refine ⟨s.children.map Site.level, _, _, children_view at_level member, at_place 0, at_place m, ?_⟩
  constructor
  · exact map_places member
  · exact (copies_succ (all ps) m s).symm
  · have numbered : (s.remasked (all ps) m).split.masked = masked (m * s.children.length) s.inside := by
      rw [← length_copies member]
      rfl
    rw [numbered, aliasesIn_masked (unmarked_inside unmarked member) (clear_site free member), length_groups,
      List.length_map, Nat.add_sub_cancel]
  · exact (operators_of_masked _ s.inside).trans (operators_of_masked _ s.inside).symm
  · intro fits
    change (s.remasked (all ps) m).nested.length ≤ wordLimit at fits
    have once_fits : (s.remasked (all ps) 0).nested.length ≤ wordLimit := by
      rw [length_nested member] at fits ⊢
      exact Nat.le_trans (Nat.mul_le_mul_right _ (Nat.succ_le_succ (Nat.zero_le m))) fits
    exact ⟨s.steps, stepsOf_remasked unmarked free member once_fits,
      stepsOf_remasked unmarked free member fits⟩

theorem maskAll_repeated_longer_aliases : ∃ levels level, levelsOf "(é)-(b)&(c+(d))".toList = .ok levels ∧
    ¬ DigitAfterClose "(é)-(b)&(c+(d))".toList ∧ 1 ≤ 4 ∧ levels[4]? = some level ∧
      ∃ children once again, Children levels level children ∧ (maskedTimes 1 levels)[4]? = some once ∧
        (maskedTimes 4 levels)[4]? = some again ∧ Level.Repeats levels 4 children once again ∧
        again.masked = "@9-@10&@11".toList ∧ again.nested.length ≤ wordLimit := by
  obtain ⟨levels, found, here, shown⟩ : ∃ levels, levelsOf "(é)-(b)&(c+(d))".toList = .ok levels ∧
      levels[4]? = some (Level.outermost "(é)-(b)&(c+(d))".toList) ∧
      (maskedTimes 4 levels)[4]?.map (fun again => (again.masked, again.nested.length)) =
        some ("@9-@10&@11".toList, 12) :=
    ⟨[⟨12, 14, 2, "(d)".toList, [], [], []⟩, ⟨0, 3, 1, "(é)".toList, [], [], []⟩,
      ⟨5, 7, 1, "(b)".toList, [], [], []⟩,
      ⟨9, 15, 1, "(c+(d))".toList, [], [], []⟩, Level.outermost "(é)-(b)&(c+(d))".toList], by cbv, rfl,
        by cbv⟩
  have free : ¬ DigitAfterClose "(é)-(b)&(c+(d))".toList := by decide
  have four : 1 ≤ 4 := by decide
  obtain ⟨children, once, again, kids, at_once, at_again, repeats⟩ := maskAll_repeated found free four here
  rw [at_again] at shown
  obtain ⟨masked, count⟩ := Prod.mk.inj (Option.some.inj shown)
  refine ⟨levels, _, found, free, four, here, children, once, again, kids, at_once, at_again, repeats,
    masked, ?_⟩
  rw [count]
  decide

end EvalOrder
