import EvalOrder.Proofs.Descent
import EvalOrder.Proofs.Direct
import EvalOrder.Proofs.Wellformed
import Mathlib.Data.List.Flatten

/-! What a step needs has been made before it. Main statement: every step of a well-formed expression is one
itself, and planned alone it yields itself last, and before that only steps that came before it in the
plan it is from, in the same order. -/
namespace EvalOrder

open EvalOrder.Part Site

theorem exists_list_of_flatMap {α β : Type} {f : α → List β} {l : List α} {k : Nat} {y : β}
    (found : (l.flatMap f)[k]? = some y) :
    ∃ earlier a later j, l = earlier ++ a :: later ∧ (f a)[j]? = some y ∧
      (l.flatMap f).take (k + 1) = earlier.flatMap f ++ (f a).take (j + 1) := by
  induction l generalizing k with
  | nil => cases found
  | cons a l ih =>
    rw [List.flatMap_cons] at found ⊢
    by_cases here : k < (f a).length
    · rw [List.getElem?_append_left here] at found
      refine ⟨[], a, l, k, rfl, found, ?_⟩
      rw [List.take_append_of_le_length here]
      rfl
    · rw [List.getElem?_append_right (Nat.le_of_not_lt here)] at found
      obtain ⟨earlier, b, later, j, rfl, at_place, front⟩ := ih found
      refine ⟨a :: earlier, b, later, j, rfl, at_place, ?_⟩
      have rest : k + 1 - (f a).length = k - (f a).length + 1 := by omega
      rw [List.take_append, List.take_of_length_le (by omega), rest, front, List.flatMap_cons,
        List.append_assoc]

namespace Site

variable {ps : List Part} {s : Site}

/-- The steps of what an operation covers: some of those before it, then itself. -/
theorem steps_of_cutOut (formed : Formed s.inside) {j : Nat} {span : Span}
    (found : (spans s.inside)[j]? = some span) :
    ∃ before, before.Sublist (s.steps.take j) ∧
      (root (cutOut s.inside span)).steps = before ++ [join (cutOut s.inside span)] := by
  have free := formed.proper.free (List.mem_of_getElem? found)
  obtain ⟨before, sublist, covered⟩ := spans_piece found free.1 free.2
  refine ⟨before.map fun inner => join (cutOut s.inside inner), ?_, ?_⟩
  · rw [steps, ← List.map_take]
    exact sublist.map _
  · have texts := congrArg (List.map join) covered
    rw [List.map_map, List.map_append, List.map_append, List.map_map] at texts
    exact texts

theorem steps_moved (k h : Nat) (sites : List Site) :
    (sites.map (moved k h)).flatMap steps = sites.flatMap steps := by
  rw [List.flatMap_map]
  rfl

theorem size_cutOut_le (member : s ∈ all ps) {span : Span} (order : span.start ≤ span.stop) :
    Text.size (join (cutOut s.inside span)) ≤ Text.size (join ps) := by
  obtain ⟨before, after, source, _⟩ := in_of_mem_all member
  have split := congrArg (fun qs => Text.size (join qs)) (cutOut_split s.inside order)
  have whole := congrArg Text.size source
  simp only [join_append, Text.size_append] at split whole
  omega

end Site

theorem plan_of_formed {ps : List Part} (formed : Formed ps) (unmarked : marker ∉ join ps)
    (fits : Text.size (join ps) < wordLimit) :
    plan (join ps) = .ok ⟨(all ps).map (finished (all ps)), (all ps).flatMap steps⟩ :=
  plan_of_clear unmarked fits fun _ hs => (formed.site hs).proper.clear

theorem steps_of_step {source : Text} (expression : Expression source)
    (fits : Text.size source < wordLimit) :
    ∃ p, plan source = .ok p ∧ ∀ (k : Nat) (step : Text), p.steps[k]? = some step →
      Expression step ∧ ∃ q, plan step = .ok q ∧ q.steps.getLast? = some step ∧
        q.steps.Sublist (p.steps.take (k + 1)) := by
  obtain ⟨ps, rfl, unmarked, formed⟩ := formed_of_expression expression
  refine ⟨_, plan_of_formed formed unmarked fits, ?_⟩
  intro k step found
  obtain ⟨earlier, s, later, j, order, at_place, front⟩ := exists_list_of_flatMap found
  have member : s ∈ all ps := order ▸ List.mem_append_right _ List.mem_cons_self
  rw [steps, List.getElem?_map, Option.map_eq_some_iff] at at_place
  obtain ⟨span, at_place, rfl⟩ := at_place
  have span_member := List.mem_of_getElem? at_place
  have bounds := span_order span_member
  have formed_inside := formed.site member
  have formed_step := formed_inside.cutOut span_member
  have unmarked_step := unmarked_cutOut unmarked member bounds.1
  have fits_step := Nat.lt_of_le_of_lt (size_cutOut_le member bounds.1) fits
  refine ⟨expression_of_formed formed_step unmarked_step, _,
    plan_of_formed formed_step unmarked_step fits_step, ?_⟩
  obtain ⟨before, sublist, own⟩ := steps_of_cutOut formed_inside at_place
  -- first the levels within the step, then the operations of the step itself
  have listed : (all (cutOut s.inside span)).flatMap steps =
      (below (cutOut s.inside span)).flatMap steps ++ (before ++ [join (cutOut s.inside span)]) := by
    rw [all_eq, List.flatMap_append, List.flatMap_singleton, own]
  have inner : ((below (cutOut s.inside span)).flatMap steps).Sublist (earlier.flatMap steps) := by
    rw [← steps_moved]
    exact (moved_below_sublist order (cutOut_split s.inside bounds.1)).flatMap _
  have outer : (before ++ [join (cutOut s.inside span)]).Sublist (s.steps.take (j + 1)) := by
    rw [List.take_add_one, steps, List.getElem?_map, at_place]
    exact sublist.append (List.Sublist.refl _)
  simp only [listed, front]
  exact ⟨by simp, inner.append outer⟩

theorem steps_of_step_all_tiers : Expression "(a+b)&c-(d|é)".toList ∧
    Text.size "(a+b)&c-(d|é)".toList < wordLimit ∧
    ∃ p, plan "(a+b)&c-(d|é)".toList = .ok p ∧ ∀ (k : Nat) (step : Text), p.steps[k]? = some step →
      Expression step ∧ ∃ q, plan step = .ok q ∧ q.steps.getLast? = some step ∧
        q.steps.Sublist (p.steps.take (k + 1)) := by
  have a : Expression ['a'] := .operand (by decide) (List.forall_mem_singleton.mpr (by decide))
  have b : Expression ['b'] := .operand (by decide) (List.forall_mem_singleton.mpr (by decide))
  have c : Expression ['c'] := .operand (by decide) (List.forall_mem_singleton.mpr (by decide))
  have d : Expression ['d'] := .operand (by decide) (List.forall_mem_singleton.mpr (by decide))
  have e : Expression ['é'] := .operand (by decide) (List.forall_mem_singleton.mpr (by decide))
  have expression : Expression "(a+b)&c-(d|é)".toList :=
    .joined .and (.parenthesized (.joined .add a b))
      (.joined .subtract c (.parenthesized (.joined .or d e)))
  have fits : Text.size "(a+b)&c-(d|é)".toList < wordLimit := by decide
  exact ⟨expression, fits, steps_of_step expression fits⟩

end EvalOrder
