import EvalOrder.Proofs.Interior

/-! The steps of a level, from the parts that its operations cover. Where no digit follows a group, every
operation is put back as it stands in the source; the number of groups is far below the greatest index
that an alias can carry. -/
namespace EvalOrder

open EvalOrder.Part Site

theorem mapM_eq_ok_iff {α β ε : Type} {f : α → Except ε β} {xs : List α} {ys : List β} :
    xs.mapM f = .ok ys ↔ xs.map f = ys.map .ok := by
  induction xs generalizing ys with
  | nil => cases ys <;> simp [pure, Except.pure]
  | cons x xs ih =>
    rw [List.mapM_cons]
    cases head : f x with
    | error e => cases ys <;> simp [bind, Except.bind, head]
    | ok y =>
      cases tail : xs.mapM f with
      | error e => cases ys <;> simp [bind, Except.bind, ← ih, head, tail]
      | ok zs => cases ys <;> simp [bind, Except.bind, pure, Except.pure, ← ih, head, tail]

theorem bind_eq_ok_iff {α β ε : Type} {x : Except ε α} {f : α → Except ε β} {b : β} :
    (x >>= f) = .ok b ↔ ∃ a, x = .ok a ∧ f a = .ok b := by
  cases x <;> simp [bind, Except.bind]

theorem bind_eq_error_iff {α β ε : Type} {x : Except ε α} {f : α → Except ε β} {e : ε} :
    (x >>= f) = .error e ↔ x = .error e ∨ ∃ a, x = .ok a ∧ f a = .error e := by
  cases x <;> simp [bind, Except.bind]

theorem harmless_finished {ps : List Part} (unmarked : marker ∉ join ps) :
    ∀ level ∈ (all ps).map (finished (all ps)), Harmless ((all ps).map (finished (all ps))) level := by
  intro level listed
  obtain ⟨s, member, rfl⟩ := List.mem_map.mp listed
  exact (namesGroups_finished unmarked member).harmless

theorem mapM_stepsOf_finished {ps : List Part} (unmarked : marker ∉ join ps) :
    ((all ps).map (finished (all ps))).mapM (stepsOf ((all ps).map (finished (all ps)))) =
      .ended (((all ps).map (finished (all ps))).mapM (passesOf ((all ps).map (finished (all ps))))) :=
  mapM_answer fun level listed => stepsOf_eq (harmless_finished unmarked level listed)

/-- No search runs out, so a plan is made of one pass over each operation. -/
theorem plan_eq (source : Text) : plan source = splitLevelsOf source >>= fun levels =>
    levels.mapM (passesOf levels) >>= fun steps => .ok ⟨levels, steps.flatten⟩ := by
  have settled : plan? source = .ended (splitLevelsOf source >>= fun levels =>
      levels.mapM (passesOf levels) >>= fun steps => .ok ⟨levels, steps.flatten⟩) := by
    refine bind_answer rfl fun levels accepted => ?_
    obtain ⟨ps, _, unmarked, rfl⟩ := parts_of_splitLevelsOf accepted
    exact bind_answer (mapM_stepsOf_finished unmarked) fun steps _ => rfl
  exact Option.get_of_eq_some _ settled

theorem plan_eq_ok_iff {source : Text} {p : Plan} :
    plan source = .ok p ↔ splitLevelsOf source = .ok p.levels ∧
    ∃ texts, p.levels.mapM (passesOf p.levels) = .ok texts ∧ p.steps = texts.flatten := by
  rw [plan_eq, bind_eq_ok_iff]
  constructor
  · rintro ⟨levels, accepted, rest⟩
    obtain ⟨texts, made, same⟩ := bind_eq_ok_iff.mp rest
    obtain rfl := Except.ok.inj same
    exact ⟨accepted, texts, made, rfl⟩
  · obtain ⟨levels, steps⟩ := p
    rintro ⟨accepted, texts, made, rfl⟩
    exact ⟨levels, accepted, bind_eq_ok_iff.mpr ⟨texts, made, rfl⟩⟩

theorem exists_levels_of_plan {source : Text} {p : Plan} (planned : plan source = .ok p) :
    ∃ ps texts, source = join ps ∧ marker ∉ join ps ∧ p.levels = (all ps).map (finished (all ps)) ∧
      p.levels.mapM (passesOf p.levels) = .ok texts ∧ p.steps = texts.flatten := by
  obtain ⟨accepted, texts, made, same⟩ := plan_eq_ok_iff.mp planned
  obtain ⟨ps, rfl, unmarked, listed⟩ := parts_of_splitLevelsOf accepted
  exact ⟨ps, texts, rfl, unmarked, listed, made, same⟩

namespace Part

theorem length_groups_le (ps : List Part) : (groups ps).length ≤ Text.size (join ps) := by
  induction ps with
  | nil => exact Nat.le_refl _
  | cons p ps ih =>
    have := size_text_pos p
    rw [join_cons, Text.size_append]
    cases p with
    | char c plain =>
      rw [groups]
      omega
    | group inside =>
      rw [groups, List.length_cons]
      omega

theorem digitAfterClose_mono {t u : Text} (inside : t <:+: u) (seam : DigitAfterClose t) :
    DigitAfterClose u := by
  obtain ⟨left, right, rfl⟩ := inside
  obtain ⟨before, digit, after, rfl, is_digit⟩ := seam
  exact ⟨left ++ before, digit, after ++ right, by simp, is_digit⟩

theorem clear_of_no_seam {ps : List Part} (free : ¬ DigitAfterClose (join ps)) : Clear ps := by
  induction ps with
  | nil => trivial
  | cons p ps ih =>
    rw [join_cons] at free
    have rest := ih fun seam => free (digitAfterClose_mono (List.suffix_append _ _).isInfix seam)
    cases p with
    | char c plain => exact rest
    | group inside =>
      refine ⟨?_, rest⟩
      cases tail : join ps with
      | nil => rfl
      | cons c t =>
        rw [digitFirst, List.head?_cons, Option.any_some, ← Bool.not_eq_true]
        intro digit
        exact free ⟨'(' :: join inside, c, t, by rw [tail, text_group]; simp, digit⟩

end Part

namespace Site

def maskedSteps (k : Nat) (s : Site) : List Text :=
  (spans s.inside).map fun span => masked (k + (groups (s.inside.take span.start)).length)
  (cutOut s.inside span)

theorem texts_of_masked (k : Nat) (s : Site) :
    (operationsOf (masked k s.inside)).map Operation.text = s.maskedSteps k := by
  rw [operationsOf_masked, maskedSteps, spans, List.map_map, List.map_map]
  conv => rhs; rw [← List.zipIdx_map_fst 0 (inOrder _ _ _), List.map_map]
  rfl

theorem passesOf_masked {levels : List Level} {level : Level} {k : Nat} {s : Site}
    (split : level.operations = operationsOf (masked k s.inside)) :
    passesOf levels level = (s.maskedSteps k).mapM (onePass levels level) := by
  rw [← texts_of_masked, List.mapM_map, passesOf, split]
  rfl

theorem passesOf_finished (sites : List Site) (levels : List Level) (s : Site) :
    passesOf levels (s.finished sites) = (s.maskedSteps 0).mapM (onePass levels (s.finished sites)) :=
  passesOf_masked rfl

variable {ps : List Part} {s : Site}

theorem unmarked_cutOut (unmarked : marker ∉ join ps) (member : s ∈ all ps) {span : Span}
    (order : span.start ≤ span.stop) : marker ∉ join (cutOut s.inside span) := by
  intro inside
  apply unmarked_inside unmarked member
  rw [cutOut_split s.inside order, join_append, join_append]
  exact List.mem_append_left _ (List.mem_append_right _ inside)

theorem NestedOn.eq_join_iff {before : List Nat} {levels : List Level} {level : Level}
    (on : NestedOn (all ps) s before levels level) (unmarked : marker ∉ join ps) (member : s ∈ all ps)
    {span : Span}
    (order : span.start ≤ span.stop) {u : Text}
    (made : onePass levels level
      (masked (before.length + (groups (s.inside.take span.start)).length) (cutOut s.inside span)) = .ok u) :
    u = join (cutOut s.inside span) ↔ Clear (cutOut s.inside span) := by
  have split := cutOut_split s.inside order
  have covered_unmarked := unmarked_cutOut unmarked member order
  exact eq_join_iff_clear (on.namesGroups unmarked member) (on.namesRight member split) covered_unmarked made

theorem length_groups_le_of_mem (member : s ∈ all ps) :
    (groups s.inside).length ≤ Text.size (join ps) := by
  obtain ⟨before, after, source, _⟩ := in_of_mem_all member
  have := length_groups_le s.inside
  rw [source, Text.size_append, Text.size_append]
  omega

theorem NestedOn.onePass_cutOut {before : List Nat} {levels : List Level} {level : Level}
    (on : NestedOn (all ps) s before levels level) (unmarked : marker ∉ join ps)
    (fits : before.length + (groups s.inside).length ≤ wordLimit) (member : s ∈ all ps) {span : Span}
    (order : span.start ≤ span.stop) (clear : Clear (cutOut s.inside span)) :
    onePass levels level
      (masked (before.length + (groups (s.inside.take span.start)).length) (cutOut s.inside span)) =
      .ok (join (cutOut s.inside span)) := by
  have split := cutOut_split s.inside order
  have covered_unmarked := unmarked_cutOut unmarked member order
  rcases onePass_masked_of_clear (on.namesRight member split) covered_unmarked clear
    with done | ⟨j, short, missing, _⟩
  · exact done
  · -- the index is below the number of groups, so it fits a word and names one of them
    have count := congrArg (fun qs => (groups qs).length) split
    simp only [groups_append, List.length_append] at count
    rw [Nat.add_assoc, on.named?_own member, if_pos (by omega), Option.map_eq_none_iff,
      List.getElem?_eq_none_iff] at missing
    omega

theorem NestedOn.passesOf_eq {before : List Nat} {levels : List Level} {level : Level}
    (on : NestedOn (all ps) s before levels level) (unmarked : marker ∉ join ps)
    (fits : before.length + (groups s.inside).length ≤ wordLimit) (member : s ∈ all ps)
    (clear : Clear s.inside)
    (split : level.operations = operationsOf (masked before.length s.inside)) :
    passesOf levels level = .ok s.steps := by
  rw [passesOf_masked split, mapM_eq_ok_iff, maskedSteps, steps, List.map_map, List.map_map]
  apply List.map_congr_left
  intro span hspan
  have order := span_order hspan
  have clear_cut : Clear (cutOut s.inside span) := by
    rw [cutOut_split s.inside order.1] at clear
    exact clear_append (clear_of_clear_append clear)
  rw [Function.comp_apply, Function.comp_apply]
  exact on.onePass_cutOut unmarked fits member order.1 clear_cut

theorem fits_of_size (fits : Text.size (join ps) < wordLimit) (member : s ∈ all ps) :
    ([] : List Nat).length + (groups s.inside).length ≤ wordLimit := by
  have few := length_groups_le_of_mem member
  rw [List.length_nil]
  omega

theorem passesOf_of_clear (unmarked : marker ∉ join ps) (fits : Text.size (join ps) < wordLimit)
    (member : s ∈ all ps) (clear : Clear s.inside) :
    passesOf ((all ps).map (finished (all ps))) (s.finished (all ps)) = .ok s.steps :=
  (nestedOn_finished (all ps) s).passesOf_eq unmarked (fits_of_size fits member) member clear rfl

theorem clear_site (free : ¬ DigitAfterClose (join ps)) (member : s ∈ all ps) : Clear s.inside := by
  obtain ⟨before, after, source, _⟩ := in_of_mem_all member
  refine clear_of_no_seam fun seam => free (digitAfterClose_mono ?_ seam)
  exact ⟨before, after, source.symm⟩

end Site

end EvalOrder
