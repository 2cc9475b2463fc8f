import EvalOrder.Proofs.Descent
import EvalOrder.Proofs.Faultless.Masking
import EvalOrder.Proofs.Faultless.Splitting
import EvalOrder.Proofs.Steps
import EvalOrder.Proofs.Tokens
import Mathlib

/-! Planning as a machine runs it, from end to end. Every alias is replaced where it stands, each
replacement takes a marker away, and no level reaches further than the source. Main statement: no run of
`plan` meets a fault. -/
namespace EvalOrder.Checked

open EvalOrder.Part Site

section Search

variable {levels : List Level} {level : Level}

theorem suffix_marker (digits : Text) : suffix (marker :: digits) 1 = .ok digits := by
  have rest : Text.slice? (marker :: digits) 1 (Text.size (marker :: digits)) = some digits :=
    Text.slice?_eq_some_iff.mpr ⟨[marker], [], by simp, by simp [utf8Size_marker], by simp [utf8Size_marker]⟩
  rw [suffix, rest]

theorem replace_eq (before old after new : Text) :
    replace (before ++ old ++ after) (Text.size before) (Text.size before + Text.size old) new =
      .ok (before ++ new ++ after) := by
  have front : Text.slice? (before ++ old ++ after) 0 (Text.size before) = some before :=
    Text.slice?_eq_some_iff.mpr ⟨[], old ++ after, by simp, rfl, by simp⟩
  have middle : Text.slice? (before ++ old ++ after) (Text.size before) (Text.size before + Text.size old) =
      some old := Text.slice?_eq_some_iff.mpr ⟨before, after, rfl, rfl, rfl⟩
  have back : Text.slice? (before ++ old ++ after) (Text.size before + Text.size old)
      (Text.size (before ++ old ++ after)) = some after :=
    Text.slice?_eq_some_iff.mpr ⟨before ++ old, [], by simp, by simp, by simp [Nat.add_assoc]⟩
  rw [replace, front, middle, back]

theorem search_eq (fits : level.start + Text.size level.raw < wordLimit) (t : Text) :
    search levels level t = .ok (EvalOrder.search levels level t) := by
  rw [search, find?_tokenize, EvalOrder.search]
  cases found : firstAlias? t with
  | none => rfl
  | some parts =>
    obtain ⟨before, name, after⟩ := parts
    obtain ⟨digits, rfl⟩ := exists_digits_of_firstAlias? found
    obtain ⟨rfl, _⟩ := parts_of_firstAlias? found
    simp only [Option.map_some, aliasToken, suffix_marker, bind, Except.bind]
    cases level.named? levels (marker :: digits) with
    | none => simp [unresolved, span, add_eq fits, bind, Except.bind, pure, Except.pure, Level.unresolved,
      Level.span]
    | some raw => simp only [Nat.zero_add, replace_eq, pure, Except.pure]

theorem expandWithin_eq (fits : level.start + Text.size level.raw < wordLimit) {n : Nat} {t : Text}
    {result : Except Failure Text} (ended : EvalOrder.expandWithin levels level n t = some result) :
    expandWithin levels level n t = faultless result := by
  induction n generalizing t with
  | zero => cases ended
  | succ n ih =>
    rw [EvalOrder.expandWithin] at ended
    rw [expandWithin, lift_bind (search_eq fits t)]
    cases step : EvalOrder.search levels level t with
    | done found =>
      rw [step] at ended
      obtain rfl := Option.some.inj ended
      cases found <;> rfl
    | again u =>
      rw [step] at ended
      exact ih ended

theorem stepsOf_eq (fits : level.start + Text.size level.raw < wordLimit) (harmless : Harmless levels level) :
    stepsOf levels level = faultless (passesOf levels level) :=
  mapM_answer fun o _ => expandWithin_eq fits (expandWithin_eq_onePass harmless (count_lt_searchBound o.text))

end Search

section Sites

variable {ps : List Part} {s : Site}

theorem height_bounds (member : s ∈ all ps) :
    s.height ≤ s.first ∧ s.last + s.height ≤ Text.size (join ps) := by
  refine forall_all (motive := fun s => s.height ≤ s.first ∧ s.last + s.height ≤ Text.size (join ps))
    ⟨Nat.le_refl 0, by simp [root, Site.last]⟩ ?_ member
  rintro r ⟨before, after⟩ c child
  obtain ⟨first, last, height, _⟩ := children_bounds child
  omega

theorem height_fits (member : s ∈ all ps) (fits : Text.size (join ps) < wordLimit) :
    s.level.height + 1 < wordLimit := by
  have bounds := height_bounds member
  have order := s.first_le_last
  simp only [Site.level, wordLimit] at fits ⊢
  omega

theorem span_fits (member : s ∈ all ps) (fits : Text.size (join ps) < wordLimit) :
    s.level.start + Text.size s.level.raw < wordLimit := by
  obtain ⟨before, after, split, start⟩ := raw_at member
  simp only [split, Text.size_append] at fits
  omega

end Sites

/-- Every text that planning keeps is as long as a word can say, as any text is that a machine holds. -/
def FitsWord (source : Text) : Prop :=
  Text.size source < wordLimit ∧
    ∀ levels, EvalOrder.splitLevelsOf source = .ok levels →
      ∀ level ∈ levels, Text.size level.masked < wordLimit

theorem splitLevelsOf_eq {source : Text} (fits : FitsWord source) :
    splitLevelsOf source = faultless (EvalOrder.splitLevelsOf source) := by
  have staged : EvalOrder.splitLevelsOf source =
      EvalOrder.levelsOf source >>= fun found => .ok ((EvalOrder.maskAll found).map Level.split) := by
    rw [EvalOrder.splitLevelsOf]
    cases EvalOrder.levelsOf source <;> rfl
  rw [staged]
  refine bind_answer (levelsOf_eq fits.1) fun found accepted => ?_
  obtain ⟨ps, rfl, unmarked, rfl⟩ := levelsOf_eq_ok_iff.mp accepted
  have heights : ∀ level ∈ (all ps).map Site.level, level.height + 1 < wordLimit := by
    intro level member
    obtain ⟨s, hs, rfl⟩ := List.mem_map.mp member
    exact height_fits hs fits.1
  have splits : ∀ level ∈ EvalOrder.maskAll ((all ps).map Site.level), split level = .ok level.split := by
    intro level member
    exact split_eq (fits.2 _ (splitLevelsOf_join unmarked) level.split
      (split_maskAll ps ▸ List.mem_map_of_mem member))
  have split_all := mapM_eq_ok_iff.mpr ((List.map_congr_left splits).trans List.map_map.symm)
  rw [lift_bind (maskAll_eq heights), split_all]
  rfl

section Capacity

theorem size_aliasOf_le {k : Nat} (small : k < wordLimit) : Text.size (aliasOf k) ≤ 21 := by
  have digits := (Nat.length_toDigits_le_iff (b := 10) (n := k) (k := 20) (by decide) (by decide)).mpr
    (Nat.lt_trans small (by decide))
  rw [aliasOf, Text.size_cons, utf8Size_marker, size_digits (aliasOf_digits k)]
  omega

/-- An alias takes at most 21 bytes, in the place of two or more. -/
theorem size_masked_le {k : Nat} {ps : List Part} (small : k + (groups ps).length ≤ wordLimit) :
    Text.size (masked k ps) ≤ 11 * Text.size (join ps) := by
  induction ps generalizing k with
  | nil => exact Nat.zero_le _
  | cons p ps ih =>
    rw [join_cons, Text.size_append]
    cases p with
    | char c plain =>
      have := ih (k := k) small
      simp only [masked, text_char, Text.size_cons, Text.size_nil]
      omega
    | group inside =>
      simp only [groups, List.length_cons] at small
      have rest := ih (k := k + 1) (by omega)
      have first := size_aliasOf_le (k := k) (by omega)
      rw [masked, Text.size_append, size_group]
      omega

theorem fitsWord_of_size_le {source : Text} (small : 16 * Text.size source ≤ wordLimit) :
    FitsWord source := by
  have limit : 16 < wordLimit := by decide
  refine ⟨by omega, fun levels accepted level member => ?_⟩
  obtain ⟨ps, rfl, _, rfl⟩ := parts_of_splitLevelsOf accepted
  obtain ⟨s, hs, rfl⟩ := List.mem_map.mp member
  have bounds := height_bounds hs
  have few := length_groups_le s.inside
  simp only [Site.last] at bounds
  have few_aliases : 0 + (groups s.inside).length ≤ wordLimit := by omega
  have short := size_masked_le few_aliases
  simp only [finished]
  omega

end Capacity

/-- No run of the machine meets a fault: the answer is always a plan or a failure, and the one of the
unchecked stages. A text that a machine holds fits a word; up to a sixteenth of the word all its masked
texts fit too. -/
theorem plan_faultless (source : Text) :
    (FitsWord source → plan source = faultless (EvalOrder.plan source)) ∧
      (16 * Text.size source ≤ wordLimit → FitsWord source) := by
  refine ⟨fun fits => ?_, fitsWord_of_size_le⟩
  rw [plan_eq]
  refine bind_answer (splitLevelsOf_eq fits) fun levels accepted => ?_
  refine bind_answer (mapM_answer fun level member => ?_) fun steps _ => rfl
  obtain ⟨ps, rfl, unmarked, rfl⟩ := parts_of_splitLevelsOf accepted
  obtain ⟨s, hs, rfl⟩ := List.mem_map.mp member
  exact stepsOf_eq (span_fits hs fits.1) (namesGroups_finished unmarked hs).harmless

theorem plan_faultless_empty_operands : FitsWord "(é+)-()&é".toList ∧
    plan "(é+)-()&é".toList = faultless (EvalOrder.plan "(é+)-()&é".toList) ∧
    (EvalOrder.plan "(é+)-()&é".toList).toOption.map Plan.steps =
      some ["(é+)-()".toList, "(é+)-()&é".toList] := by
  have small : 16 * Text.size "(é+)-()&é".toList ≤ wordLimit := by decide
  have fits := (plan_faultless "(é+)-()&é".toList).2 small
  exact ⟨fits, (plan_faultless "(é+)-()&é".toList).1 fits, by cbv⟩

end EvalOrder.Checked
