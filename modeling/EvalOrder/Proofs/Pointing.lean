import EvalOrder.Checked.Report
import EvalOrder.Proofs.Drawing
import EvalOrder.Proofs.Scanning
import EvalOrder.Proofs.Unresolved
import Mathlib

/-! Whether reports point at what is to blame. A span counts bytes and the drawing takes it to count
characters. Main statement: the report of a failure points at the offending text exactly if all characters
up to its end take one byte each. -/
namespace EvalOrder

open EvalOrder.Part Site

/-- The part of the source that is to blame for a failure: a parenthesis, a marker, or a level with an
alias that names none. -/
def Failure.Blames (source : Text) (failure : Failure) (before middle : Text) : Prop :=
  failure.cause = .unclosed ∧ middle = ['('] ∨ failure.cause = .stray ∧ middle = [')'] ∨
    failure.cause = .reserved ∧ middle = [marker] ∨
    ∃ name available levels, failure.cause = .unresolved name available ∧ levelsOf source = .ok levels ∧
      ∃ level ∈ levels, Text.size before = level.start ∧ middle = level.raw

theorem unresolved_of_plan {ps : List Part} {failure : Failure} (unmarked : marker ∉ join ps)
    (failed : plan (join ps) = .error failure) :
    ∃ s ∈ all ps, ∃ name, failure = (s.finished (all ps)).unresolved name := by
  obtain ⟨level, token, first, rfl⟩ := (plan_eq_error_iff unmarked).mp failed
  obtain ⟨s, member, rfl⟩ := List.mem_map.mp first.1.mem
  exact ⟨s, member, token.text, rfl⟩

theorem blames_of_plan {source : Text} {failure : Failure} (failed : plan source = .error failure) :
    ∃ before middle after, source = before ++ middle ++ after ∧ middle ≠ [] ∧
      failure.spans = [⟨Text.size before, Text.size before + Text.size middle⟩] ∧
      failure.Blames source before middle := by
  cases found : levelsOf source with
  | error first =>
    rw [plan_eq, splitLevelsOf, found] at failed
    obtain rfl : first = failure := Except.error.inj failed
    obtain ⟨u, c, v, split, one, located, blame⟩ := atCharacter_of_levelsOf found
    refine ⟨u, [c], v, by simp [split], by simp, ?_, ?_⟩
    · rw [located]
      simp [Failure.ofByte, one]
    · rcases blame with ⟨cause, rfl⟩ | ⟨cause, rfl⟩ | ⟨cause, rfl⟩
      · exact .inl ⟨cause, rfl⟩
      · exact .inr (.inl ⟨cause, rfl⟩)
      · exact .inr (.inr (.inl ⟨cause, rfl⟩))
  | ok levels =>
    obtain ⟨ps, rfl, unmarked, rfl⟩ := levelsOf_eq_ok_iff.mp found
    have some_source : join ps ≠ [] := by
      intro none
      rw [none] at failed
      have planned : (plan []).isOk = true := by cbv
      rw [failed] at planned
      cases planned
    obtain ⟨s, hs, name, rfl⟩ := unresolved_of_plan unmarked failed
    obtain ⟨u, v, split, start⟩ := raw_at hs
    refine ⟨u, s.level.raw, v, split, raw_ne_nil some_source hs, by rw [start]; rfl, ?_⟩
    exact .inr (.inr (.inr ⟨name, _, _, rfl, found, s.level, List.mem_map_of_mem hs, start, rfl⟩))

/-- The report of a failure points at the offending text exactly if every character up to the end of that
text takes one byte. -/
theorem report_pointsAt_iff {source : Text} {failure : Failure} (one : OneLine source)
    (failed : plan source = .error failure) :
    ∃ before middle after, source = before ++ middle ++ after ∧
      failure.spans = [⟨Text.size before, Text.size before + Text.size middle⟩] ∧
      failure.Blames source before middle ∧
      (PointsAt source before.length middle.length (report failure source) ↔
        ∀ c ∈ before ++ middle, c.utf8Size = 1) := by
  obtain ⟨before, middle, after, rfl, some_text, spans, blames⟩ := blames_of_plan failed
  have some_cell : Text.size before < Text.size before + Text.size middle := by
    have := mt Text.size_eq_zero.mp some_text
    omega
  refine ⟨before, middle, after, rfl, spans, blames, ?_⟩
  have longer_before := Text.length_le_size before
  have longer_middle := Text.length_le_size middle
  rw [Report.pointsAt_iff one spans some_cell, ← Text.size_eq_length_iff]
  simp only [Text.size_append, List.length_append]
  omega

theorem report_pointsAt_iff_marker : OneLine "a+b@é".toList ∧
    plan "a+b@é".toList = .error (.ofByte .reserved 3) ∧
    ∃ before middle after, "a+b@é".toList = before ++ middle ++ after ∧
      (Failure.ofByte .reserved 3).spans = [⟨Text.size before, Text.size before + Text.size middle⟩] ∧
      (Failure.ofByte .reserved 3).Blames "a+b@é".toList before middle ∧
      (PointsAt "a+b@é".toList before.length middle.length (report (.ofByte .reserved 3) "a+b@é".toList) ↔
        ∀ c ∈ before ++ middle, c.utf8Size = 1) := by
  have one : OneLine "a+b@é".toList := by simp [OneLine, lineBreaks]
  have failed : plan "a+b@é".toList = .error (.ofByte .reserved 3) := by cbv
  exact ⟨one, failed, report_pointsAt_iff one failed⟩

/-- Two characters of two bytes in front of a parenthesis: the report finds no place in the source. -/
theorem report_misses_after_two_bytes : OneLine "éé(".toList ∧
    plan "éé(".toList = .error (.ofByte .unclosed 4) ∧
    (report (.ofByte .unclosed 4) "éé(".toList)[1]?.map Line.plain = some "   ╭─[input:?:?]".toList ∧
    ¬ PointsAt "éé(".toList 2 1 (report (.ofByte .unclosed 4) "éé(".toList) := by
  have one : OneLine "éé(".toList := by simp [OneLine, lineBreaks]
  have lost : (report (.ofByte .unclosed 4) "éé(".toList)[1]?.map Line.plain =
      some "   ╭─[input:?:?]".toList := by decide
  refine ⟨one, by cbv, lost, fun points => ?_⟩
  have place := points.place
  rw [lost] at place
  revert place
  decide

end EvalOrder
