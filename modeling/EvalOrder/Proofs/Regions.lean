import EvalOrder.Proofs.Descent
import EvalOrder.Theory.Regions
import Mathlib

/-! Main statement: a level contains another one exactly if its region does, and regions that are not
within each other have no byte in common. A parenthesis belongs to one level, so between two levels side
by side stand both of theirs. -/
namespace EvalOrder

open EvalOrder.Part Site

namespace Site

variable {ps : List Part} {s d : Site}

theorem span_level (member : s ∈ all ps) :
    s.level.span = ⟨s.first - 1, if s.height = 0 then s.last else s.last + 1⟩ := by
  rcases eq_root_or_deeper member with rfl | deeper
  · rfl
  · have enclosed : s.height ≠ 0 := Nat.ne_of_gt deeper.2
    have size := size_group s.inside
    simp only [Level.span, level, last, if_neg enclosed, size, Span.mk.injEq, true_and]
    omega

theorem span_nonempty (member : s ∈ all ps) (enclosed : 0 < s.height) :
    s.level.span.start < s.level.span.stop := by
  have order := first_le_last s
  rw [span_level member, if_neg (Nat.ne_of_gt enclosed)]
  simp only
  omega

theorem Apart.span (hs : s ∈ all ps) (hd : d ∈ all ps) (apart : s.Apart d) :
    s.level.span.stop ≤ d.level.span.start := by
  unfold Apart at apart
  rw [span_level hs, span_level hd]
  simp only
  split <;> omega

theorem within_of_child (hs : s ∈ all ps) (hd : d ∈ all ps) (deeper : s.height < d.height) {c : Site}
    (child : c ∈ s.children) (front : c.first ≤ d.first) (back : d.last ≤ c.last) :
    s.level.contains d.level = true ∧ d.level.span.Within s.level.span := by
  have bounds := children_bounds child
  refine ⟨contains_level.mpr (by omega), ?_⟩
  rw [span_level hs, span_level hd, if_neg (by omega : d.height ≠ 0)]
  simp only [Span.Within]
  split <;> omega

theorem contains_eq_false (apart : d.Apart s ∨ s.Apart d) : s.level.contains d.level = false := by
  have s_order := first_le_last s
  have d_order := first_le_last d
  refine Bool.eq_false_iff.mpr fun contains => ?_
  have ends := contains_level.mp contains
  unfold Apart at apart
  omega

theorem within_or_apart (hs : s ∈ all ps) (hd : d ∈ all ps) (deeper : s.height < d.height) :
    s.level.contains d.level = true ∧ d.level.span.Within s.level.span ∨
      s.level.contains d.level = false ∧ s.level.span.Apart d.level.span := by
  rcases in_child_or_apart (isRow_root ps) hs hd deeper with ⟨c, child, front, back⟩ | apart | apart
  · exact .inl (within_of_child hs hd deeper child front back)
  · exact .inr ⟨contains_eq_false (.inl apart), .inr (apart.span hd hs)⟩
  · exact .inr ⟨contains_eq_false (.inr apart), .inl (apart.span hs hd)⟩

theorem contains_iff_within (hs : s ∈ all ps) (hd : d ∈ all ps) (deeper : s.height < d.height) :
    s.level.contains d.level = true ↔ d.level.span.Within s.level.span := by
  have some_byte := span_nonempty hd (by omega)
  rcases within_or_apart hs hd deeper with ⟨contains, within⟩ | ⟨outside, apart⟩
  · exact iff_of_true contains within
  · refine iff_of_false (Bool.eq_false_iff.mp outside) fun within => ?_
    unfold Span.Within at within
    unfold Span.Apart at apart
    omega

theorem beside_of_precedes (hs : s ∈ all ps) (hd : d ∈ all ps) (order : s.Precedes d)
    (same : s.height = d.height) :
    s.level.span.Apart d.level.span := by
  rcases order with deeper | ⟨_, apart⟩
  · omega
  · exact .inl (apart.span hs hd)

theorem slice_span (member : s ∈ all ps) :
    Text.slice? (join ps) s.level.span.start s.level.span.stop = some s.level.raw := by
  obtain ⟨u, v, split, start⟩ := raw_at member
  exact Text.slice?_eq_some_iff.mpr ⟨u, v, split, start, by rw [start]; rfl⟩

end Site

theorem levelsOf_regions {source : Text} {levels : List Level} (found : levelsOf source = .ok levels) :
    Regions source levels := by
  obtain ⟨ps, rfl, _, rfl⟩ := levelsOf_eq_ok_iff.mp found
  constructor
  case contains =>
    intro a ha b hb deeper
    obtain ⟨s, hs, rfl⟩ := List.mem_map.mp ha
    obtain ⟨d, hd, rfl⟩ := List.mem_map.mp hb
    exact contains_iff_within hs hd deeper
  case outside =>
    intro a ha b hb deeper outside
    obtain ⟨s, hs, rfl⟩ := List.mem_map.mp ha
    obtain ⟨d, hd, rfl⟩ := List.mem_map.mp hb
    rcases within_or_apart hs hd deeper with ⟨contains, _⟩ | ⟨_, apart⟩
    · exact absurd (contains.symm.trans outside) (by decide)
    · exact apart
  case beside =>
    refine List.pairwise_map.mpr ((rows_precedes (isRow_root ps)).imp_of_mem fun hs hd order same => ?_)
    exact beside_of_precedes hs hd order same
  case raw =>
    intro level member
    obtain ⟨s, hs, rfl⟩ := List.mem_map.mp member
    exact slice_span hs
  case some_byte =>
    intro level member enclosed
    obtain ⟨s, hs, rfl⟩ := List.mem_map.mp member
    exact span_nonempty hs enclosed

theorem levelsOf_regions_adjacent : ∃ levels, levelsOf "é(()(a))".toList = .ok levels ∧
    levels.map Level.span = [⟨3, 5⟩, ⟨5, 8⟩, ⟨2, 9⟩, ⟨0, 9⟩] ∧ Regions "é(()(a))".toList levels := by
  have spans : (levelsOf "é(()(a))".toList).toOption.map (List.map Level.span) =
      some [⟨3, 5⟩, ⟨5, 8⟩, ⟨2, 9⟩, ⟨0, 9⟩] := by cbv
  cases found : levelsOf "é(()(a))".toList with
  | error failure =>
    rw [found] at spans
    cases spans
  | ok levels =>
    rw [found] at spans
    exact ⟨levels, rfl, Option.some.inj spans, levelsOf_regions found⟩

end EvalOrder
