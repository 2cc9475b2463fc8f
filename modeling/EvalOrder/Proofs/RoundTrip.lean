import EvalOrder.Proofs.Locality
import EvalOrder.Proofs.Placement
import EvalOrder.Proofs.Slices

/-! Main statement: a masked text is put back as it was exactly if no digit follows the closing
parenthesis of a level right inside. Behind the last of these stands the closing parenthesis of the level
itself, or nothing, so the digit is never one beyond the level. The bound on the size is the one that a
length in a machine word gives. -/
namespace EvalOrder

open EvalOrder.Part Site

namespace Site

theorem at_aliased (sites : List Site) (s : Site) : s.At (s.aliased sites) := ⟨rfl, rfl, rfl⟩

theorem named?_aliased (sites : List Site) (s : Site) (name : Text) :
    (s.aliased sites).named? (sites.map (aliased sites)) name =
      (s.finished sites).named? (sites.map (finished sites)) name := by
  simp only [Level.named?, Option.bind_eq_bind, Option.pure_def, List.getElem?_map, Option.bind_map]
  rfl

variable {ps : List Part} {s c : Site}

theorem harmless_aliased (unmarked : marker ∉ join ps) (member : s ∈ all ps) :
    Harmless ((all ps).map (aliased (all ps))) (s.aliased (all ps)) := by
  intro name raw named
  rw [named?_aliased] at named
  exact (namesGroups_finished unmarked member).harmless name raw named

theorem onePass_aliased_iff (sites : List Site) (s : Site) {t u : Text} :
    onePass (sites.map (aliased sites)) (s.aliased sites) t = .ok u ↔
      onePass (sites.map (finished sites)) (s.finished sites) t = .ok u := by
  have same := onePass_same (named?_aliased sites s) rfl t
  rcases same with ⟨x, left, right⟩ | ⟨name, available, left, right⟩
  · rw [left, right]
  · rw [left, right]
    constructor
    · intro impossible
      cases impossible
    · intro impossible
      cases impossible

theorem onePass_masked_iff_clear (unmarked : marker ∉ join ps) (fits : Text.size (join ps) < wordLimit)
    (member : s ∈ all ps) :
    onePass ((all ps).map (finished (all ps))) (s.finished (all ps)) (masked 0 s.inside) =
      .ok (join s.inside) ↔
      Clear s.inside := by
  constructor
  · exact clear_of_onePass_masked (namesGroups_finished unmarked member) (unmarked_inside unmarked member)
  · intro clear
    have whole : cutOut s.inside ⟨0, s.inside.length⟩ = s.inside := by simp [cutOut]
    have order : (⟨0, s.inside.length⟩ : Span).start ≤ (⟨0, s.inside.length⟩ : Span).stop := Nat.zero_le _
    have restored :=
      (nestedOn_finished (all ps) s).onePass_cutOut unmarked (fits_of_size fits member) member order
      (by rwa [whole])
    simpa [whole, groups] using restored

/-- Behind a level stands its closing parenthesis, or the end of the source. -/
theorem not_digitAt_last (member : s ∈ all ps) : ¬ DigitAt (join ps) s.last := by
  rw [all_eq] at member
  rcases List.mem_append.mp member with inner | outermost
  · obtain ⟨b, v, source, start⟩ := group_of_mem_below inner
    have split : join ps = b ++ ['('] ++ join s.inside ++ ')' :: v := by
      rw [source]
      simp
    have last : Text.size (b ++ ['('] ++ join s.inside) = s.last := by
      have one : Text.size ['('] = 1 := by decide
      rw [Text.size_append, Text.size_append, one, start]
      rfl
    rw [split, ← last, digitAt_size]
    exact Bool.false_ne_true
  · obtain rfl := List.mem_singleton.mp outermost
    have last : Text.size (join ps) = (root ps).last := (Nat.zero_add _).symm
    have behind : ¬ DigitAt (join ps ++ []) (Text.size (join ps)) := by
      rw [digitAt_size]
      exact Bool.false_ne_true
    rwa [List.append_nil, last] at behind

theorem clear_iff_no_digit (member : s ∈ all ps) :
    Clear s.inside ↔ ∀ c ∈ s.children, ¬ DigitAt (join ps) (c.last + 1) := by
  obtain ⟨before, after, source, start⟩ := in_of_mem_all member
  rw [clear_iff (s.height + 1) source, start]
  constructor
  · intro free c child digit
    have within : c.last < s.last := (children_bounds child).2.1
    have not_last : c.last + 1 ≠ s.last := fun same => not_digitAt_last member (same ▸ digit)
    exact free c child ⟨Nat.lt_of_le_of_ne within not_last, digit⟩
  · intro free c child seam
    exact free c child seam.2

end Site

theorem expand_masked_iff {source : Text} {levels : List Level} {place : Nat} {level : Level}
    (found : levelsOf source = .ok levels) (fits : Text.size source < wordLimit)
    (here : (maskAll levels)[place]? = some level) :
    ∃ core, level.raw = level.enclose core ∧ (level.height = 0 → core = source) ∧
      (expand (maskAll levels) level level.masked = .ended (.ok core) ↔
        ∀ inner ∈ maskAll levels, level.RightAround (maskAll levels) inner →
          ¬ DigitAt source (inner.stop + 1)) := by
  obtain ⟨ps, rfl, unmarked, rfl⟩ := levelsOf_eq_ok_iff.mp found
  rw [maskAll_levels] at here ⊢
  rw [List.getElem?_map, Option.map_eq_some_iff] at here
  obtain ⟨s, here, rfl⟩ := here
  have member : s ∈ all ps := List.mem_of_getElem? here
  refine ⟨join s.inside, rfl, ?_, ?_⟩
  · intro outermost
    rcases eq_root_or_deeper member with rfl | deeper
    · rfl
    · exact absurd outermost (Nat.ne_of_gt deeper.2)
  · have children := children_view (at_aliased (all ps)) member
    have read_back := (onePass_aliased_iff (all ps) s).trans (onePass_masked_iff_clear unmarked fits member)
    rw [expand_eq (harmless_aliased unmarked member), Searched.ended_inj]
    apply read_back.trans
    rw [clear_iff_no_digit member]
    constructor
    · intro free inner listed around
      obtain ⟨c, child, rfl⟩ := List.mem_map.mp ((children.mem inner).mpr ⟨listed, around⟩)
      exact free c child
    · intro free c child
      obtain ⟨listed, around⟩ := (children.mem _).mp (List.mem_map_of_mem child)
      exact free _ listed around

theorem expand_masked_iff_inner_digit : ∃ levels level, levelsOf "((b)2)+(c)-3".toList = .ok levels ∧
    Text.size "((b)2)+(c)-3".toList < wordLimit ∧ (maskAll levels)[3]? = some level ∧
      ∃ core, level.raw = level.enclose core ∧ (level.height = 0 → core = "((b)2)+(c)-3".toList) ∧
        (expand (maskAll levels) level level.masked = .ended (.ok core) ↔
          ∀ inner ∈ maskAll levels, level.RightAround (maskAll levels) inner →
            ¬ DigitAt "((b)2)+(c)-3".toList (inner.stop + 1)) := by
  have found : levelsOf "((b)2)+(c)-3".toList = .ok [⟨1, 3, 2, "(b)".toList, [], [], []⟩,
      ⟨0, 5, 1, "((b)2)".toList, [], [], []⟩, ⟨7, 9, 1, "(c)".toList, [], [], []⟩,
      Level.outermost "((b)2)+(c)-3".toList] := by cbv
  have fits : Text.size "((b)2)+(c)-3".toList < wordLimit := by decide
  have here : (maskAll [⟨1, 3, 2, "(b)".toList, [], [], []⟩, ⟨0, 5, 1, "((b)2)".toList, [], [], []⟩,
      ⟨7, 9, 1, "(c)".toList, [], [], []⟩, Level.outermost "((b)2)+(c)-3".toList])[3]? =
      some ⟨0, 12, 0, "((b)2)+(c)-3".toList, "@0+@1-3".toList, [1, 2], []⟩ := by cbv
  exact ⟨_, _, found, fits, here, expand_masked_iff found fits here⟩

end EvalOrder
