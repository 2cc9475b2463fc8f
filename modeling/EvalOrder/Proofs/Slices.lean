import EvalOrder.Proofs.Steps
import Mathlib

/-! Which steps are slices of the source. Operands are not always kept: a digit after a closing parenthesis is
read as part of the alias in front of it. If the longer alias names a level too, there is a plan, and the
digit is lost. Main statement: this is the only way for a step to differ from its part of the source. -/
namespace EvalOrder

open EvalOrder.Part Site

def DigitAt (source : Text) (n : Nat) : Prop :=
  ∃ before digit after, source = before ++ digit :: after ∧ Text.size before = n ∧ digit.isDigit = true

/-- Within the span lies `inner`, and a digit right after its closing parenthesis. -/
def Level.SeamIn (source : Text) (span : Span) (inner : Level) : Prop :=
  span.start ≤ inner.start ∧ inner.stop + 1 < span.stop ∧ DigitAt source (inner.stop + 1)

/-- The step made of operation `k` of a level, against the part of the source that its operator reaches. -/
def Level.SliceUnlessSeam (source : Text) (levels : List Level) (level : Level) (k : Nat) (o : Operation)
    (step : Text) : Prop :=
  let own := level.ownMarks source levels
  let lo := level.interior.start
  let hi := level.interior.stop
  ∃ m, (inOrder own lo hi)[k]? = some m ∧ m.operator = o.operator ∧
    let span := reach own lo hi m
    lo ≤ span.start ∧ span.start ≤ m.offset ∧ m.offset < span.stop ∧ span.stop ≤ hi ∧
      (step = Text.slice source span.start span.stop ↔
        ∀ inner ∈ levels, level.holds inner = true → ¬ inner.SeamIn source span)

theorem digitAt_size {u v : Text} : DigitAt (u ++ v) (Text.size u) ↔ digitFirst v = true := by
  constructor
  · rintro ⟨before, digit, after, same, place, is_digit⟩
    obtain ⟨rfl, rfl⟩ := Text.append_inj_of_size same place.symm
    exact is_digit
  · intro first
    cases v with
    | nil => cases first
    | cons digit after => exact ⟨u, digit, after, rfl, rfl, first⟩

theorem clear_iff {source before after : Text} (height : Nat) {ps : List Part}
    (here : source = before ++ join ps ++ after) :
    Clear ps ↔ ∀ c ∈ among (Text.size before) height ps,
      ¬ (c.last + 1 < Text.size before + Text.size (join ps) ∧ DigitAt source (c.last + 1)) := by
  induction ps generalizing before with
  | nil => exact ⟨fun _ _ hc => absurd hc List.not_mem_nil, fun _ => trivial⟩
  | cons p ps ih =>
    have split : source = before ++ p.text ++ (join ps ++ after) := by
      rw [here, join_cons]
      simp only [List.append_assoc]
    have tail : source = before ++ p.text ++ join ps ++ after := by
      rw [split]
      simp only [List.append_assoc]
    have next := ih tail
    rw [Text.size_append] at next
    rw [join_cons, Text.size_append, ← Nat.add_assoc]
    cases p with
    | char c plain => exact next
    | group inside =>
      have edge : Site.last ⟨Text.size before + 1, height, inside⟩ + 1 =
          Text.size (before ++ (group inside).text) := by
        rw [Text.size_append, size_group, Site.last]
        simp only
        omega
      have first : digitFirst (join ps) = false ↔
          ¬ (Site.last ⟨Text.size before + 1, height, inside⟩ + 1 <
              Text.size before + Text.size (group inside).text + Text.size (join ps) ∧
            DigitAt source (Site.last ⟨Text.size before + 1, height, inside⟩ + 1)) := by
        rw [edge, split, digitAt_size, Text.size_append]
        cases tail : join ps with
        | nil =>
          refine ⟨fun _ h => ?_, fun _ => rfl⟩
          have := h.1
          rw [Text.size_nil] at this
          omega
        | cons d t =>
          have := d.utf8Size_pos
          rw [Text.size_cons, not_and, Bool.not_eq_true]
          exact ⟨fun h _ => h, fun h => h (by omega)⟩
      rw [Clear, first, next, among]
      constructor
      · rintro ⟨one, rest⟩ c hc
        rcases List.mem_cons.mp hc with rfl | later
        · exact one
        · exact rest c later
      · intro all
        exact ⟨all _ List.mem_cons_self, fun c hc => all c (List.mem_cons_of_mem _ hc)⟩

theorem clear_cutOut_iff {source : Text} {s : Site} (here : s.In source) {span : Span}
    (order : span.start ≤ span.stop) :
    Clear (cutOut s.inside span) ↔ ∀ c ∈ s.children,
      ¬ (joinOffset s.first s.inside span.start ≤ c.first - 1 ∧
        c.last + 1 < joinOffset s.first s.inside span.stop ∧ DigitAt source (c.last + 1)) := by
  obtain ⟨before, after, rfl, start⟩ := here
  have split := cutOut_split s.inside order
  have placed : before ++ join s.inside ++ after = before ++ join (s.inside.take span.start) ++
      join (cutOut s.inside span) ++ (join (s.inside.drop span.stop) ++ after) := by
    conv => lhs; rw [split]
    simp only [join_append, List.append_assoc]
  have front : Text.size (before ++ join (s.inside.take span.start)) =
      joinOffset s.first s.inside span.start := by
    rw [Text.size_append, start, joinOffset]
  have stop : joinOffset s.first s.inside span.stop =
      joinOffset s.first s.inside span.start + Text.size (join (cutOut s.inside span)) :=
    joinOffset_cut s.first s.inside order
  have family := among_append s.first (s.height + 1) (s.inside.take span.start)
    (cutOut s.inside span ++ s.inside.drop span.stop)
  rw [← List.append_assoc, ← split, among_append] at family
  change s.children = among _ _ _ ++ (among (joinOffset s.first s.inside span.start) _ _ ++
    among (joinOffset s.first s.inside span.start + _) _ _) at family
  rw [clear_iff (s.height + 1) placed, front, family, stop]
  constructor
  · rintro free c hc ⟨left, right, digit⟩
    rcases List.mem_append.mp hc with earlier | later
    · have := (among_bounds earlier).2.1
      have := first_le_last c
      have : joinOffset s.first s.inside span.start =
        s.first + Text.size (join (s.inside.take span.start)) := rfl
      have := (among_bounds earlier).1
      omega
    · rcases List.mem_append.mp later with covered | beyond
      · exact free c covered ⟨right, digit⟩
      · have := (among_bounds beyond).1
        have := first_le_last c
        omega
  · rintro free c hc ⟨right, digit⟩
    have := (among_bounds hc).1
    exact free c (List.mem_append_right _ (List.mem_append_left _ hc)) ⟨by omega, right, digit⟩

theorem mem_levels_iff {ps : List Part} {s : Site} (member : s ∈ all ps) {inner : Level} :
    (inner ∈ (all ps).map (finished (all ps)) ∧ (s.finished (all ps)).holds inner = true) ↔
      ∃ c ∈ s.children, inner = c.finished (all ps) := by
  constructor
  · rintro ⟨hinner, holds⟩
    obtain ⟨c, hc, rfl⟩ := List.mem_map.mp hinner
    refine ⟨c, ?_, rfl⟩
    rw [← filter_holds_all member]
    exact List.mem_filter.mpr ⟨hc, holds⟩
  · rintro ⟨c, hc, rfl⟩
    refine ⟨List.mem_map_of_mem (mem_all_of_mem_children member hc), ?_⟩
    rw [← filter_holds_all member] at hc
    exact (List.mem_filter.mp hc).2

theorem step_at_site {ps : List Part} (unmarked : marker ∉ join ps) {s : Site} (member : s ∈ all ps)
    {k : Nat} {o : Operation} {step : Text} (operation : (s.finished (all ps)).operations[k]? = some o)
    (made : onePass ((all ps).map (finished (all ps))) (s.finished (all ps)) o.text = .ok step) :
    ∃ m, (inOrder (signs 0 s.inside) 0 s.inside.length)[k]? = some m ∧ m.operator = o.operator ∧
      (step = join (cutOut s.inside (reach (signs 0 s.inside) 0 s.inside.length m)) ↔
        Clear (cutOut s.inside (reach (signs 0 s.inside) 0 s.inside.length m))) := by
  change (operationsOf (masked 0 s.inside))[k]? = some o at operation
  rw [operationsOf_masked, List.getElem?_map, Option.map_eq_some_iff] at operation
  obtain ⟨⟨m, place⟩, found, rfl⟩ := operation
  rw [List.getElem?_zipIdx, Option.map_eq_some_iff] at found
  obtain ⟨_, found, same⟩ := found
  obtain ⟨rfl, _⟩ := Prod.mk.inj same
  have bounds := reach_bounds (List.mem_of_getElem? found)
  exact ⟨_, found, rfl, (nestedOn_finished (all ps) s).eq_join_iff unmarked member (by omega) made⟩

theorem clear_iff_no_seam {ps : List Part} {s : Site} (member : s ∈ all ps) {span : Span}
    (order : span.start ≤ span.stop) :
    Clear (cutOut s.inside span) ↔
      ∀ inner ∈ (all ps).map (finished (all ps)), (s.finished (all ps)).holds inner = true →
        ¬ inner.SeamIn (join ps)
          ⟨joinOffset s.first s.inside span.start, joinOffset s.first s.inside span.stop⟩ := by
  rw [clear_cutOut_iff (in_of_mem_all member) order]
  constructor
  · intro free inner hinner holds
    obtain ⟨c, hc, rfl⟩ := (mem_levels_iff member).mp ⟨hinner, holds⟩
    exact free c hc
  · intro free c hc
    obtain ⟨hinner, holds⟩ := (mem_levels_iff member).mpr ⟨c, hc, rfl⟩
    exact free _ hinner holds

theorem getElem?_of_mapM {α β ε : Type} {f : α → Except ε β} {xs : List α} {ys : List β}
    (made : xs.mapM f = .ok ys) {k : Nat} {x : α} {y : β} (hx : xs[k]? = some x) (hy : ys[k]? = some y) :
    f x = .ok y := by
  have same := congrArg (fun zs => zs[k]?) (mapM_eq_ok_iff.mp made)
  simp only [List.getElem?_map, hx, hy, Option.map_some] at same
  exact Option.some.inj same

theorem length_of_mapM {α β ε : Type} {f : α → Except ε β} {xs : List α} {ys : List β}
    (made : xs.mapM f = .ok ys) : ys.length = xs.length := by
  have same := congrArg List.length (mapM_eq_ok_iff.mp made)
  rw [List.length_map, List.length_map] at same
  exact same.symm

/-- The steps of a plan, level by level and operation by operation. -/
theorem step_eq_slice_iff {source : Text} {p : Plan} (planned : plan source = .ok p) :
    ∃ texts, p.levels.mapM (stepsOf p.levels) = .ended (.ok texts) ∧ p.steps = texts.flatten ∧
      ∀ (i : Nat) (level : Level) (steps : List Text), p.levels[i]? = some level → texts[i]? = some steps →
        steps.length = level.operations.length ∧
          ∀ (k : Nat) (o : Operation) (step : Text), level.operations[k]? = some o →
            steps[k]? = some step → level.SliceUnlessSeam source p.levels k o step := by
  obtain ⟨ps, texts, rfl, unmarked, levels, made, steps_eq⟩ := exists_levels_of_plan planned
  have settled : p.levels.mapM (stepsOf p.levels) = .ended (.ok texts) := by
    rw [levels, mapM_stepsOf_finished unmarked, ← levels, made]
  refine ⟨texts, settled, steps_eq, ?_⟩
  intro i level steps hlevel hsteps
  have made_here := getElem?_of_mapM made hlevel hsteps
  refine ⟨length_of_mapM made_here, ?_⟩
  intro k o step ho hstep
  have passed := getElem?_of_mapM made_here ho hstep
  rw [levels] at passed hlevel ⊢
  rw [List.getElem?_map, Option.map_eq_some_iff] at hlevel
  obtain ⟨s, at_place, rfl⟩ := hlevel
  have member : s ∈ all ps := List.mem_of_getElem? at_place
  obtain ⟨m, found, operator, exact_iff⟩ := step_at_site unmarked member ho passed
  have in_order := List.mem_of_getElem? found
  have bounds := reach_bounds in_order
  have offsets := keeps_join s.first s.inside
  rw [Level.SliceUnlessSeam, interior_eq member (at_finished _ s), ownMarks_eq (at_finished _) member]
  simp only
  rw [inOrder_own]
  refine ⟨m.move (joinOffset s.first s.inside), by rw [List.getElem?_map, found]; rfl, operator, ?_⟩
  rw [reach_own in_order]
  refine ⟨Nat.le_add_right _ _, (offsets.le_iff (by omega) (by omega)).mpr bounds.1,
    (offsets.lt_iff (by omega) bounds.2.2).mpr bounds.2.1, ?_, ?_⟩
  · rw [last_eq_joinOffset]
    exact (offsets.le_iff bounds.2.2 (Nat.le_refl _)).mpr bounds.2.2
  · rw [slice_join (in_of_mem_all member) (by omega), exact_iff]
    exact clear_iff_no_seam member (by omega)

theorem step_eq_slice_iff_mixed : ∃ p, plan "(a)1+(b)|(c)&d".toList = .ok p ∧
    ∃ texts, p.levels.mapM (stepsOf p.levels) = .ended (.ok texts) ∧ p.steps = texts.flatten ∧
      ∀ (i : Nat) (level : Level) (steps : List Text), p.levels[i]? = some level → texts[i]? = some steps →
        steps.length = level.operations.length ∧
          ∀ (k : Nat) (o : Operation) (step : Text), level.operations[k]? = some o →
            steps[k]? = some step →
              level.SliceUnlessSeam "(a)1+(b)|(c)&d".toList p.levels k o step := by
  have accepted : (plan "(a)1+(b)|(c)&d".toList).isOk = true := by cbv
  cases planned : plan "(a)1+(b)|(c)&d".toList with
  | error failure =>
    rw [planned] at accepted
    cases accepted
  | ok p => exact ⟨p, rfl, step_eq_slice_iff planned⟩

/-- The alias written for the first level, and the digit after it, are read as the alias of the second. -/
theorem longer_alias_names_another_level : ∃ p, plan "(a)1+(b)".toList = .ok p ∧
    p.steps = ["(b)+(b)".toList] ∧ ¬ "(b)+(b)".toList <:+: "(a)1+(b)".toList := by
  have made : (plan "(a)1+(b)".toList).toOption.map Plan.steps = some ["(b)+(b)".toList] := by cbv
  cases planned : plan "(a)1+(b)".toList with
  | error failure =>
    rw [planned] at made
    cases made
  | ok p =>
    rw [planned] at made
    have apart : ¬ "(b)+(b)".toList <:+: "(a)1+(b)".toList := by decide +kernel
    exact ⟨p, rfl, Option.some.inj made, apart⟩

end EvalOrder
