import EvalOrder.Proofs.Binding
import EvalOrder.Proofs.Nesting
import EvalOrder.Theory.Ownership

/-! Main statement: a plan has one operation for every operator of the source, but for those at the ends
of an interior. The innermost level over a byte is the first one in the list, since the deeper levels come
first. -/
namespace EvalOrder

open EvalOrder.Part Site

namespace Site

section Bytes

variable {ps : List Part} {s d : Site} {view : Site → Level} {q : Nat}

structure Deepest (ps : List Part) (s : Site) (q : Nat) : Prop where
  covers : s.Covers q
  alone : ∀ d ∈ all ps, s.height < d.height → ¬ d.Covers q

theorem encloses_iff (placed : ∀ s : Site, s.At (view s)) (hs : s ∈ all ps) :
    (view s).Encloses q ↔ s.Covers q := by
  rw [Level.Encloses, interior_eq hs (placed s), Covers]

theorem innermostAt_iff (placed : ∀ s : Site, s.At (view s)) (hs : s ∈ all ps) :
    (view s).InnermostAt ((all ps).map view) q ↔ s.Deepest ps q := by
  constructor
  · rintro ⟨encloses, innermost⟩
    refine ⟨(encloses_iff placed hs).mp encloses, fun d hd deeper covers => ?_⟩
    rcases innermost _ (List.mem_map_of_mem hd) ((encloses_iff placed hd).mpr covers) with same | outside
    · have heights := congrArg Level.height same
      rw [(placed d).height, (placed s).height] at heights
      omega
    · have higher := height_lt_of_between hd hs ((surrounds_iff placed hd hs).mp outside)
      omega
  · intro deepest
    refine ⟨(encloses_iff placed hs).mpr deepest.covers, fun other listed encloses => ?_⟩
    obtain ⟨d, hd, rfl⟩ := List.mem_map.mp listed
    have covers := (encloses_iff placed hd).mp encloses
    rcases Nat.lt_trichotomy d.height s.height with higher | level | deeper
    · exact .inr ((surrounds_iff placed hd hs).mpr (between_of_covers hs hd deepest.covers covers higher))
    · exact .inl (congrArg view (eq_of_covers hs hd deepest.covers covers level))
    · exact absurd covers (deepest.alone d hd deeper)

theorem Deepest.unique (hs : s ∈ all ps) (hd : d ∈ all ps) (here : s.Deepest ps q) (there : d.Deepest ps q) :
    d = s := by
  have not_deeper : ¬ s.height < d.height := fun deeper => here.alone d hd deeper there.covers
  have not_higher : ¬ d.height < s.height := fun higher => there.alone s hs higher here.covers
  exact eq_of_covers hs hd here.covers there.covers (by omega)

/-- The first site that covers a byte is the deepest one, and the outermost site covers them all. -/
theorem exists_deepest (inside : q < Text.size (join ps)) : ∃ s ∈ all ps, s.Deepest ps q := by
  have outermost : root ps ∈ all ps := by
    rw [all_eq]
    exact List.mem_append_right _ (List.mem_singleton_self _)
  have covered : (root ps).Covers q := ⟨Nat.zero_le q, by rwa [last, root, Nat.zero_add]⟩
  have found : ((all ps).find? fun s => decide (s.Covers q)).isSome = true :=
    List.find?_isSome.mpr ⟨root ps, outermost, decide_eq_true covered⟩
  obtain ⟨s, first⟩ := Option.isSome_iff_exists.mp found
  obtain ⟨covers, earlier, later, order, missed⟩ := List.find?_eq_some_iff_append.mp first
  have deepest_first := rows_precedes (n := depthOf ps + 1) (isRow_root ps)
  change (all ps).Pairwise Precedes at deepest_first
  rw [order] at deepest_first ⊢
  refine ⟨s, List.mem_append_right _ List.mem_cons_self, of_decide_eq_true covers, fun d hd deeper => ?_⟩
  rw [order] at hd
  rcases List.mem_append.mp hd with before | here_or_after
  · simpa using missed d before
  · rcases List.mem_cons.mp here_or_after with rfl | after
    · exact absurd deeper (Nat.lt_irrefl _)
    · have behind := (List.pairwise_cons.mp (List.pairwise_append.mp deepest_first).2.1).1 d after
      rcases behind with lower | same
      · omega
      · omega

end Bytes

section Operators

variable {ps : List Part} {s : Site} {view : Site → Level} {q : Nat} {o : Operator}

theorem mem_ownMarks_iff (placed : ∀ s : Site, s.At (view s)) (hs : s ∈ all ps) :
    Mark.mk q o ∈ (view s).ownMarks (join ps) ((all ps).map view) ↔
      OperatorAt (join ps) q o ∧ s.Deepest ps q := by
  have outside : ∀ d ∈ all ps, s.height < d.height → (¬ d.Covers q ↔ ¬ (d.first - 1 < q ∧ q < d.last)) := by
    intro d hd deeper
    rcases eq_root_or_deeper hd with rfl | inner
    · exact absurd deeper (Nat.not_lt_zero _)
    · unfold Covers
      omega
  have alone : ((all ps).map view).all (fun other =>
      !((view s).height < other.height && other.start < q && q < other.stop)) = true ↔
      ∀ d ∈ all ps, s.height < d.height → ¬ d.Covers q := by
    simp only [List.all_map, List.all_eq_true, Function.comp_apply, (placed _).start, (placed _).stop,
      (placed _).height,
      Bool.not_eq_true', Bool.and_eq_false_imp, Bool.and_eq_true, decide_eq_true_eq, decide_eq_false_iff_not]
    constructor
    · intro free d hd deeper
      exact (outside d hd deeper).mpr fun within => free d hd ⟨deeper, within.1⟩ within.2
    · rintro free d hd ⟨deeper, front⟩ back
      exact (outside d hd deeper).mp (free d hd deeper) ⟨front, back⟩
  rw [operatorAt_iff, Level.ownMarks, List.mem_filter, interior_eq hs (placed s), Bool.and_eq_true,
    Bool.and_eq_true, decide_eq_true_eq, decide_eq_true_eq, alone]
  constructor
  · rintro ⟨operator, covers, free⟩
    exact ⟨operator, covers, free⟩
  · rintro ⟨operator, covers, free⟩
    exact ⟨operator, covers, free⟩

def taken (ps : List Part) (s : Site) : List Mark :=
  inOrder ((s.finished (all ps)).ownMarks (join ps) ((all ps).map (finished (all ps)))) s.first s.last

theorem owns_taken (hs : s ∈ all ps) :
    (s.finished (all ps)).Owns (join ps) ((all ps).map (finished (all ps)))
      ((taken ps s).map Mark.offset) := by
  have placed := at_finished (all ps)
  constructor
  · intro q
    rw [innermostAt_iff placed hs, interior_eq hs (placed s)]
    simp only [List.mem_map, taken, mem_inOrder]
    constructor
    · rintro ⟨m, ⟨own, above, below⟩, rfl⟩
      obtain ⟨operator, deepest⟩ := (mem_ownMarks_iff placed hs).mp own
      exact ⟨⟨m.operator, operator⟩, deepest, above, below⟩
    · rintro ⟨⟨o, operator⟩, deepest, above, below⟩
      exact ⟨⟨q, o⟩, ⟨(mem_ownMarks_iff placed hs).mpr ⟨operator, deepest⟩, above, below⟩, rfl⟩
  · have ordered : Ordered ((s.finished (all ps)).ownMarks (join ps) ((all ps).map (finished (all ps)))) :=
      (ordered_marksOf (join ps)).filter _
    apply List.pairwise_map.mpr
    apply List.Pairwise.imp_of_mem _ (inOrder_earlier ordered s.first s.last)
    intro a b ha hb earlier
    have operator := ((mem_ownMarks_iff placed hs).mp (mem_inOrder.mp ha).1).1
    have operator' := ((mem_ownMarks_iff placed hs).mp (mem_inOrder.mp hb).1).1
    exact ⟨a.operator, b.operator, operator, operator', earlier⟩

theorem operators_taken (hs : s ∈ all ps) :
    (s.finished (all ps)).operations.map Operation.operator = (taken ps s).map Mark.operator := by
  rw [taken, ownMarks_eq (at_finished _) hs, inOrder_own, List.map_map]
  exact operators_of_masked 0 s.inside

theorem splitsOwn_taken (hs : s ∈ all ps) :
    (s.finished (all ps)).SplitsOwn (join ps) ((all ps).map (finished (all ps)))
      ((taken ps s).map Mark.offset) := by
  have operators := operators_taken hs
  refine ⟨owns_taken hs, ?_, ⟨_, bound_operationsOf (masked 0 s.inside)⟩, ?_⟩
  · have lengths := congrArg List.length operators
    simpa using lengths
  · intro k q o place operation
    rw [List.getElem?_map, Option.map_eq_some_iff] at place
    obtain ⟨m, found, rfl⟩ := place
    have same := congrArg (fun operators => operators[k]?) operators
    simp only [List.getElem?_map, operation, found, Option.map_some, Option.some.injEq] at same
    rw [same]
    exact ((mem_ownMarks_iff (at_finished _) hs).mp (mem_inOrder.mp (List.mem_of_getElem? found)).1).1

theorem owner_unique (operator : OperatorAt (join ps) q o) :
    ∃! place : Nat, ∃ level : Level, ((all ps).map (finished (all ps)))[place]? = some level ∧
      level.InnermostAt ((all ps).map (finished (all ps))) q := by
  have placed := at_finished (all ps)
  obtain ⟨s, hs, deepest⟩ := exists_deepest (lt_size_of_mem (operatorAt_iff.mp operator))
  obtain ⟨place, at_s⟩ := List.mem_iff_getElem?.mp hs
  refine ⟨place, ⟨s.finished (all ps), ?_, (innermostAt_iff placed hs).mpr deepest⟩, ?_⟩
  · rw [List.getElem?_map, at_s]
    rfl
  · rintro other ⟨level, there, innermost⟩
    rw [List.getElem?_map, Option.map_eq_some_iff] at there
    obtain ⟨d, at_d, rfl⟩ := there
    have hd : d ∈ all ps := List.mem_of_getElem? at_d
    obtain rfl := deepest.unique hs hd ((innermostAt_iff placed hd).mp innermost)
    exact place_unique at_d at_s

end Operators

end Site

theorem map_of_mapM {α β γ ε : Type} {f : α → Except ε β} {g : β → γ} {h : α → γ} {xs : List α} {ys : List β}
    (made : xs.mapM f = .ok ys) (each : ∀ x y, f x = .ok y → g y = h x) : ys.map g = xs.map h := by
  apply List.ext_getElem?
  intro i
  have same := congrArg (fun zs => zs[i]?) (mapM_eq_ok_iff.mp made)
  simp only [List.getElem?_map] at same ⊢
  cases hx : xs[i]? with
  | none => simpa [hx] using same.symm
  | some x =>
    cases hy : ys[i]? with
    | none => simp [hx, hy] at same
    | some y =>
      simp only [hx, hy, Option.map_some, Option.some.injEq] at same
      exact congrArg some (each x y same)

theorem length_steps_of_plan {source : Text} {p : Plan} (planned : plan source = .ok p) :
    p.steps.length = (p.levels.map fun level => level.operations.length).sum := by
  obtain ⟨_, texts, _, _, _, made, steps⟩ := exists_levels_of_plan planned
  have lengths : texts.map List.length = p.levels.map fun level => level.operations.length :=
    map_of_mapM made fun level _ of_level => length_of_mapM of_level
  rw [steps, List.length_flatten, lengths]

theorem plan_complete {source : Text} {p : Plan} (planned : plan source = .ok p) : p.Complete source := by
  obtain ⟨ps, _, rfl, _, levels, _, _⟩ := exists_levels_of_plan planned
  refine ⟨?_, ?_, length_steps_of_plan planned⟩
  · intro q o operator
    rw [levels]
    exact owner_unique operator
  · rw [levels]
    intro level listed
    obtain ⟨s, hs, rfl⟩ := List.mem_map.mp listed
    exact ⟨_, splitsOwn_taken hs⟩

/-- A digit behind a level, so that a step is not its part of the source; operators at the ends of
interiors, next to levels and in the last byte of all. -/
theorem plan_complete_digit_after_level : ∃ p, plan "(é)1+(-a&b-)|(c)&".toList = .ok p ∧
    p.Complete "(é)1+(-a&b-)|(c)&".toList ∧ p.levels.map (fun level => level.operations.length) =
      [0, 1, 0, 2] := by
  have made : (plan "(é)1+(-a&b-)|(c)&".toList).toOption.map
      (fun p => p.levels.map fun level => level.operations.length) = some [0, 1, 0, 2] := by cbv
  cases planned : plan "(é)1+(-a&b-)|(c)&".toList with
  | error failure =>
    rw [planned] at made
    cases made
  | ok p =>
    rw [planned] at made
    exact ⟨p, rfl, plan_complete planned, Option.some.inj made⟩

end EvalOrder
