import EvalOrder.Proofs.Splitting
import EvalOrder.Theory.Binding
import Mathlib.Data.List.Sort

/-! Main statement: the operations of a text are the ones that precedence gives to its operators, and no
others are. Each operand ends at the nearest wall, and there is only one nearest wall, so the contract
leaves no choice. -/
namespace EvalOrder

theorem NearestBefore.unique {P : Nat → Prop} {limit : Nat} {a b : Option Nat}
    (ha : NearestBefore P limit a) (hb : NearestBefore P limit b) : a = b := by
  cases a with
  | none =>
    cases b with
    | none => rfl
    | some q => exact absurd hb.2.1 (ha q hb.1)
  | some p =>
    cases b with
    | none => exact absurd ha.2.1 (hb p ha.1)
    | some q =>
      have not_after : ¬ p < q := fun less => ha.2.2 q less hb.1 hb.2.1
      have not_before : ¬ q < p := fun less => hb.2.2 p less ha.1 ha.2.1
      exact congrArg some (by omega)

theorem NearestAfter.unique {P : Nat → Prop} {limit : Nat} {a b : Option Nat}
    (ha : NearestAfter P limit a) (hb : NearestAfter P limit b) : a = b := by
  cases a with
  | none =>
    cases b with
    | none => rfl
    | some q => exact absurd hb.2.1 (ha q hb.1)
  | some p =>
    cases b with
    | none => exact absurd ha.2.1 (hb p ha.1)
    | some q =>
      have not_after : ¬ p < q := fun less => hb.2.2 p ha.1 less ha.2.1
      have not_before : ¬ q < p := fun less => ha.2.2 q hb.1 less hb.2.1
      exact congrArg some (by omega)

section Contract

variable {t : Text}

theorem OperatorAt.unique {i : Nat} {o p : Operator} (ho : OperatorAt t i o) (hp : OperatorAt t i p) :
    o = p := by
  obtain ⟨b, byte, found⟩ := ho
  obtain ⟨b', byte', found'⟩ := hp
  have same : b = b' := Option.some.inj (byte.symm.trans byte')
  subst same
  exact Option.some.inj (found.symm.trans found')

theorem Binds.unique {i : Nat} {a b : Operation} (ha : Binds t i a) (hb : Binds t i b)
    (numbers : a.sequence = b.sequence) : a = b := by
  have operators := ha.operator.unique hb.operator
  obtain ⟨left, nearest_left, start⟩ := ha.left
  obtain ⟨left', nearest_left', start'⟩ := hb.left
  obtain ⟨right, nearest_right, stop⟩ := ha.right
  obtain ⟨right', nearest_right', stop'⟩ := hb.right
  rw [← operators] at nearest_left' nearest_right'
  have starts : a.start = b.start := by
    rw [start, start', nearest_left.unique nearest_left']
  have stops : a.stop = b.stop := by
    rw [stop, stop', nearest_right.unique nearest_right']
  have texts : a.text = b.text := by
    have cut := ha.text
    rw [starts, stops] at cut
    exact Option.some.inj (cut.symm.trans hb.text)
  cases a
  cases b
  simp only [Operation.mk.injEq]
  exact ⟨starts, stops, operators, texts, numbers⟩

theorem BindsEarlier.irrefl {i : Nat} : ¬ BindsEarlier t i i := by
  rintro ⟨o, p, ho, hp, lower | ⟨_, left⟩⟩
  · have same := ho.unique hp
    subst same
    exact Nat.lt_irrefl _ lower
  · exact Nat.lt_irrefl _ left

theorem BindsEarlier.asymm {i j : Nat} (h : BindsEarlier t i j) : ¬ BindsEarlier t j i := by
  obtain ⟨o, p, ho, hp, earlier⟩ := h
  rintro ⟨p', o', hp', ho', later⟩
  have same := ho.unique ho'
  have same' := hp.unique hp'
  subst same same'
  omega

theorem Taken.unique {places places' : List Nat} (h : Taken t places) (h' : Taken t places') :
    places = places' := by
  have irreflexive : Std.Irrefl (BindsEarlier t) := ⟨fun _ => BindsEarlier.irrefl⟩
  have antisymmetric : Std.Antisymm (BindsEarlier t) := ⟨fun _ _ first second => absurd second first.asymm⟩
  apply List.Pairwise.eq_of_mem_iff h.order h'.order
  intro i
  exact (h.mem i).trans (h'.mem i).symm

theorem Bound.unique {places places' : List Nat} {operations operations' : List Operation}
    (h : Bound t places operations) (h' : Bound t places' operations') : operations = operations' := by
  have same := h.taken.unique h'.taken
  subst same
  apply List.ext_getElem (h.length.trans h'.length.symm)
  intro k inside inside'
  have placed : k < places.length := h.length ▸ inside
  have place : places[k]? = some places[k] := List.getElem?_eq_getElem placed
  have made := h.made k _ _ place (List.getElem?_eq_getElem inside)
  have made' := h'.made k _ _ place (List.getElem?_eq_getElem inside')
  exact made.2.unique made'.2 (made.1.trans made'.1.symm)

theorem operatorAt_iff {i : Nat} {o : Operator} : OperatorAt t i o ↔ Mark.mk i o ∈ marksOf t :=
  (mem_marksOf (m := ⟨i, o⟩)).symm

theorem leftWall_of_reaches {m : Mark} {span : Span} (reaches : Reaches (marksOf t) 0 (Text.size t) m span) :
    ∃ wall, NearestBefore (LeftWall t m.operator) m.offset wall ∧ span.start = (wall.map (· + 1)).getD 0 := by
  have free : ∀ q, span.start ≤ q → q < m.offset → ¬ LeftWall t m.operator q := by
    rintro q from_start left ⟨inner, w, there, later⟩
    have lower := reaches.left_free _ (operatorAt_iff.mp there) from_start inner left
    exact Nat.not_le_of_lt later lower
  rcases reaches.start_at with front | ⟨w, hw, inner, left, later, start⟩
  · refine ⟨none, ?_, front⟩
    intro q left
    exact free q (by omega) left
  · refine ⟨some w.offset, ⟨left, ⟨inner, w.operator, operatorAt_iff.mpr hw, later⟩, ?_⟩, start.symm⟩
    intro q after before
    exact free q (by omega) before

theorem rightWall_of_reaches {m : Mark} {span : Span} (reaches : Reaches (marksOf t) 0 (Text.size t) m span) :
    ∃ wall, NearestAfter (RightWall t m.operator) m.offset wall ∧
      span.stop - 1 = (wall.map (· - 1)).getD (Text.size t - 1) := by
  have free : ∀ q, m.offset < q → q < span.stop → ¬ RightWall t m.operator q := by
    rintro q right before ⟨w, there, stops⟩
    have member := operatorAt_iff.mp there
    exact reaches.right_free _ member right before (lt_size_of_mem member) stops
  rcases reaches.stop_at with back | ⟨w, hw, right, below, stops, stop⟩
  · refine ⟨none, ?_, congrArg (· - 1) back⟩
    rintro q right ⟨w, there, stops⟩
    have inside := lt_size_of_mem (operatorAt_iff.mp there)
    exact free q right (by simp only at inside; omega) ⟨w, there, stops⟩
  · refine ⟨some w.offset, ⟨right, ⟨w.operator, operatorAt_iff.mpr hw, stops⟩, ?_⟩,
      congrArg (· - 1) stop.symm⟩
    intro q after before
    exact free q after (by omega)

abbrev takenMarks (t : Text) : List Mark :=
  inOrder (marksOf t) 0 (Text.size t)

theorem getElem?_operationsOf (t : Text) (k : Nat) :
    (operationsOf t)[k]? = (takenMarks t)[k]?.map fun m => Precedence.bound t (marksOf t) (m, k) := by
  rw [operationsOf_eq_bindings, Precedence.bindings_eq, List.getElem?_map, List.getElem?_zipIdx,
    Option.map_map, Nat.zero_add]
  rfl

theorem mem_operationsOf {o : Operation} :
    o ∈ operationsOf t ↔ ∃ k m, (takenMarks t)[k]? = some m ∧ Precedence.bound t (marksOf t) (m, k) = o := by
  simp only [List.mem_iff_getElem?, getElem?_operationsOf, Option.map_eq_some_iff]

theorem length_operationsOf (t : Text) : (operationsOf t).length = (takenMarks t).length := by
  rw [operationsOf_eq_bindings, Precedence.bindings_eq, List.length_map, List.length_zipIdx]

theorem binds_bound {m : Mark} (member : m ∈ takenMarks t) (k : Nat) :
    Binds t m.offset (Precedence.bound t (marksOf t) (m, k)) := by
  obtain ⟨hm, above, below⟩ := mem_inOrder.mp member
  have reaches := reach_reaches (ordered_marksOf t) 0 (Text.size t) m
  have ends := reaches.lt_stop (by omega)
  obtain ⟨middle, cut⟩ := slice_of_reach member
  refine ⟨operatorAt_iff.mpr hm, leftWall_of_reaches reaches, rightWall_of_reaches reaches, ?_⟩
  have last : (reach (marksOf t) 0 (Text.size t) m).stop - 1 + 1 =
      (reach (marksOf t) 0 (Text.size t) m).stop := by
    omega
  simp only [Precedence.bound, last, Text.slice, cut, Option.getD_some]

theorem taken_offsets (t : Text) : Taken t ((takenMarks t).map Mark.offset) := by
  constructor
  · intro i
    simp only [List.mem_map, mem_inOrder]
    constructor
    · rintro ⟨m, ⟨hm, above, below⟩, rfl⟩
      exact ⟨above, below, m.operator, operatorAt_iff.mpr hm⟩
    · rintro ⟨above, below, o, there⟩
      exact ⟨⟨i, o⟩, ⟨operatorAt_iff.mp there, above, below⟩, rfl⟩
  · apply List.pairwise_map.mpr
    apply List.Pairwise.imp_of_mem _ (inOrder_earlier (ordered_marksOf t) 0 (Text.size t))
    intro a b ha hb earlier
    exact ⟨a.operator, b.operator, operatorAt_iff.mpr (mem_inOrder.mp ha).1,
      operatorAt_iff.mpr (mem_inOrder.mp hb).1, earlier⟩

theorem bound_operationsOf (t : Text) : Bound t ((takenMarks t).map Mark.offset) (operationsOf t) := by
  constructor
  · exact taken_offsets t
  · rw [length_operationsOf, List.length_map]
  · intro k i o place made
    rw [List.getElem?_map, Option.map_eq_some_iff] at place
    obtain ⟨m, found, rfl⟩ := place
    rw [getElem?_operationsOf, found] at made
    cases made
    exact ⟨rfl, binds_bound (List.mem_of_getElem? found) k⟩

end Contract

/-- Whatever its masked text, splitting a level records the operations that precedence binds, and these
only. -/
theorem split_operations_iff (level : Level) (operations : List Operation) :
    level.split.operations = operations ↔ ∃ places, Bound level.masked places operations := by
  have made : Bound level.masked _ level.split.operations := bound_operationsOf level.masked
  constructor
  · rintro rfl
    exact ⟨_, made⟩
  · rintro ⟨places, bound⟩
    exact made.unique bound

end EvalOrder
