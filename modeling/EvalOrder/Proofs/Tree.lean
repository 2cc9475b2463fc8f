import EvalOrder.Proofs.Binding
import EvalOrder.Proofs.Narrowing
import EvalOrder.Theory.Tree

/-! Main statement: the operations of a text are one evaluation tree. The operator that uses an operation
up is one of the two walls around it, the one that binds earlier; the other wall is beyond the reach of
that one, or has it in an operand together with more. An operation without such a wall covers all
operators, and is the last. -/
namespace EvalOrder

section Consumers

variable {marks : List Mark} {size : Nat} {x m w : Mark} {s : Span}

theorem stop_of_left_wall (ordered : Ordered marks) (reaches : Reaches marks 0 size x s) (hx : x ∈ marks)
    (inner : x.offset + 1 < size) (left : w.offset < x.offset) (later : x.rank < w.rank)
    (start : w.offset + 1 = s.start)
    (stop : s.stop = size ∨ ∃ q ∈ marks, x.offset < q.offset ∧ q.offset < size ∧ w.Stops size q ∧
      q.offset = s.stop) :
    (reach marks 0 size w).stop = s.stop := by
  have own := reach_reaches ordered 0 size w
  have same : Reaches marks 0 size w ⟨(reach marks 0 size w).start, s.stop⟩ := by
    constructor
    · exact own.start_at
    · exact own.left_free
    · exact stop.imp_right fun ⟨q, hq, right, below, stops, place⟩ => ⟨q, hq, by omega, below, stops, place⟩
    · intro q hq right before below stops
      simp only at before
      unfold Mark.Stops at stops
      rcases Nat.lt_trichotomy q.offset x.offset with on_left | here | on_right
      · have := reaches.left_free q hq (by omega) (by omega) on_left
        omega
      · have := ordered.eq_of_offset hq hx here
        subst this
        omega
      · have free := reaches.right_free q hq on_right before below
        unfold Mark.Stops at free
        omega
  rw [own.unique same]

theorem start_of_right_wall (ordered : Ordered marks) (reaches : Reaches marks 0 size x s) (hx : x ∈ marks)
    (right : x.offset < w.offset) (below : w.offset < size) (not_earlier : x.rank ≤ w.rank)
    (stop : w.offset = s.stop)
    (start : s.start = 0 ∨ ∃ q ∈ marks, 0 < q.offset ∧ q.offset < x.offset ∧ w.rank < q.rank ∧
      q.offset + 1 = s.start) :
    (reach marks 0 size w).start = s.start := by
  have own := reach_reaches ordered 0 size w
  have same : Reaches marks 0 size w ⟨s.start, (reach marks 0 size w).stop⟩ := by
    constructor
    · exact start.imp_right fun ⟨q, hq, above, left, later, place⟩ => ⟨q, hq, above, by omega, later, place⟩
    · intro q hq from_start above left
      simp only at from_start
      rcases Nat.lt_trichotomy q.offset x.offset with on_left | here | on_right
      · have := reaches.left_free q hq from_start above on_left
        omega
      · have := ordered.eq_of_offset hq hx here
        subst this
        exact not_earlier
      · have free := reaches.right_free q hq on_right (by omega) (by omega)
        unfold Mark.Stops at free
        omega
    · exact own.stop_at
    · exact own.right_free
  rw [own.unique same]

/-- The span of `x` is all that stands on one side of `m` in the reach of `m`. -/
def Uses (marks : List Mark) (size : Nat) (m x : Mark) : Prop :=
  reach marks 0 size x = ⟨(reach marks 0 size m).start, m.offset⟩ ∨
    reach marks 0 size x = ⟨m.offset + 1, (reach marks 0 size m).stop⟩

/-- An operation covers all operators that can be split, or is used by one that is taken later. -/
theorem whole_or_used (ordered : Ordered marks) (hx : x ∈ inOrder marks 0 size) :
    (reach marks 0 size x).start = 0 ∧ size ≤ (reach marks 0 size x).stop + 1 ∨
      ∃ m ∈ inOrder marks 0 size, x.Earlier m ∧ Uses marks size m x := by
  obtain ⟨hx, above, below⟩ := mem_inOrder.mp hx
  have reaches := reach_reaches ordered 0 size x
  generalize span : reach marks 0 size x = s at reaches ⊢
  have used_on_right : ∀ w ∈ marks, 0 < w.offset → w.offset < x.offset → x.rank < w.rank →
      w.offset + 1 = s.start → (reach marks 0 size w).stop = s.stop →
      ∃ m ∈ inOrder marks 0 size, x.Earlier m ∧ Uses marks size m x := by
    intro w hw inner left later start stop
    refine ⟨w, mem_inOrder.mpr ⟨hw, inner, by omega⟩, .inl later, .inr ?_⟩
    rw [span, stop, start]
  have used_on_left : ∀ w ∈ marks, x.offset < w.offset → w.offset + 1 < size → x.rank ≤ w.rank →
      w.offset = s.stop → (reach marks 0 size w).start = s.start →
      ∃ m ∈ inOrder marks 0 size, x.Earlier m ∧ Uses marks size m x := by
    intro w hw right inner not_earlier stop start
    have earlier : x.Earlier w := by
      unfold Mark.Earlier
      omega
    refine ⟨w, mem_inOrder.mpr ⟨hw, by omega, inner⟩, earlier, .inl ?_⟩
    rw [span, start, stop]
  rcases reaches.stop_at with back | ⟨r, hr, right, r_below, stops, stop⟩
  · rcases reaches.start_at with front | ⟨l, hl, inner, left, later, start⟩
    · exact .inl ⟨front, by omega⟩
    · exact .inr (used_on_right l hl inner left later start
        (stop_of_left_wall ordered reaches hx below left later start (.inl back)))
  · by_cases edge : r.offset + 1 = size
    · rcases reaches.start_at with front | ⟨l, hl, inner, left, later, start⟩
      · exact .inl ⟨front, by omega⟩
      · exact .inr (used_on_right l hl inner left later start
          (stop_of_left_wall ordered reaches hx below left later start
            (.inr ⟨r, hr, right, r_below, .inr edge, stop⟩)))
    · have not_earlier : x.rank ≤ r.rank := stops.resolve_right edge
      rcases reaches.start_at with front | ⟨l, hl, inner, left, later, start⟩
      · exact .inr (used_on_left r hr right (by omega) not_earlier stop
          (start_of_right_wall ordered reaches hx right r_below not_earlier stop (.inl front)))
      · -- both walls could use the operation; the one that binds earlier does
        by_cases earlier : l.rank ≤ r.rank
        · exact .inr (used_on_right l hl inner left later start
            (stop_of_left_wall ordered reaches hx below left later start
              (.inr ⟨r, hr, right, r_below, .inl earlier, stop⟩)))
        · exact .inr (used_on_left r hr right (by omega) not_earlier stop
            (start_of_right_wall ordered reaches hx right r_below not_earlier stop
              (.inr ⟨l, hl, inner, left, by omega, start⟩)))

/-- Around an operation stands at most one operator that uses it. -/
theorem uses_unique (ordered : Ordered marks) {m' : Mark} (hm : m ∈ inOrder marks 0 size)
    (hm' : m' ∈ inOrder marks 0 size) (uses : Uses marks size m x) (uses' : Uses marks size m' x) :
    m = m' := by
  -- a wall to the left that binds later than one to the right does not end before it
  have crossed : ∀ {r l : Mark}, r ∈ inOrder marks 0 size → l ∈ inOrder marks 0 size →
      (reach marks 0 size r).start = l.offset + 1 → (reach marks 0 size l).stop = r.offset → False := by
    intro r l hr hl start stop
    obtain ⟨hr, r_above, r_below⟩ := mem_inOrder.mp hr
    obtain ⟨hl, l_above, l_below⟩ := mem_inOrder.mp hl
    have later : r.rank < l.rank := by
      rcases (reach_reaches ordered 0 size r).start_at with front | ⟨q, hq, _, _, later, place⟩
      · omega
      · have same := ordered.eq_of_offset hq hl (by omega)
        exact same ▸ later
    rcases (reach_reaches ordered 0 size l).stop_at with back | ⟨q, hq, _, _, stops, place⟩
    · omega
    · have same := ordered.eq_of_offset hq hr (by omega)
      subst same
      unfold Mark.Stops at stops
      omega
  have member := (mem_inOrder.mp hm).1
  have member' := (mem_inOrder.mp hm').1
  rcases uses with left | right
  · rcases uses' with left' | right'
    · have stops := congrArg Span.stop (left.symm.trans left')
      exact ordered.eq_of_offset member member' stops
    · have same := left.symm.trans right'
      exact (crossed hm hm' (congrArg Span.start same) (congrArg Span.stop same).symm).elim
  · rcases uses' with left' | right'
    · have same := left'.symm.trans right
      exact (crossed hm' hm (congrArg Span.start same) (congrArg Span.stop same).symm).elim
    · have starts := congrArg Span.start (right.symm.trans right')
      exact ordered.eq_of_offset member member' (Nat.succ.inj starts)

theorem earlier_of_within (ordered : Ordered marks) (hm : m ∈ inOrder marks 0 size)
    (hx : x ∈ inOrder marks 0 size)
    (start : (reach marks 0 size m).start ≤ x.offset) (stop : x.offset < (reach marks 0 size m).stop) :
    x = m ∨ x.Earlier m := by
  obtain ⟨hm, _, _⟩ := mem_inOrder.mp hm
  obtain ⟨hx, above, _⟩ := mem_inOrder.mp hx
  exact (reach_reaches ordered 0 size m).earlier ordered hm hx above start stop

theorem offset_within (ordered : Ordered marks) (hm : m ∈ inOrder marks 0 size) :
    (reach marks 0 size m).start ≤ m.offset ∧ m.offset < (reach marks 0 size m).stop :=
  (reach_reaches ordered 0 size m).around hm

theorem eq_of_reach_eq (ordered : Ordered marks) (hm : m ∈ inOrder marks 0 size)
    (hx : x ∈ inOrder marks 0 size)
    (same : reach marks 0 size m = reach marks 0 size x) : m = x := by
  have m_within := offset_within ordered hm
  have x_within := offset_within ordered hx
  rcases earlier_of_within ordered hm hx (by rw [same]; exact x_within.1) (by rw [same]; exact x_within.2)
    with equal | earlier
  · exact equal.symm
  · rcases earlier_of_within ordered hx hm (by rw [← same]; exact m_within.1)
      (by rw [← same]; exact m_within.2)
      with equal | later
    · exact equal
    · exact absurd later earlier.asymm

end Consumers

namespace Precedence

section Operands

variable {marks done rest : List Mark} {size : Nat} {m : Mark}

/-- The left operand has no operator, or is the reach of an operator taken before. -/
theorem left_operand (ordered : Ordered marks) (split : inOrder marks 0 size = done ++ m :: rest) :
    (∀ q ∈ marks, onLeft (reach marks 0 size m) m q = false) ∨
      ∃ x ∈ done, reach marks 0 size x = ⟨(reach marks 0 size m).start, m.offset⟩ := by
  have before := before_of_inOrder ordered split
  have reaches := reach_reaches ordered 0 size m
  have member : m ∈ inOrder marks 0 size := split ▸ List.mem_append_right _ List.mem_cons_self
  obtain ⟨hm, _, below⟩ := mem_inOrder.mp member
  cases last : (done.filter (onLeft (reach marks 0 size m) m)).getLast? with
  | none =>
    have none_left := List.filter_eq_nil_iff.mp (List.getLast?_eq_none_iff.mp last)
    refine .inl fun q hq => Bool.eq_false_iff.mpr fun left => ?_
    exact none_left q (mem_done_of_onLeft before reaches below hq left) left
  | some x =>
    have found := (List.mem_filter.mp (List.mem_of_getLast? last)).1
    exact .inr ⟨x, found, reach_eq_of_reaches ordered (reaches_of_last_onLeft before reaches below hm last)⟩

theorem right_operand (ordered : Ordered marks) (bounded : ∀ q ∈ marks, q.offset < size)
    (split : inOrder marks 0 size = done ++ m :: rest) :
    (∀ q ∈ marks, onRight (reach marks 0 size m) m q = false) ∨
      ∃ x ∈ done, reach marks 0 size x = ⟨m.offset + 1, (reach marks 0 size m).stop⟩ := by
  have before := before_of_inOrder ordered split
  have reaches := reach_reaches ordered 0 size m
  have member : m ∈ inOrder marks 0 size := split ▸ List.mem_append_right _ List.mem_cons_self
  obtain ⟨hm, above, _⟩ := mem_inOrder.mp member
  cases last : (done.filter (onRight (reach marks 0 size m) m)).getLast? with
  | none =>
    have none_right := List.filter_eq_nil_iff.mp (List.getLast?_eq_none_iff.mp last)
    refine .inl fun q hq => Bool.eq_false_iff.mpr fun right => ?_
    exact none_right q (mem_done_of_onRight before reaches hq (bounded q hq) right) right
  | some x =>
    have found := (List.mem_filter.mp (List.mem_of_getLast? last)).1
    exact .inr ⟨x, found,
      reach_eq_of_reaches ordered (reaches_of_last_onRight before reaches bounded above hm last)⟩

end Operands

end Precedence

section Operations

variable {t : Text} {m x : Mark} {j k : Nat}

theorem earlier_iff_lt (hx : (takenMarks t)[j]? = some x) (hm : (takenMarks t)[k]? = some m) :
    x.Earlier m ↔ j < k := by
  obtain ⟨short, rfl⟩ := List.getElem?_eq_some_iff.mp hx
  obtain ⟨short', rfl⟩ := List.getElem?_eq_some_iff.mp hm
  have order := List.pairwise_iff_getElem.mp (inOrder_earlier (ordered_marksOf t) 0 (Text.size t))
  constructor
  · intro earlier
    apply Nat.lt_of_not_ge
    intro not_before
    rcases Nat.lt_or_eq_of_le not_before with after | rfl
    · exact (order k j short' short after).asymm earlier
    · exact earlier.asymm earlier
  · exact order j k short short'

theorem index_unique (hj : (takenMarks t)[j]? = some m) (hk : (takenMarks t)[k]? = some m) : j = k := by
  have not_before : ¬ j < k := fun less => by
    have earlier := (earlier_iff_lt hj hk).mpr less
    exact earlier.asymm earlier
  have not_after : ¬ k < j := fun less => by
    have earlier := (earlier_iff_lt hk hj).mpr less
    exact earlier.asymm earlier
  omega

theorem stop_bound (hm : m ∈ takenMarks t) (k : Nat) :
    (Precedence.bound t (marksOf t) (m, k)).stop + 1 = (reach (marksOf t) 0 (Text.size t) m).stop := by
  have within := (offset_within (ordered_marksOf t) hm).2
  simp only [Precedence.bound]
  omega

theorem spans_bound (hm : m ∈ takenMarks t) {lo hi : Nat} :
    (Precedence.bound t (marksOf t) (m, k)).Spans lo hi ↔ reach (marksOf t) 0 (Text.size t) m = ⟨lo, hi⟩ := by
  rw [Operation.Spans, stop_bound hm]
  change (reach (marksOf t) 0 (Text.size t) m).start = lo ∧ _ ↔ _
  cases reach (marksOf t) 0 (Text.size t) m
  rw [Span.mk.injEq]

theorem operand_of_reach (hx : (takenMarks t)[j]? = some x) (less : j < k) {lo hi : Nat}
    (span : reach (marksOf t) 0 (Text.size t) x = ⟨lo, hi⟩) : Operand t (operationsOf t) k lo hi := by
  have member := List.mem_of_getElem? hx
  refine .inr ⟨_, mem_operationsOf.mpr ⟨j, x, hx, rfl⟩, (spans_bound member).mpr span, less, ?_⟩
  intro p hp spans
  obtain ⟨i, y, hy, rfl⟩ := mem_operationsOf.mp hp
  have member' := List.mem_of_getElem? hy
  have same :=
    eq_of_reach_eq (ordered_marksOf t) member' member (((spans_bound member').mp spans).trans span.symm)
  subst same
  rw [index_unique hy hx]

theorem operands_bound (hm : (takenMarks t)[k]? = some m) :
    Operand t (operationsOf t) k (reach (marksOf t) 0 (Text.size t) m).start m.offset ∧
      Operand t (operationsOf t) k (m.offset + 1) (reach (marksOf t) 0 (Text.size t) m).stop := by
  obtain ⟨short, at_place⟩ := List.getElem?_eq_some_iff.mp hm
  have split : takenMarks t = (takenMarks t).take k ++ m :: (takenMarks t).drop (k + 1) := by
    rw [← at_place, List.getElem_cons_drop, List.take_append_drop]
  have before : ∀ x ∈ (takenMarks t).take k, ∃ j, j < k ∧ (takenMarks t)[j]? = some x := by
    intro x hx
    obtain ⟨j, hj⟩ := List.mem_iff_getElem?.mp hx
    rw [List.getElem?_take] at hj
    split at hj
    · exact ⟨j, ‹_›, hj⟩
    · cases hj
  constructor
  · rcases Precedence.left_operand (ordered_marksOf t) split with free | ⟨x, hx, span⟩
    · refine .inl fun p o from_start left above _ there => ?_
      have missed := free ⟨p, o⟩ (operatorAt_iff.mp there)
      have hit := (Precedence.onLeft_iff (q := ⟨p, o⟩)).mpr ⟨from_start, above, left⟩
      exact absurd (missed.symm.trans hit) Bool.false_ne_true
    · obtain ⟨j, less, place⟩ := before x hx
      exact operand_of_reach place less span
  · rcases Precedence.right_operand (ordered_marksOf t) (fun _ => lt_size_of_mem) split
      with free | ⟨x, hx, span⟩
    · refine .inl fun p o right to_stop _ _ there => ?_
      have missed := free ⟨p, o⟩ (operatorAt_iff.mp there)
      have hit := (Precedence.onRight_iff (q := ⟨p, o⟩)).mpr ⟨right, to_stop⟩
      exact absurd (missed.symm.trans hit) Bool.false_ne_true
    · obtain ⟨j, less, place⟩ := before x hx
      exact operand_of_reach place less span

theorem last_of_whole (hm : (takenMarks t)[k]? = some m)
    (start : (reach (marksOf t) 0 (Text.size t) m).start = 0)
    (stop : Text.size t ≤ (reach (marksOf t) 0 (Text.size t) m).stop + 1) :
    (takenMarks t).length = k + 1 := by
  obtain ⟨short, _⟩ := List.getElem?_eq_some_iff.mp hm
  apply Nat.le_antisymm _ short
  apply Nat.le_of_not_gt
  intro more
  have next : (takenMarks t)[k + 1]? = some (takenMarks t)[k + 1] := List.getElem?_eq_getElem more
  have later := (earlier_iff_lt hm next).mpr (Nat.lt_succ_self k)
  have member := List.mem_of_getElem? next
  have inner := (mem_inOrder.mp member).2.2
  rcases earlier_of_within (ordered_marksOf t) (List.mem_of_getElem? hm) member (by omega) (by omega)
    with same | earlier
  · rw [same] at later
    exact later.asymm later
  · exact later.asymm earlier

theorem whole_of_last (hm : (takenMarks t)[k]? = some m) (last : (takenMarks t).length = k + 1) :
    (reach (marksOf t) 0 (Text.size t) m).start = 0 ∧
      Text.size t ≤ (reach (marksOf t) 0 (Text.size t) m).stop + 1 := by
  rcases whole_or_used (ordered_marksOf t) (List.mem_of_getElem? hm) with whole | ⟨w, hw, earlier, _⟩
  · exact whole
  · obtain ⟨j, place⟩ := List.mem_iff_getElem?.mp hw
    have after : k < j := (earlier_iff_lt hm place).mp earlier
    have inside : j < (takenMarks t).length := (List.getElem?_eq_some_iff.mp place).1
    omega

theorem stop_of_whole (hm : m ∈ takenMarks t)
    (stop : Text.size t ≤ (reach (marksOf t) 0 (Text.size t) m).stop + 1) :
    (∃ p, OperatorAt t (Text.size t - 1) p) ∧ (reach (marksOf t) 0 (Text.size t) m).stop + 1 = Text.size t ∨
      (¬ ∃ p, OperatorAt t (Text.size t - 1) p) ∧ (reach (marksOf t) 0 (Text.size t) m).stop =
        Text.size t := by
  obtain ⟨_, above, below⟩ := mem_inOrder.mp hm
  have reaches := reach_reaches (ordered_marksOf t) 0 (Text.size t) m
  have bounded := reaches.stop_le_hi
  by_cases edge : ∃ p, OperatorAt t (Text.size t - 1) p
  · refine .inl ⟨edge, ?_⟩
    obtain ⟨p, there⟩ := edge
    have before : ¬ Text.size t - 1 < (reach (marksOf t) 0 (Text.size t) m).stop := by
      intro inside
      have last : Text.size t - 1 + 1 = Text.size t := by omega
      exact reaches.right_free ⟨_, p⟩ (operatorAt_iff.mp there) (by simp only; omega) inside
        (by simp only; omega) (.inr last)
    omega
  · refine .inr ⟨edge, ?_⟩
    rcases reaches.stop_at with back | ⟨w, hw, _, below', _, place⟩
    · exact back
    · have elsewhere : w.offset ≠ Text.size t - 1 := by
        intro same
        exact edge ⟨w.operator, same ▸ operatorAt_iff.mpr hw⟩
      omega

/-- Every operation but the last is used up, and once only. -/
theorem used_once (hx : (takenMarks t)[k]? = some x) (more : k + 1 < (takenMarks t).length) :
    ∃! j, k < j ∧ ∃ m, (takenMarks t)[j]? = some m ∧ Uses (marksOf t) (Text.size t) m x := by
  have ordered := ordered_marksOf t
  rcases whole_or_used ordered (List.mem_of_getElem? hx) with ⟨start, stop⟩ | ⟨m, hm, earlier, uses⟩
  · have last := last_of_whole hx start stop
    omega
  · obtain ⟨j, place⟩ := List.mem_iff_getElem?.mp hm
    refine ⟨j, ⟨(earlier_iff_lt hx place).mp earlier, m, place, uses⟩, ?_⟩
    rintro i ⟨_, m', place', uses'⟩
    have same := uses_unique ordered hm (List.mem_of_getElem? place') uses uses'
    subst same
    exact index_unique place' place

theorem operandOf_bound (hx : x ∈ takenMarks t) (hm : m ∈ takenMarks t) :
    (Precedence.bound t (marksOf t) (x, j)).OperandOf (Precedence.bound t (marksOf t) (m, k)) m.offset ↔
      Uses (marksOf t) (Text.size t) m x := by
  rw [Operation.OperandOf, spans_bound hx, spans_bound hx, stop_bound hm]
  rfl

end Operations

/-- However the tiers are mixed, the operations of a level are one evaluation tree. -/
theorem split_evaluationTree (level : Level) : ∃ places, Bound level.masked places level.split.operations ∧
    EvaluationTree level.masked places level.split.operations := by
  refine ⟨_, bound_operationsOf level.masked, ?_⟩
  change EvaluationTree level.masked _ (operationsOf level.masked)
  generalize level.masked = t
  constructor
  · intro k i o place made
    rw [List.getElem?_map, Option.map_eq_some_iff] at place
    obtain ⟨m, found, rfl⟩ := place
    simp only [getElem?_operationsOf, found, Option.map_some, Option.some.injEq] at made
    subst made
    have member := List.mem_of_getElem? found
    have within := offset_within (ordered_marksOf t) member
    have ends := stop_bound member k
    have operands := operands_bound found
    rw [← ends] at within operands
    exact ⟨within.1, by omega, operands⟩
  · intro k o made more
    rw [getElem?_operationsOf, Option.map_eq_some_iff] at made
    obtain ⟨x, found, rfl⟩ := made
    rw [length_operationsOf] at more
    have member := List.mem_of_getElem? found
    obtain ⟨j, ⟨later, m, at_place, uses⟩, only⟩ := used_once found more
    have hm := List.mem_of_getElem? at_place
    refine ⟨j, ⟨later, m.offset, Precedence.bound t (marksOf t) (m, j), ?_, ?_, ?_⟩, ?_⟩
    · rw [List.getElem?_map, at_place]
      rfl
    · rw [getElem?_operationsOf, at_place]
      rfl
    · exact (operandOf_bound member hm).mpr uses
    · rintro i ⟨after, _, _, place, made, operand⟩
      rw [List.getElem?_map, Option.map_eq_some_iff] at place
      obtain ⟨m', found', rfl⟩ := place
      rw [getElem?_operationsOf, found'] at made
      cases made
      have uses' := (operandOf_bound member (List.mem_of_getElem? found')).mp operand
      exact only i ⟨after, m', found', uses'⟩
  · intro o made
    rw [List.getLast?_eq_getElem?, length_operationsOf, getElem?_operationsOf, Option.map_eq_some_iff] at made
    obtain ⟨x, found, rfl⟩ := made
    have inside := (List.getElem?_eq_some_iff.mp found).1
    have whole := whole_of_last found (by omega)
    have member := List.mem_of_getElem? found
    have ends := stop_bound member ((takenMarks t).length - 1)
    have stop := stop_of_whole member whole.2
    rw [← ends] at stop
    exact ⟨whole.1, stop⟩

end EvalOrder
