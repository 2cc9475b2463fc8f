import EvalOrder.Proofs.Marks
import EvalOrder.Theory.Reach

/-! The reach of an operator, said by what stands at its two ends and by what does not stand between.
There is exactly one such span, so two ways of finding it agree as soon as both meet the contract. -/
namespace EvalOrder

def Mark.rank (m : Mark) : Nat := m.operator.tier.rank

def Mark.Stops (m : Mark) (hi : Nat) (q : Mark) : Prop :=
  m.rank ≤ q.rank ∨ q.offset + 1 = hi

structure Reaches (marks : List Mark) (lo hi : Nat) (m : Mark) (span : Span) : Prop where
  start_at : span.start = lo ∨
    ∃ w ∈ marks, lo < w.offset ∧ w.offset < m.offset ∧ m.rank < w.rank ∧ w.offset + 1 = span.start
  left_free : ∀ q ∈ marks, span.start ≤ q.offset → lo < q.offset → q.offset < m.offset →
    q.rank ≤ m.rank
  stop_at : span.stop = hi ∨
    ∃ w ∈ marks, m.offset < w.offset ∧ w.offset < hi ∧ m.Stops hi w ∧ w.offset = span.stop
  right_free : ∀ q ∈ marks, m.offset < q.offset → q.offset < span.stop → q.offset < hi →
    ¬ m.Stops hi q

namespace Reaches

variable {marks : List Mark} {lo hi : Nat} {m : Mark} {s t : Span}

theorem lo_le_start (h : Reaches marks lo hi m s) : lo ≤ s.start := by
  rcases h.start_at with e | ⟨w, _, above, _, _, e⟩ <;> omega

theorem stop_le_hi (h : Reaches marks lo hi m s) : s.stop ≤ hi := by
  rcases h.stop_at with e | ⟨w, _, _, below, _, e⟩ <;> omega

theorem start_le (h : Reaches marks lo hi m s) (inside : lo ≤ m.offset) : s.start ≤ m.offset := by
  rcases h.start_at with e | ⟨w, _, _, left, _, e⟩ <;> omega

theorem lt_stop (h : Reaches marks lo hi m s) (inside : m.offset < hi) : m.offset < s.stop := by
  rcases h.stop_at with e | ⟨w, _, right, _, _, e⟩ <;> omega

theorem wall_lt_start (h : Reaches marks lo hi m s) {w : Mark} (hw : w ∈ marks) (above : lo < w.offset)
    (left : w.offset < m.offset) (higher : m.rank < w.rank) : w.offset < s.start := by
  apply Nat.lt_of_not_ge
  intro within
  have := h.left_free w hw within above left
  omega

theorem stop_le_wall (h : Reaches marks lo hi m s) {w : Mark} (hw : w ∈ marks) (right : m.offset < w.offset)
    (below : w.offset < hi) (stops : m.Stops hi w) : s.stop ≤ w.offset :=
  Nat.le_of_not_gt fun within => h.right_free w hw right within below stops

theorem start_le_start (hs : Reaches marks lo hi m s) (ht : Reaches marks lo hi m t) :
    t.start ≤ s.start := by
  rcases ht.start_at with e | ⟨w, hw, above, left, higher, e⟩
  · rw [e]
    exact hs.lo_le_start
  · have := hs.wall_lt_start hw above left higher
    omega

theorem stop_le_stop (hs : Reaches marks lo hi m s) (ht : Reaches marks lo hi m t) :
    s.stop ≤ t.stop := by
  rcases ht.stop_at with e | ⟨w, hw, right, below, stops, e⟩
  · rw [e]
    exact hs.stop_le_hi
  · rw [← e]
    exact hs.stop_le_wall hw right below stops

theorem unique (hs : Reaches marks lo hi m s) (ht : Reaches marks lo hi m t) : s = t := by
  have starts := Nat.le_antisymm (start_le_start ht hs) (start_le_start hs ht)
  have stops := Nat.le_antisymm (stop_le_stop hs ht) (stop_le_stop ht hs)
  cases s
  cases t
  simp only at starts stops
  rw [starts, stops]

end Reaches

theorem Ordered.eq_of_offset {marks : List Mark} (ordered : Ordered marks) {a b : Mark}
    (ha : a ∈ marks) (hb : b ∈ marks) (same : a.offset = b.offset) : a = b := by
  by_cases equal : a = b
  · exact equal
  · rcases List.Pairwise.forall_of_forall_of_flip (R := fun a b : Mark => a.offset ≠ b.offset ∨ a = b)
      (fun x _ => .inr rfl) (ordered.imp fun h => .inl (Nat.ne_of_lt h))
      (ordered.imp fun h => .inl (Nat.ne_of_gt h)) ha hb with different | equal
    · exact absurd same different
    · exact equal

theorem Ordered.le_getLast {marks : List Mark} (ordered : Ordered marks) {w q : Mark}
    (last : marks.getLast? = some w) (member : q ∈ marks) : q.offset ≤ w.offset := by
  obtain ⟨front, rfl⟩ := List.getLast?_eq_some_iff.mp last
  rcases List.mem_append.mp member with early | here
  · exact Nat.le_of_lt ((List.pairwise_append.mp ordered).2.2 q early w (List.mem_singleton_self w))
  · exact Nat.le_of_eq (congrArg Mark.offset (List.mem_singleton.mp here))

theorem Ordered.le_of_find? {marks : List Mark} (ordered : Ordered marks) {p : Mark → Bool} {w q : Mark}
    (first : marks.find? p = some w) (member : q ∈ marks) (hit : p q = true) : w.offset ≤ q.offset := by
  obtain ⟨_, front, back, rfl, missed⟩ := List.find?_eq_some_iff_append.mp first
  rcases List.mem_append.mp member with early | late
  · have := missed q early
    simp [hit] at this
  · rcases List.mem_cons.mp late with rfl | later
    · exact Nat.le_refl _
    · have rest := (List.pairwise_append.mp ordered).2.1
      exact Nat.le_of_lt ((List.pairwise_cons.mp rest).1 q later)

theorem Ordered.filter {marks : List Mark} (ordered : Ordered marks) (p : Mark → Bool) :
    Ordered (marks.filter p) :=
  List.Pairwise.filter p ordered

def leftWalls (marks : List Mark) (lo : Nat) (m : Mark) : List Mark :=
  marks.filter fun q => lo < q.offset && q.offset < m.offset && m.rank < q.rank

def isRightWall (hi : Nat) (m q : Mark) : Bool :=
  m.offset < q.offset && q.offset < hi && (m.rank ≤ q.rank || q.offset + 1 == hi)

theorem mem_leftWalls {marks : List Mark} {lo : Nat} {m q : Mark} :
    q ∈ leftWalls marks lo m ↔
      q ∈ marks ∧ lo < q.offset ∧ q.offset < m.offset ∧ m.rank < q.rank := by
  simp only [leftWalls, List.mem_filter, Bool.and_eq_true, decide_eq_true_eq, and_assoc]

theorem isRightWall_iff {hi : Nat} {m q : Mark} :
    isRightWall hi m q = true ↔ m.offset < q.offset ∧ q.offset < hi ∧ m.Stops hi q := by
  simp only [isRightWall, Bool.and_eq_true, Bool.or_eq_true, decide_eq_true_eq, beq_iff_eq,
    and_assoc, Mark.Stops]

theorem reach_eq (marks : List Mark) (lo hi : Nat) (m : Mark) :
    reach marks lo hi m =
      ⟨((leftWalls marks lo m).getLast?.map (·.offset + 1)).getD lo,
        ((marks.find? (isRightWall hi m)).map Mark.offset).getD hi⟩ := rfl

theorem reach_reaches {marks : List Mark} (ordered : Ordered marks) (lo hi : Nat) (m : Mark) :
    Reaches marks lo hi m (reach marks lo hi m) := by
  have walls : Ordered (leftWalls marks lo m) := ordered.filter _
  rw [reach_eq]
  constructor
  · cases last : (leftWalls marks lo m).getLast? with
    | none => exact .inl rfl
    | some w =>
      obtain ⟨hw, above, left, higher⟩ := mem_leftWalls.mp (List.mem_of_getLast? last)
      exact .inr ⟨w, hw, above, left, higher, rfl⟩
  · intro q hq from_start above left
    apply Nat.le_of_not_gt
    intro higher
    have member : q ∈ leftWalls marks lo m := mem_leftWalls.mpr ⟨hq, above, left, higher⟩
    cases last : (leftWalls marks lo m).getLast? with
    | none =>
      rw [List.getLast?_eq_none_iff.mp last] at member
      cases member
    | some w =>
      have := walls.le_getLast last member
      simp only [last, Option.map_some, Option.getD_some] at from_start
      omega
  · cases first : marks.find? (isRightWall hi m) with
    | none => exact .inl rfl
    | some w =>
      obtain ⟨right, below, stops⟩ := isRightWall_iff.mp (List.find?_some first)
      exact .inr ⟨w, List.mem_of_find?_eq_some first, right, below, stops, rfl⟩
  · intro q hq right before below stops
    have hit : isRightWall hi m q = true := isRightWall_iff.mpr ⟨right, below, stops⟩
    cases first : marks.find? (isRightWall hi m) with
    | none => exact absurd hit (List.find?_eq_none.mp first q hq)
    | some w =>
      have := ordered.le_of_find? first hq hit
      simp only [first, Option.map_some, Option.getD_some] at before
      omega

theorem reach_eq_of_reaches {marks : List Mark} (ordered : Ordered marks) {lo hi : Nat} {m : Mark}
    {span : Span} (h : Reaches marks lo hi m span) : reach marks lo hi m = span :=
  (reach_reaches ordered lo hi m).unique h

def Mark.Earlier (a b : Mark) : Prop :=
  a.rank < b.rank ∨ a.rank = b.rank ∧ a.offset < b.offset

theorem mem_inOrder {marks : List Mark} {lo hi : Nat} {m : Mark} :
    m ∈ inOrder marks lo hi ↔ m ∈ marks ∧ lo < m.offset ∧ m.offset + 1 < hi := by
  simp only [inOrder, List.mem_flatMap, List.mem_filter, Bool.and_eq_true, decide_eq_true_eq,
    beq_iff_eq]
  constructor
  · rintro ⟨tier, _, hm, ⟨above, below⟩, _⟩
    exact ⟨hm, above, below⟩
  · rintro ⟨hm, above, below⟩
    exact ⟨m.operator.tier, Tier.mem_all _, hm, ⟨above, below⟩, rfl⟩

theorem Reaches.around {marks : List Mark} {lo hi : Nat} {m : Mark} {s : Span} (h : Reaches marks lo hi m s)
    (hm : m ∈ inOrder marks lo hi) : s.start ≤ m.offset ∧ m.offset < s.stop := by
  obtain ⟨_, above, below⟩ := mem_inOrder.mp hm
  exact ⟨h.start_le (by omega), h.lt_stop (by omega)⟩

theorem inOrder_earlier {marks : List Mark} (ordered : Ordered marks) (lo hi : Nat) :
    (inOrder marks lo hi).Pairwise Mark.Earlier := by
  refine List.pairwise_flatMap.mpr ⟨?_, ?_⟩
  · intro tier _
    have sorted : Ordered (marks.filter fun m => lo < m.offset && m.offset + 1 < hi &&
        m.operator.tier == tier) := ordered.filter _
    refine List.Pairwise.imp_of_mem ?_ sorted
    intro a b ha hb before
    simp only [List.mem_filter, Bool.and_eq_true, beq_iff_eq] at ha hb
    exact .inr ⟨by rw [Mark.rank, Mark.rank, ha.2.2, hb.2.2], before⟩
  · have tiers : Tier.all.Pairwise (fun s t => s.rank < t.rank) := by decide
    refine tiers.imp ?_
    intro s t lower a ha b hb
    simp only [List.mem_filter, Bool.and_eq_true, beq_iff_eq] at ha hb
    exact .inl (by rw [Mark.rank, Mark.rank, ha.2.2, hb.2.2]; exact lower)

theorem Mark.Earlier.asymm {a b : Mark} (h : a.Earlier b) : ¬ b.Earlier a := by
  unfold Mark.Earlier at *
  omega

/-- What an operator reaches lies in one operand of any operator taken after it, or apart from all that
one reaches. -/
theorem Reaches.in_operand_or_apart {marks : List Mark} {size : Nat} {q m : Mark} {r s : Span}
    (ordered : Ordered marks)
    (hq : q ∈ inOrder marks 0 size) (hm : m ∈ inOrder marks 0 size) (earlier : q.Earlier m)
    (first : Reaches marks 0 size q r) (second : Reaches marks 0 size m s) :
    (s.start ≤ r.start ∧ r.stop ≤ m.offset) ∨ (m.offset < r.start ∧ r.stop ≤ s.stop) ∨
      r.stop < s.start ∨ s.stop < r.start := by
  obtain ⟨hq, q_above, q_below⟩ := mem_inOrder.mp hq
  obtain ⟨hm, m_above, m_below⟩ := mem_inOrder.mp hm
  unfold Mark.Earlier at earlier
  -- Seen from `q`, each wall of `m` and `m` itself are walls.
  rcases Nat.lt_trichotomy q.offset m.offset with left | same | right
  · have to_m := first.stop_le_wall hm left (by omega) (.inl (by omega))
    rcases second.start_at with start | ⟨w, hw, w_above, w_left, later, start⟩
    · exact .inl ⟨by omega, to_m⟩
    · rcases Nat.lt_trichotomy q.offset w.offset with before | here | behind
      · have to_wall := first.stop_le_wall hw before (by omega) (.inl (by omega))
        exact .inr (.inr (.inl (by omega)))
      · have := ordered.eq_of_offset hq hw here
        subst this
        omega
      · have from_wall := first.wall_lt_start hw w_above behind (by omega)
        exact .inl ⟨by omega, to_m⟩
  · have := ordered.eq_of_offset hq hm same
    subst this
    omega
  · have from_m := first.wall_lt_start hm m_above right (by omega)
    rcases second.stop_at with stop | ⟨w, hw, w_right, w_below, stops, stop⟩
    · have := first.stop_le_hi
      exact .inr (.inl ⟨from_m, by omega⟩)
    · unfold Mark.Stops at stops
      rcases Nat.lt_trichotomy q.offset w.offset with before | here | behind
      · have to_wall := first.stop_le_wall hw before w_below (stops.imp_left fun later => by omega)
        exact .inr (.inl ⟨from_m, by omega⟩)
      · have := ordered.eq_of_offset hq hw here
        subst this
        omega
      · have from_wall := first.wall_lt_start hw (by omega) behind (by omega)
        exact .inr (.inr (.inr (by omega)))

theorem slice_of_reach {t : Text} {m : Mark} (member : m ∈ inOrder (marksOf t) 0 (Text.size t)) :
    ∃ middle, Text.slice? t (reach (marksOf t) 0 (Text.size t) m).start
      (reach (marksOf t) 0 (Text.size t) m).stop = some middle := by
  obtain ⟨_, above, below⟩ := mem_inOrder.mp member
  have reaches := reach_reaches (ordered_marksOf t) 0 (Text.size t) m
  have start := reaches.start_le (Nat.zero_le _)
  have stop := reaches.lt_stop (by omega)
  refine slice_of_boundaries ?_ ?_ (by omega)
  · rcases reaches.start_at with front | ⟨w, hw, _, _, _, edge⟩
    · rw [front]; exact boundary_zero t
    · rw [← edge]; exact (boundary_of_mem hw).2
  · rcases reaches.stop_at with back | ⟨w, hw, _, _, _, edge⟩
    · rw [back]; exact boundary_size t
    · rw [← edge]; exact (boundary_of_mem hw).1

end EvalOrder
