import EvalOrder.Proofs.Reach

/-! Narrowing to the reach of one operator. It is the last to be taken between the ends of its own reach; the
others there are taken before it, in the same order, and reach as far as they did. The one condition is
that no operator stands right at the inner side of an end. -/
namespace EvalOrder

section Narrow

variable {marks : List Mark} {lo hi : Nat} {m : Mark} {span : Span}

theorem inOrder_narrow {a b : Nat} (left : lo ≤ a) (right : b ≤ hi) :
    inOrder marks a b =
      (inOrder marks lo hi).filter fun q => a < q.offset && q.offset + 1 < b := by
  rw [inOrder, inOrder, List.filter_flatMap]
  congr 1
  funext tier
  rw [List.filter_filter]
  apply List.filter_congr
  intro q _
  apply Bool.eq_iff_iff.mpr
  simp only [Bool.and_eq_true, decide_eq_true_eq, beq_iff_eq]
  constructor
  · rintro ⟨⟨above, below⟩, same⟩
    exact ⟨⟨above, below⟩, ⟨by omega, by omega⟩, same⟩
  · rintro ⟨⟨above, below⟩, _, same⟩
    exact ⟨⟨above, below⟩, same⟩

namespace Reaches

theorem earlier (ordered : Ordered marks) (h : Reaches marks lo hi m span) (hm : m ∈ marks) {q : Mark}
    (hq : q ∈ marks) (above : lo < q.offset) (from_start : span.start ≤ q.offset)
    (before_stop : q.offset < span.stop) : q = m ∨ q.Earlier m := by
  rcases Nat.lt_trichotomy q.offset m.offset with left | here | right
  · have rank := h.left_free q hq from_start above left
    exact .inr ((Nat.lt_or_eq_of_le rank).imp_right fun same => ⟨same, left⟩)
  · exact .inl (ordered.eq_of_offset hq hm here)
  · have free := h.right_free q hq right before_stop (Nat.lt_of_lt_of_le before_stop h.stop_le_hi)
    have : ¬ m.rank ≤ q.rank := fun le => free (.inl le)
    exact .inr (.inl (Nat.lt_of_not_le this))

/-- What an operator reaches between the ends of a reach is what it reaches. -/
theorem widen (ordered : Ordered marks) (h : Reaches marks lo hi m span) (hm : m ∈ marks)
    (free_start : ∀ q ∈ marks, q.offset ≠ span.start) (free_stop : ∀ q ∈ marks, q.offset + 1 ≠ span.stop)
    {q : Mark} (hq : q ∈ marks) (above : span.start < q.offset) (below : q.offset < span.stop) {r : Span}
    (inner : Reaches marks span.start span.stop q r) : Reaches marks lo hi q r := by
  have lo_le := h.lo_le_start
  have le_hi := h.stop_le_hi
  have rank : q.rank ≤ m.rank := by
    rcases h.earlier ordered hm hq (by omega) (by omega) below with rfl | lower | same
    · exact Nat.le_refl _
    · exact Nat.le_of_lt lower
    · exact Nat.le_of_eq same.1
  constructor
  · rcases inner.start_at with start | ⟨w, hw, w_above, w_left, higher, start⟩
    · rcases h.start_at with edge | ⟨w, hw, w_above, _, higher, edge⟩
      · exact .inl (start.trans edge)
      · exact .inr ⟨w, hw, w_above, by omega, by omega, edge.trans start.symm⟩
    · exact .inr ⟨w, hw, by omega, w_left, higher, start⟩
  · intro p hp from_start _ left
    have := inner.lo_le_start
    have := free_start p hp
    exact inner.left_free p hp from_start (by omega) left
  · rcases inner.stop_at with stop | ⟨w, hw, w_right, w_below, stops, stop⟩
    · rcases h.stop_at with edge | ⟨w, hw, w_right, w_below, stops, edge⟩
      · exact .inl (stop.trans edge)
      · refine .inr ⟨w, hw, by omega, w_below, ?_, edge.trans stop.symm⟩
        exact stops.imp_left fun le => Nat.le_trans rank le
    · rcases stops with le | edge
      · exact .inr ⟨w, hw, w_right, by omega, .inl le, stop⟩
      · exact absurd edge (free_stop w hw)
  · intro p hp right before _ stops
    have := inner.stop_le_hi
    rcases stops with le | edge
    · exact inner.right_free p hp right before (by omega) (.inl le)
    · exact free_stop p hp (by omega)

end Reaches

theorem reach_narrow (ordered : Ordered marks) (hm : m ∈ marks)
    (free_start : ∀ q ∈ marks, q.offset ≠ (reach marks lo hi m).start)
    (free_stop : ∀ q ∈ marks, q.offset + 1 ≠ (reach marks lo hi m).stop) {q : Mark}
    (hq : q ∈ inOrder marks (reach marks lo hi m).start (reach marks lo hi m).stop) :
    reach marks (reach marks lo hi m).start (reach marks lo hi m).stop q = reach marks lo hi q := by
  obtain ⟨hq, above, below⟩ := mem_inOrder.mp hq
  have inner := reach_reaches ordered (reach marks lo hi m).start (reach marks lo hi m).stop q
  have outer := reach_reaches ordered lo hi m
  exact (reach_eq_of_reaches ordered
    (outer.widen ordered hm free_start free_stop hq above (by omega) inner)).symm

/-- The operators between the ends of a reach, in order: some of those before, then the operator itself. -/
theorem inOrder_reach (ordered : Ordered marks) {j : Nat} (found : (inOrder marks lo hi)[j]? = some m)
    (free_start : ∀ q ∈ marks, q.offset ≠ (reach marks lo hi m).start)
    (free_stop : ∀ q ∈ marks, q.offset + 1 ≠ (reach marks lo hi m).stop) :
    ∃ before, before.Sublist ((inOrder marks lo hi).take j) ∧
      inOrder marks (reach marks lo hi m).start (reach marks lo hi m).stop = before ++ [m] := by
  obtain ⟨hm, above, below⟩ := mem_inOrder.mp (List.mem_of_getElem? found)
  have reaches := reach_reaches ordered lo hi m
  have lo_le := reaches.lo_le_start
  have start_le := reaches.start_le (Nat.le_of_lt above)
  have lt_stop := reaches.lt_stop (by omega)
  have start_ne := free_start m hm
  have stop_ne := free_stop m hm
  obtain ⟨short, at_place⟩ := List.getElem?_eq_some_iff.mp found
  have split : inOrder marks lo hi =
      (inOrder marks lo hi).take j ++ m :: (inOrder marks lo hi).drop (j + 1) := by
    rw [← at_place, List.getElem_cons_drop, List.take_append_drop]
  have order := inOrder_earlier ordered lo hi
  rw [split] at order
  have later := (List.pairwise_cons.mp (List.pairwise_append.mp order).2.1).1
  have none_later : ((inOrder marks lo hi).drop (j + 1)).filter (fun q =>
      (reach marks lo hi m).start < q.offset && q.offset + 1 < (reach marks lo hi m).stop) = [] := by
    refine List.filter_eq_nil_iff.mpr fun q hq within => ?_
    simp only [Bool.and_eq_true, decide_eq_true_eq] at within
    have q_marks := (mem_inOrder.mp (List.mem_of_mem_drop hq)).1
    rcases reaches.earlier ordered hm q_marks (by omega) (by omega) (by omega) with rfl | before
    · exact (later q hq).asymm (later q hq)
    · exact (later q hq).asymm before
  refine ⟨((inOrder marks lo hi).take j).filter fun q =>
    (reach marks lo hi m).start < q.offset && q.offset + 1 < (reach marks lo hi m).stop,
    List.filter_sublist, ?_⟩
  rw [inOrder_narrow lo_le reaches.stop_le_hi]
  conv => lhs; rw [split]
  rw [List.filter_append, List.filter_cons_of_pos, none_later]
  simp only [Bool.and_eq_true, decide_eq_true_eq]
  omega

end Narrow

end EvalOrder
