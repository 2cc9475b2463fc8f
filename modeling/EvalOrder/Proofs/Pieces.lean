import EvalOrder.Proofs.Narrowing
import EvalOrder.Proofs.Sections

/-! The operators of consecutive parts, found among the operators of all parts. What stands outside of the
piece has no influence on the order and the reach of what stands inside. -/
namespace EvalOrder

section Outside

variable {left middle right : List Mark} {lo hi : Nat}

theorem inOrder_outside (before : ∀ q ∈ left, q.offset < lo) (after : ∀ q ∈ right, hi ≤ q.offset) :
    inOrder (left ++ middle ++ right) lo hi = inOrder middle lo hi := by
  rw [inOrder, inOrder]
  congr 1
  funext tier
  have none_left : left.filter (fun q => lo < q.offset && q.offset + 1 < hi && q.operator.tier == tier) =
      [] := by
    refine List.filter_eq_nil_iff.mpr fun q hq h => ?_
    have := before q hq
    simp only [Bool.and_eq_true, decide_eq_true_eq] at h
    omega
  have none_right : right.filter (fun q => lo < q.offset && q.offset + 1 < hi && q.operator.tier == tier) =
      [] := by
    refine List.filter_eq_nil_iff.mpr fun q hq h => ?_
    have := after q hq
    simp only [Bool.and_eq_true, decide_eq_true_eq] at h
    omega
  rw [List.filter_append, List.filter_append, none_left, none_right, List.nil_append, List.append_nil]

theorem reach_outside (ordered : Ordered (left ++ middle ++ right)) (before : ∀ q ∈ left, q.offset < lo)
    (after : ∀ q ∈ right, hi ≤ q.offset) {m : Mark} (above : lo ≤ m.offset)
    (below : m.offset < hi) :
    reach (left ++ middle ++ right) lo hi m = reach middle lo hi m := by
  have ordered_middle : Ordered middle :=
    (List.pairwise_append.mp (List.pairwise_append.mp ordered).1).2.1
  have part : ∀ w ∈ middle, w ∈ left ++ middle ++ right := fun w hw =>
    List.mem_append_left _ (List.mem_append_right _ hw)
  have only : ∀ q ∈ left ++ middle ++ right, lo ≤ q.offset → q.offset < hi → q ∈ middle := by
    intro q hq above below
    rcases List.mem_append.mp hq with front | back
    · rcases List.mem_append.mp front with outer | inner
      · have := before q outer
        omega
      · exact inner
    · have := after q back
      omega
  have reaches := reach_reaches ordered_middle lo hi m
  apply reach_eq_of_reaches ordered
  constructor
  · rcases reaches.start_at with edge | ⟨w, hw, rest⟩
    · exact .inl edge
    · exact .inr ⟨w, part w hw, rest⟩
  · intro q hq from_start q_above q_left
    exact reaches.left_free q (only q hq (Nat.le_of_lt q_above) (by omega)) from_start q_above q_left
  · rcases reaches.stop_at with edge | ⟨w, hw, rest⟩
    · exact .inl edge
    · exact .inr ⟨w, part w hw, rest⟩
  · intro q hq q_right before_stop q_below stops
    exact reaches.right_free q (only q hq (by omega) q_below) q_right before_stop q_below stops

end Outside

namespace Part

theorem signs_append (i : Nat) (ps qs : List Part) :
    signs i (ps ++ qs) = signs i ps ++ signs (i + ps.length) qs := by
  induction ps generalizing i with
  | nil => rfl
  | cons p ps ih =>
    have next : i + 1 + ps.length = i + (ps.length + 1) := by omega
    rw [List.cons_append, List.length_cons, ← next]
    cases p with
    | char c plain => rw [signs, ih, signs, List.append_assoc]
    | group inside => rw [signs, ih, signs]

theorem signs_moved (k i : Nat) (ps : List Part) :
    (signs i ps).map (Mark.move (· + k)) = signs (i + k) ps := by
  induction ps generalizing i with
  | nil => rfl
  | cons p ps ih =>
    have next : i + 1 + k = i + k + 1 := by omega
    cases p with
    | char c plain => rw [signs, List.map_append, markOf_move, ih, next, signs]
    | group inside => rw [signs, ih, next, signs]

theorem keeps_moved (k : Nat) (ps : List Part) : Keeps (· + k) (signs 0 ps) ps.length := by
  constructor
  · intro i j less _
    exact Nat.add_lt_add_right less k
  · intro q hq
    have := signs_bounds hq
    omega
  · intro q _
    exact Nat.add_right_comm q.offset 1 k

section Piece

variable {ps : List Part} {span : Span}

theorem length_cutOut (bounded : span.stop ≤ ps.length) :
    (cutOut ps span).length = span.stop - span.start := by
  rw [cutOut, List.length_drop, List.length_take, Nat.min_eq_left bounded]

theorem signs_piece (order : span.start ≤ span.stop) (bounded : span.stop ≤ ps.length) :
    signs 0 ps = signs 0 (ps.take span.start) ++
      (signs 0 (cutOut ps span)).map (Mark.move (· + span.start)) ++
      signs span.stop (ps.drop span.stop) := by
  have front : (ps.take span.start).length = span.start := by
    rw [List.length_take, Nat.min_eq_left (Nat.le_trans order bounded)]
  have middle : span.start + (cutOut ps span).length = span.stop := by
    rw [length_cutOut bounded]
    omega
  conv => lhs; rw [cutOut_split ps order]
  rw [signs_append, signs_append, List.length_append, front, middle, signs_moved, Nat.zero_add,
    Nat.zero_add]

theorem piece_bounds (order : span.start ≤ span.stop) (bounded : span.stop ≤ ps.length) :
    (∀ q ∈ signs 0 (ps.take span.start), q.offset < span.start) ∧
      ∀ q ∈ signs span.stop (ps.drop span.stop), span.stop ≤ q.offset := by
  constructor
  · intro q hq
    have := signs_bounds hq
    rw [List.length_take] at this
    omega
  · intro q hq
    exact (signs_bounds hq).1

theorem inOrder_piece (order : span.start ≤ span.stop) (bounded : span.stop ≤ ps.length) :
    inOrder (signs 0 ps) span.start span.stop =
      (inOrder (signs 0 (cutOut ps span)) 0 (cutOut ps span).length).map
        (Mark.move (· + span.start)) := by
  have bounds := piece_bounds order bounded
  have stop : (cutOut ps span).length + span.start = span.stop := by
    rw [length_cutOut bounded]
    omega
  have moved := (keeps_moved span.start (cutOut ps span)).inOrder_move (Nat.zero_le _)
  simp only [Nat.zero_add, stop] at moved
  rw [signs_piece order bounded, inOrder_outside bounds.1 bounds.2, moved]

theorem reach_piece (order : span.start ≤ span.stop) (bounded : span.stop ≤ ps.length) {q : Mark}
    (member : q ∈ inOrder (signs 0 (cutOut ps span)) 0 (cutOut ps span).length) :
    reach (signs 0 ps) span.start span.stop (q.move (· + span.start)) =
      ⟨(reach (signs 0 (cutOut ps span)) 0 (cutOut ps span).length q).start + span.start,
        (reach (signs 0 (cutOut ps span)) 0 (cutOut ps span).length q).stop + span.start⟩ := by
  obtain ⟨hq, above, below⟩ := mem_inOrder.mp member
  have bounds := piece_bounds order bounded
  have stop : (cutOut ps span).length + span.start = span.stop := by
    rw [length_cutOut bounded]
    omega
  have moved := (keeps_moved span.start (cutOut ps span)).reach_move (signs_ordered 0 _) hq
    (Nat.le_of_lt above)
  simp only [Nat.zero_add, stop] at moved
  have ordered := signs_ordered 0 ps
  rw [signs_piece order bounded] at ordered ⊢
  rw [reach_outside ordered bounds.1 bounds.2 (Nat.le_add_left _ _), moved]
  change q.offset + span.start < span.stop
  omega

theorem cutOut_piece (order : span.start ≤ span.stop) (bounded : span.stop ≤ ps.length) {inner : Span}
    (inside : inner.stop ≤ (cutOut ps span).length) :
    cutOut (cutOut ps span) inner = cutOut ps ⟨inner.start + span.start, inner.stop + span.start⟩ := by
  rw [length_cutOut bounded] at inside
  have short : min (span.start + inner.stop) span.stop = inner.stop + span.start := by omega
  rw [cutOut, cutOut, cutOut, List.take_drop, List.take_take, short, List.drop_drop,
    Nat.add_comm span.start inner.start]

/-- The operations of a piece that an operation covers: some of those made before it, then itself. -/
theorem spans_piece {j : Nat} (found : (spans ps)[j]? = some span)
    (free_start : ∀ q ∈ signs 0 ps, q.offset ≠ span.start)
    (free_stop : ∀ q ∈ signs 0 ps, q.offset + 1 ≠ span.stop) :
    ∃ before, before.Sublist ((spans ps).take j) ∧
      (spans (cutOut ps span)).map (cutOut (cutOut ps span)) = (before ++ [span]).map (cutOut ps) := by
  rw [spans, List.getElem?_map, Option.map_eq_some_iff] at found
  obtain ⟨m, found, made⟩ := found
  have member := List.mem_of_getElem? found
  have bounds := reach_bounds member
  obtain ⟨before, sublist, narrow⟩ :=
    inOrder_reach (signs_ordered 0 ps) found (made ▸ free_start) (made ▸ free_stop)
  have wide : ∀ q ∈ inOrder (signs 0 ps) span.start span.stop,
      reach (signs 0 ps) span.start span.stop q = reach (signs 0 ps) 0 ps.length q := by
    rw [← made] at free_start free_stop ⊢
    exact fun q hq => reach_narrow (signs_ordered 0 ps) (mem_inOrder.mp member).1 free_start free_stop hq
  rw [made] at bounds narrow
  have order : span.start ≤ span.stop := by omega
  have same : ∀ q ∈ inOrder (signs 0 (cutOut ps span)) 0 (cutOut ps span).length,
      cutOut (cutOut ps span) (reach (signs 0 (cutOut ps span)) 0 (cutOut ps span).length q) =
        cutOut ps (reach (signs 0 ps) 0 ps.length (q.move (· + span.start))) := by
    intro q hq
    have moved := List.mem_map_of_mem (f := Mark.move (· + span.start)) hq
    rw [← inOrder_piece order bounds.2.2] at moved
    rw [cutOut_piece order bounds.2.2 (reach_bounds hq).2.2, ← reach_piece order bounds.2.2 hq, wide _ moved]
  refine ⟨before.map (reach (signs 0 ps) 0 ps.length), ?_, ?_⟩
  · rw [spans, ← List.map_take]
    exact sublist.map _
  · have listed := congrArg (List.map fun q => cutOut ps (reach (signs 0 ps) 0 ps.length q))
      ((inOrder_piece order bounds.2.2).symm.trans narrow)
    rw [List.map_map, List.map_append, List.map_singleton] at listed
    rw [spans, List.map_map, List.map_append, List.map_map, List.map_singleton, ← made]
    rw [← made] at listed same
    exact (List.map_congr_left same).trans listed

end Piece

end Part

end EvalOrder
