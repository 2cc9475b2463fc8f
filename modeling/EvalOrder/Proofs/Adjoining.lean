import EvalOrder.Proofs.Splitting
import EvalOrder.Theory.Adjoining

/-! Main statement: whenever an operator is split, the latest operation on either side of it is the widest
one there. What was made before lies in one of its operands or apart from both, so nothing on a side is
wider than the operand, and the latest one is the operand. -/
namespace EvalOrder

namespace Precedence

section Turn

variable {t : Text} {taken rest : List Mark} {q m : Mark} {s : Span}

theorem laminar_bound (hq : q ∈ visits t (marksOf t)) (hm : m ∈ visits t (marksOf t))
    (earlier : q.Earlier m) (j k : Nat) :
    (bound t (marksOf t) (q, j)).Laminar (bound t (marksOf t) (m, k)) := by
  have ordered := ordered_marksOf t
  have first := reach_reaches ordered 0 (Text.size t) q
  have second := reach_reaches ordered 0 (Text.size t) m
  have place := first.in_operand_or_apart ordered hq hm earlier second
  have its_own := first.around hq
  have own := second.around hm
  simp only [Operation.Laminar, Operation.Within, bound]
  omega

theorem mem_visits_of_turn (turn : visits t (marksOf t) = taken ++ m :: rest) : m ∈ visits t (marksOf t) := by
  rw [turn]
  exact List.mem_append_right _ List.mem_cons_self

/-- An operation made before the turn of `m` is in the left operand of `m`, in the right one, or beside
what `m` reaches. -/
theorem place_of_made (turn : visits t (marksOf t) = taken ++ m :: rest)
    (reaches : Reaches (marksOf t) 0 (Text.size t) m s) {o : Operation} (made : o ∈ run t (marksOf t) taken) :
    o.start ≤ o.stop ∧ s.start ≤ m.offset ∧ m.offset < s.stop ∧
      (s.start ≤ o.start ∧ o.stop < m.offset ∨ m.offset < o.start ∧ o.stop < s.stop ∨
        o.stop + 1 < s.start ∨ s.stop < o.start) := by
  have ordered := ordered_marksOf t
  have hm := mem_visits_of_turn turn
  rw [run_of_visits turn] at made
  obtain ⟨⟨q, j⟩, member, rfl⟩ := List.mem_map.mp made
  obtain ⟨hq, earlier⟩ := (before_of_inOrder ordered turn).mem_inOrder (List.fst_mem_of_mem_zipIdx member)
  have first := reach_reaches ordered 0 (Text.size t) q
  have place := first.in_operand_or_apart ordered hq hm earlier reaches
  have its_own := first.around hq
  have own := reaches.around hm
  simp only [bound]
  omega

theorem widestBefore_run (turn : visits t (marksOf t) = taken ++ m :: rest) :
    WidestBefore (run t (marksOf t) taken) m.offset (endingBefore? (run t (marksOf t) taken) m.offset) := by
  have ordered := ordered_marksOf t
  have operand := start_of_made ordered (before_of_inOrder ordered turn) (mem_visits_of_turn turn)
  rw [← run_of_visits turn] at operand
  cases found : endingBefore? (run t (marksOf t) taken) m.offset with
  | none =>
    intro o made stop
    have none_ends := List.filter_eq_nil_iff.mp (List.getLast?_eq_none_iff.mp found) o made
    exact none_ends (beq_iff_eq.mpr stop)
  | some o =>
    obtain ⟨made, stop⟩ := List.mem_filter.mp (List.mem_of_getLast? found)
    rw [found] at operand
    have start : o.start = (reach (marksOf t) 0 (Text.size t) m).start := operand
    refine ⟨made, beq_iff_eq.mp stop, fun p other stop => ?_⟩
    have place := place_of_made turn (reach_reaches ordered 0 (Text.size t) m) other
    omega

theorem widestAfter_run (turn : visits t (marksOf t) = taken ++ m :: rest) :
    WidestAfter (run t (marksOf t) taken) m.offset (startingAfter? (run t (marksOf t) taken) m.offset) := by
  have ordered := ordered_marksOf t
  have operand := stop_of_made ordered (fun _ => lt_size_of_mem) (before_of_inOrder ordered turn)
    (mem_visits_of_turn turn)
  rw [← run_of_visits turn] at operand
  cases found : startingAfter? (run t (marksOf t) taken) m.offset with
  | none =>
    intro o made start
    have none_starts := List.filter_eq_nil_iff.mp (List.getLast?_eq_none_iff.mp found) o made
    exact none_starts (beq_iff_eq.mpr start)
  | some o =>
    obtain ⟨made, start⟩ := List.mem_filter.mp (List.mem_of_getLast? found)
    rw [found] at operand
    have stop : o.stop = (reach (marksOf t) 0 (Text.size t) m).stop - 1 := operand
    refine ⟨made, beq_iff_eq.mp start, fun p other start => ?_⟩
    have place := place_of_made turn (reach_reaches ordered 0 (Text.size t) m) other
    omega

theorem laminar_run (turn : visits t (marksOf t) = taken ++ rest) :
    (run t (marksOf t) taken).Pairwise Operation.Laminar := by
  have order := inOrder_earlier (ordered_marksOf t) 0 (Text.size t)
  rw [← visits_eq, turn] at order
  -- An operation is made of an operator and its number; only the operators are in order by themselves.
  have numbered : taken.zipIdx.Pairwise fun a b => a.1.Earlier b.1 := by
    rw [← List.pairwise_map, List.zipIdx_map_fst]
    exact (List.pairwise_append.mp order).1
  have member : ∀ a ∈ taken.zipIdx, a.1 ∈ visits t (marksOf t) := by
    intro a ha
    rw [turn]
    exact List.mem_append_left _ (List.fst_mem_of_mem_zipIdx ha)
  rw [run_of_visits turn]
  refine List.pairwise_map.mpr (numbered.imp_of_mem fun ha hb earlier => ?_)
  exact laminar_bound (member _ ha) (member _ hb) earlier _ _

end Turn

end Precedence

/-- At the turn of any operator of a text, with `taken` split before it. -/
theorem run_latestWidest {t : Text} {taken : List Mark} {m : Mark}
    (turn : taken ++ [m] <+: Precedence.visits t (marksOf t)) :
    LatestWidest (Precedence.run t (marksOf t) taken) m.offset := by
  obtain ⟨rest, split⟩ := turn
  have turn : Precedence.visits t (marksOf t) = taken ++ m :: rest := by
    rw [← split, List.append_assoc, List.singleton_append]
  refine ⟨Precedence.laminar_run turn, fun o made covers => ?_, Precedence.widestBefore_run turn,
    Precedence.widestAfter_run turn⟩
  have place := Precedence.place_of_made turn (reach_reaches (ordered_marksOf t) 0 (Text.size t) m) made
  unfold Operation.Covers at covers
  omega

theorem run_latestWidest_both_sides :
    ([⟨7, .add⟩, ⟨3, .and⟩, ⟨9, .and⟩, ⟨1, .or⟩] ++ [⟨5, .or⟩] : List Mark) <+:
        Precedence.visits "a|b&c|d+e&f".toList (marksOf "a|b&c|d+e&f".toList) ∧
      ∃ made, Precedence.run "a|b&c|d+e&f".toList (marksOf "a|b&c|d+e&f".toList)
          [⟨7, .add⟩, ⟨3, .and⟩, ⟨9, .and⟩, ⟨1, .or⟩] = made ∧
        made.map (fun o => (o.start, o.stop)) = [(6, 8), (2, 4), (6, 10), (0, 4)] ∧ LatestWidest made 5 := by
  have turn : ([⟨7, .add⟩, ⟨3, .and⟩, ⟨9, .and⟩, ⟨1, .or⟩] ++ [⟨5, .or⟩] : List Mark) <+:
      Precedence.visits "a|b&c|d+e&f".toList (marksOf "a|b&c|d+e&f".toList) := by decide +kernel
  exact ⟨turn, _, rfl, by decide +kernel, run_latestWidest turn⟩

end EvalOrder
