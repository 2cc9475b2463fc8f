import EvalOrder.Proofs.Masking
import EvalOrder.Proofs.Splitting
import EvalOrder.Theory.Direct

/-! The operators of a level, counted in parts. The masked text and the source show the same parts in
different widths. Both keep the order of the parts, and an operator is one byte in both, so an operation
covers the same parts whether it is found in the masked text or by its reach in the source. -/
namespace EvalOrder

open EvalOrder.Part Site

def Mark.move (f : Nat → Nat) (m : Mark) : Mark := ⟨f m.offset, m.operator⟩

/-- Offsets that keep their order up to `hi` and grow by one over each of the marks. -/
structure Keeps (f : Nat → Nat) (marks : List Mark) (hi : Nat) : Prop where
  grows : ∀ i j, i < j → j ≤ hi → f i < f j
  inside : ∀ q ∈ marks, q.offset < hi
  step : ∀ q ∈ marks, f (q.offset + 1) = f q.offset + 1

namespace Keeps

variable {f : Nat → Nat} {marks : List Mark} {lo hi : Nat}

theorem lt_iff (h : Keeps f marks hi) {i j : Nat} (hi' : i ≤ hi) (hj : j ≤ hi) : f i < f j ↔ i < j := by
  constructor
  · intro less
    apply Nat.lt_of_not_ge
    intro ge
    rcases Nat.lt_or_eq_of_le ge with greater | rfl
    · have := h.grows j i greater hi'
      omega
    · omega
  · intro less
    exact h.grows i j less hj

theorem eq_iff (h : Keeps f marks hi) {i j : Nat} (hi' : i ≤ hi) (hj : j ≤ hi) : f i = f j ↔ i = j := by
  have := h.lt_iff hi' hj
  have := h.lt_iff hj hi'
  omega

theorem le_iff (h : Keeps f marks hi) {i j : Nat} (hi' : i ≤ hi) (hj : j ≤ hi) : f i ≤ f j ↔ i ≤ j := by
  have := h.lt_iff hj hi'
  omega

theorem stops_move (h : Keeps f marks hi) {m q : Mark} (hq : q ∈ marks) :
    (m.move f).Stops (f hi) (q.move f) ↔ m.Stops hi q := by
  have edge : f q.offset + 1 = f hi ↔ q.offset + 1 = hi := by
    rw [← h.step q hq]
    exact h.eq_iff (h.inside q hq) (Nat.le_refl _)
  exact or_congr Iff.rfl edge

theorem reaches_move (h : Keeps f marks hi) (bounds : lo ≤ hi) {m : Mark} (hm : m ∈ marks) {span : Span}
    (reaches : Reaches marks lo hi m span) (start_le : span.start ≤ hi) :
    Reaches (marks.map (Mark.move f)) (f lo) (f hi) (m.move f) ⟨f span.start, f span.stop⟩ := by
  have m_inside := Nat.le_of_lt (h.inside m hm)
  constructor
  · rcases reaches.start_at with start | ⟨w, hw, above, left, higher, start⟩
    · exact .inl (congrArg f start)
    · have w_inside := Nat.le_of_lt (h.inside w hw)
      refine .inr ⟨w.move f, List.mem_map_of_mem hw, (h.lt_iff bounds w_inside).mpr above,
        (h.lt_iff w_inside m_inside).mpr left, higher, ?_⟩
      rw [← start, h.step w hw]
      rfl
  · intro q' hq' from_start above left
    obtain ⟨q, hq, rfl⟩ := List.mem_map.mp hq'
    have q_inside := Nat.le_of_lt (h.inside q hq)
    exact reaches.left_free q hq ((h.le_iff start_le q_inside).mp from_start)
      ((h.lt_iff bounds q_inside).mp above) ((h.lt_iff q_inside m_inside).mp left)
  · rcases reaches.stop_at with stop | ⟨w, hw, right, below, stops, stop⟩
    · exact .inl (congrArg f stop)
    · have w_inside := Nat.le_of_lt (h.inside w hw)
      exact .inr ⟨w.move f, List.mem_map_of_mem hw, (h.lt_iff m_inside w_inside).mpr right,
        (h.lt_iff w_inside (Nat.le_refl _)).mpr below, (h.stops_move hw).mpr stops, congrArg f stop⟩
  · intro q' hq' right before below stops
    obtain ⟨q, hq, rfl⟩ := List.mem_map.mp hq'
    have q_inside := Nat.le_of_lt (h.inside q hq)
    exact reaches.right_free q hq ((h.lt_iff m_inside q_inside).mp right)
      ((h.lt_iff q_inside reaches.stop_le_hi).mp before) (h.inside q hq) ((h.stops_move hq).mp stops)

theorem ordered_move (h : Keeps f marks hi) (ordered : Ordered marks) :
    Ordered (marks.map (Mark.move f)) := by
  refine List.pairwise_map.mpr (ordered.imp_of_mem ?_)
  intro a b ha hb before
  exact h.grows _ _ before (Nat.le_of_lt (h.inside b hb))

theorem reach_move (h : Keeps f marks hi) (ordered : Ordered marks) {m : Mark} (hm : m ∈ marks)
    (above : lo ≤ m.offset) :
    reach (marks.map (Mark.move f)) (f lo) (f hi) (m.move f) =
      ⟨f (reach marks lo hi m).start, f (reach marks lo hi m).stop⟩ := by
  have reaches := reach_reaches ordered lo hi m
  have m_inside := h.inside m hm
  have := reaches.start_le above
  exact reach_eq_of_reaches (h.ordered_move ordered)
    (h.reaches_move (by omega) hm reaches (by omega))

theorem inOrder_move (h : Keeps f marks hi) (bounds : lo ≤ hi) :
    inOrder (marks.map (Mark.move f)) (f lo) (f hi) = (inOrder marks lo hi).map (Mark.move f) := by
  rw [inOrder, inOrder, List.map_flatMap]
  congr 1
  funext tier
  rw [List.filter_map]
  congr 1
  apply List.filter_congr
  intro q hq
  have q_inside := h.inside q hq
  have above : decide (f lo < (q.move f).offset) = decide (lo < q.offset) :=
    decide_eq_decide.mpr (h.lt_iff bounds (Nat.le_of_lt q_inside))
  have below : decide ((q.move f).offset + 1 < f hi) = decide (q.offset + 1 < hi) := by
    have step : (q.move f).offset + 1 = f (q.offset + 1) := (h.step q hq).symm
    rw [step]
    exact decide_eq_decide.mpr (h.lt_iff q_inside (Nat.le_refl _))
  rw [Function.comp_apply, above, below]
  rfl

end Keeps

namespace Part

def signs : Nat → List Part → List Mark
  | _, [] => []
  | i, char c _ :: rest => markOf i c ++ signs (i + 1) rest
  | i, group _ :: rest => signs (i + 1) rest

theorem signs_bounds {i : Nat} {ps : List Part} {m : Mark} (member : m ∈ signs i ps) :
    i ≤ m.offset ∧ m.offset < i + ps.length := by
  induction ps generalizing i with
  | nil => cases member
  | cons p ps ih =>
    rw [List.length_cons]
    cases p with
    | char c plain =>
      rcases List.mem_append.mp member with here | later
      · have := mem_markOf here
        omega
      · have := ih later
        omega
    | group inside =>
      have := ih member
      omega

theorem signs_ordered (i : Nat) (ps : List Part) : Ordered (signs i ps) := by
  induction ps generalizing i with
  | nil => exact List.Pairwise.nil
  | cons p ps ih =>
    cases p with
    | char c plain =>
      refine List.pairwise_append.mpr ⟨markOf_ordered i c, ih _, ?_⟩
      intro a ha b hb
      have := mem_markOf ha
      have := signs_bounds hb
      omega
    | group inside => exact ih _

theorem sign_at {i : Nat} {ps : List Part} {m : Mark} (member : m ∈ signs i ps) :
    ∃ front back plain, ps = front ++ char m.operator.symbol plain :: back ∧ i + front.length = m.offset := by
  induction ps generalizing i with
  | nil => cases member
  | cons p ps ih =>
    cases p with
    | char c plain =>
      rcases List.mem_append.mp member with here | later
      · have offset := mem_markOf here
        simp only [markOf, Option.mem_toList, Option.map_eq_some_iff] at here
        obtain ⟨o, symbol, rfl⟩ := here
        have := Operator.ofChar?_eq_some_iff.mp symbol
        subst this
        exact ⟨[], ps, plain, rfl, rfl⟩
      · obtain ⟨front, back, plain', rfl, place⟩ := ih later
        refine ⟨char c plain :: front, back, plain', rfl, ?_⟩
        rw [List.length_cons]
        omega
    | group inside =>
      obtain ⟨front, back, plain', rfl, place⟩ := ih member
      refine ⟨group inside :: front, back, plain', rfl, ?_⟩
      rw [List.length_cons]
      omega

def spans (ps : List Part) : List Span :=
  (inOrder (signs 0 ps) 0 ps.length).map (reach (signs 0 ps) 0 ps.length)

def cutOut (ps : List Part) (span : Span) : List Part :=
  (ps.take span.stop).drop span.start

theorem cutOut_split (ps : List Part) {span : Span} (order : span.start ≤ span.stop) :
    ps = ps.take span.start ++ cutOut ps span ++ ps.drop span.stop := by
  have front : ps.take span.start = (ps.take span.stop).take span.start := by
    rw [List.take_take, Nat.min_eq_left order]
  rw [cutOut, front, List.take_append_drop, List.take_append_drop]

theorem reach_bounds {ps : List Part} {m : Mark} (member : m ∈ inOrder (signs 0 ps) 0 ps.length) :
    (reach (signs 0 ps) 0 ps.length m).start ≤ m.offset ∧
      m.offset < (reach (signs 0 ps) 0 ps.length m).stop ∧
      (reach (signs 0 ps) 0 ps.length m).stop ≤ ps.length := by
  obtain ⟨hm, above, below⟩ := mem_inOrder.mp member
  have reaches := reach_reaches (signs_ordered 0 ps) 0 ps.length m
  exact ⟨reaches.start_le (by omega), reaches.lt_stop (by omega), reaches.stop_le_hi⟩

theorem span_order {ps : List Part} {span : Span} (member : span ∈ spans ps) :
    span.start ≤ span.stop ∧ span.stop ≤ ps.length := by
  obtain ⟨m, hm, rfl⟩ := List.mem_map.mp member
  have := reach_bounds hm
  omega

/-- The byte of the text masked from alias `k` on at which the part in place `j` starts. -/
def maskedOffset (k : Nat) (ps : List Part) (j : Nat) : Nat :=
  Text.size (masked k (ps.take j))

def joinOffset (first : Nat) (ps : List Part) (j : Nat) : Nat :=
  first + Text.size (join (ps.take j))

theorem take_cut (ps : List Part) {i j : Nat} (order : i ≤ j) :
    ps.take j = ps.take i ++ cutOut ps ⟨i, j⟩ := by
  have front : ps.take i = (ps.take j).take i := by rw [List.take_take, Nat.min_eq_left order]
  rw [cutOut, front, List.take_append_drop]

theorem maskedOffset_cut (k : Nat) (ps : List Part) {i j : Nat} (order : i ≤ j) :
    maskedOffset k ps j =
      maskedOffset k ps i + Text.size (masked (k + (groups (ps.take i)).length) (cutOut ps ⟨i, j⟩)) := by
  rw [maskedOffset, take_cut ps order, masked_append, Text.size_append]
  rfl

theorem joinOffset_cut (first : Nat) (ps : List Part) {i j : Nat} (order : i ≤ j) :
    joinOffset first ps j = joinOffset first ps i + Text.size (join (cutOut ps ⟨i, j⟩)) := by
  rw [joinOffset, take_cut ps order, join_append, Text.size_append, ← Nat.add_assoc]
  rfl

theorem size_masked_pos {k : Nat} {ps : List Part} (some_part : ps ≠ []) :
    0 < Text.size (masked k ps) := by
  cases ps with
  | nil => exact absurd rfl some_part
  | cons p ps =>
    cases p with
    | char c plain =>
      have := c.utf8Size_pos
      simp only [masked, Text.size_cons]
      omega
    | group inside =>
      have := Char.utf8Size_pos marker
      simp only [masked, aliasOf, List.cons_append, Text.size_cons]
      omega

theorem size_join_pos {ps : List Part} (some_part : ps ≠ []) : 0 < Text.size (join ps) := by
  cases ps with
  | nil => exact absurd rfl some_part
  | cons p ps =>
    have := size_text_pos p
    rw [join_cons, Text.size_append]
    omega

theorem cutOut_ne_nil {ps : List Part} {i j : Nat} (less : i < j) (bounded : j ≤ ps.length) :
    cutOut ps ⟨i, j⟩ ≠ [] := by
  intro empty
  have := congrArg List.length empty
  simp only [cutOut, List.length_drop, List.length_take, List.length_nil] at this
  omega

theorem cutOut_sign {ps : List Part} {m : Mark} (member : m ∈ signs 0 ps) :
    ∃ plain, cutOut ps ⟨m.offset, m.offset + 1⟩ = [char m.operator.symbol plain] := by
  obtain ⟨front, back, plain, rfl, place⟩ := sign_at member
  rw [Nat.zero_add] at place
  refine ⟨plain, ?_⟩
  simp [cutOut, ← place, List.take_append]

theorem keeps_masked (k : Nat) (ps : List Part) : Keeps (maskedOffset k ps) (signs 0 ps) ps.length := by
  constructor
  · intro i j less bounded
    have := size_masked_pos (k := k + (groups (ps.take i)).length) (cutOut_ne_nil less bounded)
    have := maskedOffset_cut k ps (Nat.le_of_lt less)
    omega
  · intro q hq
    have := signs_bounds hq
    omega
  · intro q hq
    obtain ⟨plain, sign⟩ := cutOut_sign hq
    rw [maskedOffset_cut k ps (Nat.le_succ _), sign]
    simp [masked, Operator.utf8Size_symbol]

theorem keeps_join (first : Nat) (ps : List Part) : Keeps (joinOffset first ps) (signs 0 ps) ps.length := by
  constructor
  · intro i j less bounded
    have := size_join_pos (cutOut_ne_nil less bounded)
    have := joinOffset_cut first ps (Nat.le_of_lt less)
    omega
  · intro q hq
    have := signs_bounds hq
    omega
  · intro q hq
    obtain ⟨plain, sign⟩ := cutOut_sign hq
    rw [joinOffset_cut first ps (Nat.le_succ _), sign]
    simp [Operator.utf8Size_symbol]

theorem markOf_move (f : Nat → Nat) (i : Nat) (c : Char) :
    (markOf i c).map (Mark.move f) = markOf (f i) c := by
  unfold markOf
  cases Operator.ofChar? c <;> rfl

theorem marksAt_eq_nil {offset : Nat} {t : Text} (free : ∀ c ∈ t, Operator.ofChar? c = none) :
    marksAt offset t = [] := by
  induction t generalizing offset with
  | nil => rfl
  | cons c t ih =>
    rw [marksAt, markOf, free c List.mem_cons_self, ih fun d hd => free d (List.mem_cons_of_mem _ hd)]
    rfl

theorem marksAt_aliasOf (offset k : Nat) : marksAt offset (aliasOf k) = [] := by
  apply marksAt_eq_nil
  intro c hc
  rcases List.mem_cons.mp hc with rfl | digit
  · rfl
  · exact Operator.ofChar?_of_isDigit (Nat.isDigit_of_mem_toDigits (by decide) (by decide) digit)

theorem marksOf_masked (k : Nat) (ps : List Part) :
    marksOf (masked k ps) = (signs 0 ps).map (Mark.move (maskedOffset k ps)) := by
  have general : ∀ front back : List Part,
      marksAt (Text.size (masked k front)) (masked (k + (groups front).length) back) =
        (signs front.length back).map (Mark.move (maskedOffset k (front ++ back))) := by
    intro front back
    induction back generalizing front with
    | nil => rfl
    | cons p back ih =>
      have next := ih (front ++ [p])
      have whole : front ++ p :: back = front ++ [p] ++ back := by simp
      have here : maskedOffset k (front ++ [p] ++ back) front.length = Text.size (masked k front) := by
        simp [maskedOffset, List.append_assoc]
      rw [whole]
      cases p with
      | char c plain =>
        rw [masked, marksAt, signs, List.map_append, markOf_move, here]
        simpa [masked_append, masked, groups] using next
      | group inside =>
        rw [masked, marksAt_append, marksAt_aliasOf, List.nil_append, signs]
        simpa [masked_append, masked, groups, Nat.add_assoc] using next
  rw [marksOf_eq]
  exact general [] ps

theorem size_masked (k : Nat) (ps : List Part) : Text.size (masked k ps) = maskedOffset k ps ps.length := by
  rw [maskedOffset, List.take_length]

def operationAt (k : Nat) (ps : List Part) (p : Mark × Nat) : Operation :=
  let span := reach (signs 0 ps) 0 ps.length p.1
  ⟨maskedOffset k ps span.start, maskedOffset k ps span.stop - 1, p.1.operator,
    masked (k + (groups (ps.take span.start)).length) (cutOut ps span), p.2⟩

theorem slice_masked (k : Nat) (ps : List Part) {span : Span} (order : span.start ≤ span.stop) :
    Text.slice (masked k ps) (maskedOffset k ps span.start) (maskedOffset k ps span.stop) =
      masked (k + (groups (ps.take span.start)).length) (cutOut ps span) := by
  have split : masked k ps = masked k (ps.take span.start) ++
      masked (k + (groups (ps.take span.start)).length) (cutOut ps span) ++
      masked (k + (groups (ps.take span.stop)).length) (ps.drop span.stop) := by
    rw [← masked_append, ← take_cut ps order, ← masked_append, List.take_append_drop]
  rw [maskedOffset_cut k ps order, split]
  exact Text.slice_append _ _ _

theorem operationsOf_masked (k : Nat) (ps : List Part) :
    operationsOf (masked k ps) =
      (inOrder (signs 0 ps) 0 ps.length).zipIdx.map (operationAt k ps) := by
  have keeps := keeps_masked k ps
  have zero : maskedOffset k ps 0 = 0 := rfl
  rw [operationsOf_eq_bindings, Precedence.bindings_eq, marksOf_masked, size_masked]
  have order := keeps.inOrder_move (Nat.zero_le ps.length)
  rw [zero] at order
  rw [order, List.zipIdx_map, List.map_map]
  apply List.map_congr_left
  intro p hp
  have member := List.fst_mem_of_mem_zipIdx hp
  obtain ⟨hm, above, below⟩ := mem_inOrder.mp member
  have reached := keeps.reach_move (signs_ordered 0 ps) hm (Nat.le_of_lt above)
  rw [zero] at reached
  have bounds := reach_bounds member
  have extent : (reach (signs 0 ps) 0 ps.length p.1).start ≤ (reach (signs 0 ps) 0 ps.length p.1).stop := by
    omega
  have sliced := slice_masked k ps extent
  simp only [Mark.move] at reached
  simp only [Function.comp_def, Prod.map, id, Precedence.bound, size_masked, operationAt, Mark.move]
  rw [reached, sliced]

theorem operators_of_masked (k : Nat) (ps : List Part) :
    (operationsOf (masked k ps)).map Operation.operator =
      (inOrder (signs 0 ps) 0 ps.length).map Mark.operator := by
  rw [operationsOf_masked, List.map_map]
  conv => rhs; rw [← List.zipIdx_map_fst 0 (inOrder _ _ _), List.map_map]
  rfl

end Part

end EvalOrder
