import EvalOrder.Proofs.Reach

/-! Splitting is precedence. The operations are made by looking at those made before; still the operation of
an operator covers what the tiers alone give it. The operand to one side of `m` is decided by the operators
between `m` and its wall on that side: they were all taken before, and the one taken last covers them all. -/
namespace EvalOrder

theorem getLast?_filter_of_imp {α : Type} {l : List α} {p q : α → Bool} {x : α}
    (last : (l.filter p).getLast? = some x) (hit : q x = true) (fewer : ∀ y ∈ l, q y = true → p y = true) :
    (l.filter q).getLast? = some x := by
  rw [List.getLast?_filter] at last ⊢
  obtain ⟨_, front, back, split, missed⟩ := List.find?_eq_some_iff_append.mp last
  refine List.find?_eq_some_iff_append.mpr ⟨hit, front, back, split, ?_⟩
  intro y hy
  have member : y ∈ l := by
    rw [← List.mem_reverse, split]
    exact List.mem_append_left _ hy
  have := missed y hy
  cases found : q y with
  | false => rfl
  | true => simp [fewer y member found] at this

theorem earlier_of_getLast?_filter {l : List Mark} {p : Mark → Bool} {x y : Mark}
    (sorted : l.Pairwise Mark.Earlier) (last : (l.filter p).getLast? = some x)
    (member : y ∈ l) (hit : p y = true) : y = x ∨ y.Earlier x := by
  obtain ⟨front, split⟩ := List.getLast?_eq_some_iff.mp last
  have among : y ∈ front ++ [x] := by
    rw [← split]
    exact List.mem_filter.mpr ⟨member, hit⟩
  have order : (front ++ [x]).Pairwise Mark.Earlier := by
    rw [← split]
    exact sorted.filter p
  rcases List.mem_append.mp among with early | here
  · exact .inr ((List.pairwise_append.mp order).2.2 y early x (List.mem_singleton_self x))
  · exact .inl (List.mem_singleton.mp here)

namespace Precedence

/-- The operators taken before `m` in a text of `size` bytes, in the order of taking. -/
structure Before (marks : List Mark) (size : Nat) (m : Mark) (done : List Mark) : Prop where
  mem : ∀ q, q ∈ done ↔ q ∈ marks ∧ 0 < q.offset ∧ q.offset + 1 < size ∧ q.Earlier m
  sorted : done.Pairwise Mark.Earlier

theorem before_of_inOrder {marks done rest : List Mark} {size : Nat} {m : Mark} (ordered : Ordered marks)
    (split : inOrder marks 0 size = done ++ m :: rest) : Before marks size m done := by
  have sorted := inOrder_earlier ordered 0 size
  rw [split] at sorted
  obtain ⟨front, back, across⟩ := List.pairwise_append.mp sorted
  refine ⟨?_, front⟩
  intro q
  have members : q ∈ inOrder marks 0 size ↔ q ∈ marks ∧ 0 < q.offset ∧ q.offset + 1 < size := mem_inOrder
  rw [split, List.mem_append, List.mem_cons] at members
  constructor
  · intro hq
    obtain ⟨inside, above, below⟩ := members.mp (.inl hq)
    exact ⟨inside, above, below, across q hq m List.mem_cons_self⟩
  · rintro ⟨inside, above, below, earlier⟩
    rcases members.mpr ⟨inside, above, below⟩ with hq | rfl | late
    · exact hq
    · exact absurd earlier earlier.asymm
    · exact absurd ((List.pairwise_cons.mp back).1 q late) earlier.asymm

section Sides

variable {marks done : List Mark} {size : Nat} {m : Mark}

def onLeft (span : Span) (m q : Mark) : Bool :=
  span.start ≤ q.offset && 0 < q.offset && q.offset < m.offset

def onRight (span : Span) (m q : Mark) : Bool :=
  m.offset < q.offset && q.offset < span.stop

theorem onLeft_iff {span : Span} {q : Mark} :
    onLeft span m q = true ↔ span.start ≤ q.offset ∧ 0 < q.offset ∧ q.offset < m.offset := by
  simp only [onLeft, Bool.and_eq_true, decide_eq_true_eq, and_assoc]

theorem onRight_iff {span : Span} {q : Mark} :
    onRight span m q = true ↔ m.offset < q.offset ∧ q.offset < span.stop := by
  simp only [onRight, Bool.and_eq_true, decide_eq_true_eq]

variable {span : Span}

theorem mem_done_of_onLeft (before : Before marks size m done) (reaches : Reaches marks 0 size m span)
    (inner : m.offset + 1 < size) {q : Mark} (hq : q ∈ marks) (left : onLeft span m q = true) :
    q ∈ done := by
  obtain ⟨from_start, above, below⟩ := onLeft_iff.mp left
  have lower := reaches.left_free q hq from_start above below
  refine (before.mem q).mpr ⟨hq, above, by omega, ?_⟩
  unfold Mark.Earlier
  omega

theorem mem_done_of_onRight (before : Before marks size m done) (reaches : Reaches marks 0 size m span)
    {q : Mark} (hq : q ∈ marks) (bounded : q.offset < size) (right : onRight span m q = true) :
    q ∈ done := by
  obtain ⟨above, below⟩ := onRight_iff.mp right
  have free := reaches.right_free q hq above below bounded
  unfold Mark.Stops at free
  refine (before.mem q).mpr ⟨hq, by omega, by omega, ?_⟩
  unfold Mark.Earlier
  omega

theorem Before.mem_inOrder (before : Before marks size m done) {q : Mark} (hq : q ∈ done) :
    q ∈ inOrder marks 0 size ∧ q.Earlier m := by
  obtain ⟨inside, above, below, earlier⟩ := (before.mem q).mp hq
  exact ⟨EvalOrder.mem_inOrder.mpr ⟨inside, above, below⟩, earlier⟩

theorem onLeft_of_stop (before : Before marks size m done) (reaches : Reaches marks 0 size m span)
    (ordered : Ordered marks) (hm : m ∈ inOrder marks 0 size) {q : Mark} (hq : q ∈ done) {other : Span}
    (others : Reaches marks 0 size q other) (stop : other.stop = m.offset) : onLeft span m q = true := by
  obtain ⟨taken, earlier⟩ := before.mem_inOrder hq
  have place := others.in_operand_or_apart ordered taken hm earlier reaches
  have own := reaches.around hm
  have its_own := others.around taken
  exact onLeft_iff.mpr ⟨by omega, (EvalOrder.mem_inOrder.mp taken).2.1, by omega⟩

theorem onRight_of_start (before : Before marks size m done) (reaches : Reaches marks 0 size m span)
    (ordered : Ordered marks) (hm : m ∈ inOrder marks 0 size) {q : Mark} (hq : q ∈ done) {other : Span}
    (others : Reaches marks 0 size q other) (start : other.start = m.offset + 1) :
    onRight span m q = true := by
  obtain ⟨taken, earlier⟩ := before.mem_inOrder hq
  have place := others.in_operand_or_apart ordered taken hm earlier reaches
  have own := reaches.around hm
  have its_own := others.around taken
  exact onRight_iff.mpr ⟨by omega, by omega⟩

/-- The operator of the left operand that was taken last reaches over all of that operand. -/
theorem reaches_of_last_onLeft (before : Before marks size m done) (reaches : Reaches marks 0 size m span)
    (inner : m.offset + 1 < size) {x : Mark} (hm : m ∈ marks)
    (last : (done.filter (onLeft span m)).getLast? = some x) :
    Reaches marks 0 size x ⟨span.start, m.offset⟩ := by
  have found := List.mem_filter.mp (List.mem_of_getLast? last)
  obtain ⟨x_start, x_above, x_left⟩ := onLeft_iff.mp found.2
  have lower := reaches.left_free x ((before.mem x).mp found.1).1 x_start x_above x_left
  have latest : ∀ q ∈ marks, onLeft span m q = true → q = x ∨ q.Earlier x := fun q hq left =>
    earlier_of_getLast?_filter before.sorted last (mem_done_of_onLeft before reaches inner hq left) left
  constructor
  · rcases reaches.start_at with start | ⟨w, hw, wall_above, wall_left, higher, start⟩
    · exact .inl start
    · exact .inr ⟨w, hw, wall_above, by omega, by omega, start⟩
  · intro q hq from_start above left
    simp only at from_start
    rcases latest q hq (onLeft_iff.mpr ⟨from_start, above, by omega⟩) with rfl | earlier
    · exact Nat.le_refl _
    · unfold Mark.Earlier at earlier
      omega
  · exact .inr ⟨m, hm, x_left, by omega, .inl lower, rfl⟩
  · intro q hq right left _
    simp only at left
    unfold Mark.Stops
    rcases latest q hq (onLeft_iff.mpr ⟨by omega, by omega, left⟩) with rfl | earlier
    · omega
    · unfold Mark.Earlier at earlier
      omega

theorem reaches_of_last_onRight (before : Before marks size m done) (reaches : Reaches marks 0 size m span)
    (bounded : ∀ q ∈ marks, q.offset < size) (inner : 0 < m.offset) {x : Mark} (hm : m ∈ marks)
    (last : (done.filter (onRight span m)).getLast? = some x) :
    Reaches marks 0 size x ⟨m.offset + 1, span.stop⟩ := by
  have found := List.mem_filter.mp (List.mem_of_getLast? last)
  obtain ⟨x_right, x_below⟩ := onRight_iff.mp found.2
  have hx := ((before.mem x).mp found.1).1
  have lower := reaches.right_free x hx x_right x_below (bounded x hx)
  unfold Mark.Stops at lower
  have latest : ∀ q ∈ marks, onRight span m q = true → q = x ∨ q.Earlier x := fun q hq right =>
    earlier_of_getLast?_filter before.sorted last
      (mem_done_of_onRight before reaches hq (bounded q hq) right) right
  constructor
  · exact .inr ⟨m, hm, inner, x_right, by omega, rfl⟩
  · intro q hq from_start _ left
    simp only at from_start
    rcases latest q hq (onRight_iff.mpr ⟨by omega, by omega⟩) with rfl | earlier
    · exact Nat.le_refl _
    · unfold Mark.Earlier at earlier
      omega
  · rcases reaches.stop_at with stop | ⟨w, hw, wall_right, wall_below, stops, stop⟩
    · exact .inl stop
    · unfold Mark.Stops at stops
      exact .inr ⟨w, hw, by omega, wall_below, by unfold Mark.Stops; omega, stop⟩
  · intro q hq right left below
    simp only at left
    have free := reaches.right_free q hq (by omega) left below
    unfold Mark.Stops at free ⊢
    rcases latest q hq (onRight_iff.mpr ⟨by omega, left⟩) with rfl | earlier
    · omega
    · unfold Mark.Earlier at earlier
      omega

def isBefore (offset : Nat) (q : Mark) : Bool :=
  1 ≤ q.offset && q.offset < offset

theorem isBefore_iff {offset : Nat} {q : Mark} :
    isBefore offset q = true ↔ 0 < q.offset ∧ q.offset < offset := by
  simp only [isBefore, Bool.and_eq_true, decide_eq_true_eq]
  exact Iff.rfl

theorem leftEdge_eq (marks : List Mark) (offset : Nat) :
    leftEdge marks offset = ((marks.filter (isBefore offset)).getLast?.map (·.offset + 1)).getD 0 := rfl

theorem leftEdge_of_free (reaches : Reaches marks 0 size m span) (ordered : Ordered marks)
    (free : ∀ q ∈ marks, onLeft span m q = false) : leftEdge marks m.offset = span.start := by
  have outside : ∀ q ∈ marks, 0 < q.offset → q.offset < m.offset → q.offset < span.start := by
    intro q hq above left
    apply Nat.lt_of_not_ge
    intro from_start
    have := onLeft_iff.mpr ⟨from_start, above, left⟩
    rw [free q hq] at this
    cases this
  have sorted := ordered.filter (isBefore m.offset)
  rw [leftEdge_eq]
  cases last : (marks.filter (isBefore m.offset)).getLast? with
  | none =>
    rcases reaches.start_at with start | ⟨w, hw, wall_above, wall_left, _, _⟩
    · exact start.symm
    · have member : w ∈ marks.filter (isBefore m.offset) :=
        List.mem_filter.mpr ⟨hw, isBefore_iff.mpr ⟨wall_above, wall_left⟩⟩
      rw [List.getLast?_eq_none_iff.mp last] at member
      cases member
  | some v =>
    have found := List.mem_filter.mp (List.mem_of_getLast? last)
    obtain ⟨above, left⟩ := isBefore_iff.mp found.2
    have short := outside v found.1 above left
    simp only [Option.map_some, Option.getD_some]
    rcases reaches.start_at with start | ⟨w, hw, wall_above, wall_left, _, start⟩
    · omega
    · have := sorted.le_getLast last
        (List.mem_filter.mpr ⟨hw, isBefore_iff.mpr ⟨wall_above, wall_left⟩⟩)
      omega

theorem rightEdge_of_free (reaches : Reaches marks 0 size m span) (ordered : Ordered marks)
    (bounded : ∀ q ∈ marks, q.offset < size) (free : ∀ q ∈ marks, onRight span m q = false) :
    rightEdge marks size m.offset = span.stop - 1 := by
  have outside : ∀ q ∈ marks, m.offset < q.offset → span.stop ≤ q.offset := by
    intro q hq right
    apply Nat.le_of_not_gt
    intro left
    have := onRight_iff.mpr ⟨right, left⟩
    rw [free q hq] at this
    cases this
  unfold rightEdge
  cases first : marks.find? (fun q => decide (m.offset < q.offset)) with
  | none =>
    rcases reaches.stop_at with stop | ⟨w, hw, wall_right, _, _, _⟩
    · rw [stop]
      rfl
    · exact absurd (decide_eq_true wall_right) (List.find?_eq_none.mp first w hw)
  | some v =>
    have hv := List.mem_of_find?_eq_some first
    have right : m.offset < v.offset :=
      of_decide_eq_true (List.find?_some (p := fun q : Mark => decide (m.offset < q.offset)) first)
    have beyond := outside v hv right
    have inside := bounded v hv
    simp only [Option.map_some, Option.getD_some]
    rcases reaches.stop_at with stop | ⟨w, hw, wall_right, _, _, stop⟩
    · omega
    · have := ordered.le_of_find? first hw (decide_eq_true wall_right)
      have : v.offset = w.offset := by omega
      omega

end Sides

def bound (t : Text) (marks : List Mark) (p : Mark × Nat) : Operation :=
  let span := reach marks 0 (Text.size t) p.1
  ⟨span.start, span.stop - 1, p.1.operator, Text.slice t span.start span.stop, p.2⟩

theorem bindings_eq (t : Text) :
    bindings t = (inOrder (marksOf t) 0 (Text.size t)).zipIdx.map (bound t (marksOf t)) := rfl

theorem getLast?_filter_bound {α : Type} (t : Text) (marks done : List Mark) (p : Operation → Bool)
    (f : Operation → α) (hit : Mark → Bool) (value : Mark → α)
    (hits : ∀ q k, q ∈ done → p (bound t marks (q, k)) = hit q)
    (values : ∀ q k, f (bound t marks (q, k)) = value q) :
    (((done.zipIdx.map (bound t marks)).filter p).getLast?).map f =
      ((done.filter hit).getLast?).map value := by
  have members : ∀ x ∈ done.zipIdx, (p ∘ bound t marks) x = (hit ∘ Prod.fst) x := fun x hx =>
    hits x.1 x.2 (List.fst_mem_of_mem_zipIdx hx)
  have shapes : f ∘ bound t marks = value ∘ Prod.fst := funext fun x => values x.1 x.2
  rw [← List.getLast?_map, ← List.getLast?_map, List.filter_map, List.map_map,
    List.filter_congr members, shapes, ← List.map_map, ← List.filter_map, List.zipIdx_map_fst]

section Make

variable {t : Text} {marks done : List Mark} {m : Mark}

theorem start_of_made (ordered : Ordered marks) (before : Before marks (Text.size t) m done)
    (member : m ∈ inOrder marks 0 (Text.size t)) :
    ((endingBefore? (done.zipIdx.map (bound t marks)) m.offset).map Operation.start).getD
      (leftEdge marks m.offset) = (reach marks 0 (Text.size t) m).start := by
  obtain ⟨hm, _, inner⟩ := EvalOrder.mem_inOrder.mp member
  have reaches := reach_reaches ordered 0 (Text.size t) m
  have found := getLast?_filter_bound t marks done (fun o => o.stop + 1 == m.offset) Operation.start
    (fun q => (reach marks 0 (Text.size t) q).stop == m.offset)
    (fun q => (reach marks 0 (Text.size t) q).start)
    (fun q k hq => by
      have := (reach_reaches ordered 0 (Text.size t) q).lt_stop
        (by have := ((before.mem q).mp hq).2.2.1; omega)
      simp only [bound, Nat.sub_add_cancel (Nat.lt_of_le_of_lt (Nat.zero_le _) this)])
    (fun q k => rfl)
  rw [endingBefore?, found]
  have stopping : ∀ q ∈ done, ((reach marks 0 (Text.size t) q).stop == m.offset) = true →
      onLeft (reach marks 0 (Text.size t) m) m q = true := fun q hq stop =>
    onLeft_of_stop before reaches ordered member hq (reach_reaches ordered 0 (Text.size t) q)
      (beq_iff_eq.mp stop)
  cases last : (done.filter (onLeft (reach marks 0 (Text.size t) m) m)).getLast? with
  | none =>
    have none_left := List.filter_eq_nil_iff.mp (List.getLast?_eq_none_iff.mp last)
    have none_stops : done.filter (fun q => (reach marks 0 (Text.size t) q).stop == m.offset) = [] :=
      List.filter_eq_nil_iff.mpr fun q hq stop => none_left q hq (stopping q hq stop)
    rw [none_stops]
    apply leftEdge_of_free reaches ordered
    intro q hq
    apply Bool.eq_false_iff.mpr
    intro left
    exact none_left q (mem_done_of_onLeft before reaches inner hq left) left
  | some x =>
    have covers := reach_eq_of_reaches ordered (reaches_of_last_onLeft before reaches inner hm last)
    have hit : ((reach marks 0 (Text.size t) x).stop == m.offset) = true := by
      rw [covers]
      exact beq_self_eq_true _
    rw [getLast?_filter_of_imp last hit stopping]
    simp only [Option.map_some, Option.getD_some, covers]

theorem stop_of_made (ordered : Ordered marks) (bounded : ∀ q ∈ marks, q.offset < Text.size t)
    (before : Before marks (Text.size t) m done) (member : m ∈ inOrder marks 0 (Text.size t)) :
    ((startingAfter? (done.zipIdx.map (bound t marks)) m.offset).map Operation.stop).getD
      (rightEdge marks (Text.size t) m.offset) = (reach marks 0 (Text.size t) m).stop - 1 := by
  obtain ⟨hm, inner, _⟩ := EvalOrder.mem_inOrder.mp member
  have reaches := reach_reaches ordered 0 (Text.size t) m
  have found := getLast?_filter_bound t marks done (fun o => o.start == m.offset + 1) Operation.stop
    (fun q => (reach marks 0 (Text.size t) q).start == m.offset + 1)
    (fun q => (reach marks 0 (Text.size t) q).stop - 1) (fun q k _ => rfl) (fun q k => rfl)
  rw [startingAfter?, found]
  have starting : ∀ q ∈ done, ((reach marks 0 (Text.size t) q).start == m.offset + 1) = true →
      onRight (reach marks 0 (Text.size t) m) m q = true := fun q hq start =>
    onRight_of_start before reaches ordered member hq (reach_reaches ordered 0 (Text.size t) q)
      (beq_iff_eq.mp start)
  cases last : (done.filter (onRight (reach marks 0 (Text.size t) m) m)).getLast? with
  | none =>
    have none_right := List.filter_eq_nil_iff.mp (List.getLast?_eq_none_iff.mp last)
    have none_starts : done.filter (fun q => (reach marks 0 (Text.size t) q).start == m.offset + 1) = [] :=
      List.filter_eq_nil_iff.mpr fun q hq start => none_right q hq (starting q hq start)
    rw [none_starts]
    apply rightEdge_of_free reaches ordered bounded
    intro q hq
    apply Bool.eq_false_iff.mpr
    intro right
    exact none_right q (mem_done_of_onRight before reaches hq (bounded q hq) right) right
  | some x =>
    have covers := reach_eq_of_reaches ordered (reaches_of_last_onRight before reaches bounded inner hm last)
    have hit : ((reach marks 0 (Text.size t) x).start == m.offset + 1) = true := by
      rw [covers]
      exact beq_self_eq_true _
    rw [getLast?_filter_of_imp last hit starting]
    simp only [Option.map_some, Option.getD_some, covers]

end Make

/-- One step: the operation made next is the one the tiers give. -/
theorem make_eq_bound {t : Text} {marks done rest : List Mark} {m : Mark} (ordered : Ordered marks)
    (bounded : ∀ q ∈ marks, q.offset < Text.size t)
    (split : inOrder marks 0 (Text.size t) = done ++ m :: rest) :
    make t marks (done.zipIdx.map (bound t marks)) m = bound t marks (m, done.length) := by
  have before := before_of_inOrder ordered split
  have member : m ∈ inOrder marks 0 (Text.size t) := by
    rw [split]
    exact List.mem_append_right _ List.mem_cons_self
  obtain ⟨_, _, below⟩ := mem_inOrder.mp member
  have ends := (reach_reaches ordered 0 (Text.size t) m).lt_stop (by omega)
  simp only [make, start_of_made ordered before member, stop_of_made ordered bounded before member,
    bound, List.length_map, List.length_zipIdx, Nat.sub_add_cancel (Nat.lt_of_le_of_lt (Nat.zero_le _) ends)]

/-- The run: whatever has been taken, and whatever is still to come, the operations made are those the
tiers give. -/
theorem run_eq {t : Text} {marks : List Mark} (ordered : Ordered marks)
    (bounded : ∀ q ∈ marks, q.offset < Text.size t) (done now later : List Mark)
    (split : inOrder marks 0 (Text.size t) = done ++ (now ++ later)) :
    now.foldl (fun made m => made ++ [make t marks made m]) (done.zipIdx.map (bound t marks)) =
      (done ++ now).zipIdx.map (bound t marks) := by
  induction now generalizing done with
  | nil => simp only [List.foldl_nil, List.append_nil]
  | cons m now ih =>
    have grown : done.zipIdx.map (bound t marks) ++ [bound t marks (m, done.length)] =
        (done ++ [m]).zipIdx.map (bound t marks) := by
      simp [List.zipIdx_append]
    rw [List.foldl_cons, make_eq_bound ordered bounded split, grown, ih (done ++ [m]) (by simp [split]),
      List.append_assoc, List.singleton_append]

theorem visits_eq (t : Text) (marks : List Mark) : visits t marks = inOrder marks 0 (Text.size t) := rfl

theorem run_of_visits {t : Text} {taken later : List Mark} (split : visits t (marksOf t) = taken ++ later) :
    run t (marksOf t) taken = taken.zipIdx.map (bound t (marksOf t)) :=
  run_eq (ordered_marksOf t) (fun _ => lt_size_of_mem) [] taken later split

end Precedence

/-- Splitting a text gives the operations of its precedence tree. -/
theorem operationsOf_eq_bindings (t : Text) : operationsOf t = bindings t :=
  Precedence.run_of_visits (List.append_nil _).symm

end EvalOrder
