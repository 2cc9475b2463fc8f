import EvalOrder.Proofs.Restoration
import EvalOrder.Proofs.Sections

/-! The operators of a level in the source. They are the ones between its parentheses and outside of all
deeper ones, and these are the operators among the parts of its site. So the steps of a level, read off
the source, are the texts of consecutive parts. -/
namespace EvalOrder

open EvalOrder.Part Site

namespace Site

theorem at_finished (sites : List Site) (s : Site) : s.At (s.finished sites) := ⟨rfl, rfl, rfl⟩

theorem mem_row_or_deeper {n : Nat} {row : List Site} {d : Site} (member : d ∈ rows n row) :
    d ∈ row ∨ 0 < d.first ∧ 0 < d.height := by
  induction n generalizing row with
  | zero => cases member
  | succ n ih =>
    rcases List.mem_append.mp member with deeper | here
    · rcases ih deeper with child | found
      · obtain ⟨s, _, hc⟩ := List.mem_flatMap.mp child
        have := children_bounds hc
        exact .inr ⟨by omega, by omega⟩
      · exact .inr found
    · exact .inl here

theorem eq_root_or_deeper {ps : List Part} {d : Site} (member : d ∈ all ps) :
    d = root ps ∨ 0 < d.first ∧ 0 < d.height :=
  (mem_row_or_deeper member).imp_left List.mem_singleton.mp

theorem interior_eq {ps : List Part} {s : Site} (member : s ∈ all ps) {l : Level} (here : s.At l) :
    l.interior = ⟨s.first, s.last⟩ := by
  rw [Level.interior, here.start, here.stop, here.height]
  rcases eq_root_or_deeper member with rfl | deeper
  · rfl
  · rw [if_neg (by omega), Nat.sub_add_cancel deeper.1]

def shows (sites : List Site) (s : Site) (q : Nat) : Bool :=
  sites.all fun d => !(s.height < d.height && d.first - 1 < q && q < d.last)

theorem children_split {s : Site} {front back : List Part} (split : s.inside = front ++ back) :
    s.children = among s.first (s.height + 1) front ++
      among (s.first + Text.size (join front)) (s.height + 1) back := by
  rw [children, split, among_append]

theorem shows_char {ps : List Part} {s : Site} (member : s ∈ all ps) {front back : List Part} {c : Char}
    {plain : isParenthesis c = false} (split : s.inside = front ++ char c plain :: back) :
    shows (all ps) s (s.first + Text.size (join front)) = true := by
  have width := c.utf8Size_pos
  have last : s.last = s.first + Text.size (join front) + c.utf8Size + Text.size (join back) := by
    simp only [Site.last, split, join_append, join_cons, text_char, Text.size_append, Text.size_cons,
      Text.size_nil]
    omega
  refine List.all_eq_true.mpr fun d hd => ?_
  simp only [Bool.not_eq_true', Bool.and_eq_false_imp, Bool.and_eq_true, decide_eq_true_eq,
    decide_eq_false_iff_not]
  rintro ⟨deeper, after⟩
  have := first_le_last d
  rcases in_child_or_beside (isRow_root ps) member hd deeper with ⟨child, hc, left, right⟩ | beside | beside
  · rw [children_split split] at hc
    rcases List.mem_append.mp hc with before | behind
    · have := among_bounds before
      omega
    · change child ∈ among (s.first + Text.size (join front) + c.utf8Size) (s.height + 1) back at behind
      have := among_bounds behind
      omega
  · omega
  · omega

theorem hides_group {ps : List Part} {s : Site} (member : s ∈ all ps) {front back inside : List Part}
    (split : s.inside = front ++ group inside :: back) {q : Nat}
    (after : s.first + Text.size (join front) < q)
    (before : q < s.first + Text.size (join front) + 1 + Text.size (join inside)) :
    shows (all ps) s q = false := by
  have child : ⟨s.first + Text.size (join front) + 1, s.height + 1, inside⟩ ∈ s.children := by
    rw [children_split split]
    exact List.mem_append_right _ List.mem_cons_self
  refine List.all_eq_false.mpr ⟨_, mem_all_of_mem_children member child, ?_⟩
  simp only [Bool.not_eq_true, Bool.not_eq_false', Bool.and_eq_true, decide_eq_true_eq]
  exact ⟨⟨Nat.lt_succ_self _, after⟩, before⟩

theorem marksAt_group (offset : Nat) (inside : List Part) :
    marksAt offset (group inside).text = marksAt (offset + 1) (join inside) := by
  have closing : ∀ n, marksAt n [')'] = [] := fun _ => rfl
  rw [text_group, marksAt, marksAt_append, closing, List.append_nil]
  rfl

theorem joinOffset_front {s : Site} {front back : List Part} (split : s.inside = front ++ back) :
    joinOffset s.first s.inside front.length = s.first + Text.size (join front) := by
  rw [joinOffset, split, List.take_left]

theorem filter_shows {ps : List Part} {s : Site} (member : s ∈ all ps) (front back : List Part)
    (split : s.inside = front ++ back) :
    (marksAt (s.first + Text.size (join front)) (join back)).filter
        (fun m => shows (all ps) s m.offset) =
      (signs front.length back).map (Mark.move (joinOffset s.first s.inside)) := by
  induction back generalizing front with
  | nil => rfl
  | cons p back ih =>
    have next := ih (front ++ [p]) (by rw [split, List.append_assoc]; rfl)
    rw [join_append, join_cons, join_nil, List.append_nil, Text.size_append, ← Nat.add_assoc,
      List.length_append, List.length_singleton] at next
    rw [join_cons, marksAt_append, List.filter_append, next]
    cases p with
    | char c plain =>
      have here : (marksAt (s.first + Text.size (join front)) (char c plain).text) =
          markOf (s.first + Text.size (join front)) c := List.append_nil _
      have kept : (markOf (s.first + Text.size (join front)) c).filter
          (fun m => shows (all ps) s m.offset) = markOf (s.first + Text.size (join front)) c := by
        refine List.filter_eq_self.mpr fun m hm => ?_
        rw [mem_markOf hm]
        exact shows_char member split
      rw [signs, List.map_append, markOf_move, joinOffset_front split, here, kept]
    | group inside =>
      have hidden : (marksAt (s.first + Text.size (join front)) (group inside).text).filter
          (fun m => shows (all ps) s m.offset) = [] := by
        rw [marksAt_group]
        refine List.filter_eq_nil_iff.mpr fun m hm => ?_
        have bounds := marksAt_bounds hm
        rw [hides_group member split (by omega) (by omega)]
        exact Bool.false_ne_true
      rw [hidden, signs, List.nil_append]

theorem ownMarks_eq {ps : List Part} {view : Site → Level} (placed : ∀ s : Site, s.At (view s)) {s : Site}
    (member : s ∈ all ps) :
    (view s).ownMarks (join ps) ((all ps).map view) =
      (signs 0 s.inside).map (Mark.move (joinOffset s.first s.inside)) := by
  obtain ⟨before, after, source, start⟩ := in_of_mem_all member
  have owns : ∀ m : Mark, ((view s).interior.start ≤ m.offset && m.offset < (view s).interior.stop &&
      ((all ps).map view).all fun other =>
        !((view s).height < other.height && other.start < m.offset && m.offset < other.stop)) =
      (decide (s.first ≤ m.offset) && decide (m.offset < s.last) && shows (all ps) s m.offset) := by
    intro m
    rw [interior_eq member (placed s), (placed s).height, List.all_map, shows]
    congr 2
    funext d
    rw [Function.comp_apply, (placed d).start, (placed d).stop, (placed d).height]
  have left : (marksAt 0 before).filter (fun m =>
      decide (s.first ≤ m.offset) && decide (m.offset < s.last) && shows (all ps) s m.offset) = [] := by
    refine List.filter_eq_nil_iff.mpr fun m hm => ?_
    have := marksAt_bounds hm
    simp only [Bool.and_eq_true, decide_eq_true_eq]
    omega
  have right : (marksAt s.last after).filter (fun m =>
      decide (s.first ≤ m.offset) && decide (m.offset < s.last) && shows (all ps) s m.offset) = [] := by
    refine List.filter_eq_nil_iff.mpr fun m hm => ?_
    have := marksAt_bounds hm
    simp only [Bool.and_eq_true, decide_eq_true_eq]
    omega
  have middle : (marksAt s.first (join s.inside)).filter (fun m =>
      decide (s.first ≤ m.offset) && decide (m.offset < s.last) && shows (all ps) s m.offset) =
      (marksAt s.first (join s.inside)).filter fun m => shows (all ps) s m.offset := by
    refine List.filter_congr fun m hm => ?_
    have bounds := marksAt_bounds hm
    rw [decide_eq_true bounds.1, decide_eq_true (p := m.offset < s.last) bounds.2]
    rfl
  rw [Level.ownMarks, List.filter_congr fun m _ => owns m, marksOf_eq, source, marksAt_append, marksAt_append,
    List.filter_append, List.filter_append, Nat.zero_add, Text.size_append, start, left, middle]
  rw [show 0 + (s.first + Text.size (join s.inside)) = s.last from Nat.zero_add _, right, List.append_nil,
    List.nil_append]
  exact filter_shows member [] s.inside rfl

theorem slice_join {source : Text} {s : Site} (here : s.In source) {span : Span}
    (order : span.start ≤ span.stop) :
    Text.slice source (joinOffset s.first s.inside span.start) (joinOffset s.first s.inside span.stop) =
      join (cutOut s.inside span) := by
  obtain ⟨before, after, rfl, start⟩ := here
  have split : before ++ join s.inside ++ after = before ++ join (s.inside.take span.start) ++
      join (cutOut s.inside span) ++ (join (s.inside.drop span.stop) ++ after) := by
    conv => lhs; rw [cutOut_split s.inside order]
    simp only [join_append, List.append_assoc]
  rw [joinOffset_cut s.first s.inside order, split]
  have front : joinOffset s.first s.inside span.start =
      Text.size (before ++ join (s.inside.take span.start)) := by
    rw [Text.size_append, start, joinOffset]
  rw [front]
  exact Text.slice_append _ _ _

theorem last_eq_joinOffset (s : Site) : s.last = joinOffset s.first s.inside s.inside.length := by
  rw [joinOffset, List.take_length, Site.last]

theorem inOrder_own (s : Site) :
    inOrder ((signs 0 s.inside).map (Mark.move (joinOffset s.first s.inside))) s.first s.last =
      (inOrder (signs 0 s.inside) 0 s.inside.length).map (Mark.move (joinOffset s.first s.inside)) := by
  rw [last_eq_joinOffset]
  exact (keeps_join s.first s.inside).inOrder_move (Nat.zero_le _)

theorem reach_own {s : Site} {m : Mark} (member : m ∈ inOrder (signs 0 s.inside) 0 s.inside.length) :
    reach ((signs 0 s.inside).map (Mark.move (joinOffset s.first s.inside))) s.first s.last
        (m.move (joinOffset s.first s.inside)) =
      ⟨joinOffset s.first s.inside (reach (signs 0 s.inside) 0 s.inside.length m).start,
        joinOffset s.first s.inside (reach (signs 0 s.inside) 0 s.inside.length m).stop⟩ := by
  obtain ⟨hm, above, _⟩ := mem_inOrder.mp member
  rw [last_eq_joinOffset]
  exact (keeps_join s.first s.inside).reach_move (signs_ordered 0 s.inside) hm (Nat.le_of_lt above)

def steps (s : Site) : List Text :=
  (spans s.inside).map fun span => join (cutOut s.inside span)

theorem directSteps_eq {ps : List Part} {view : Site → Level} (placed : ∀ s : Site, s.At (view s)) {s : Site}
    (member : s ∈ all ps) :
    (view s).directSteps (join ps) ((all ps).map view) = s.steps := by
  rw [Level.directSteps, ownMarks_eq placed member, interior_eq member (placed s)]
  simp only
  rw [inOrder_own, steps, spans, List.map_map, List.map_map]
  apply List.map_congr_left
  intro m hm
  have bounds := reach_bounds hm
  simp only [Function.comp_apply, reach_own hm]
  exact slice_join (in_of_mem_all member) (by omega)

end Site

end EvalOrder
