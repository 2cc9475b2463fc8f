import EvalOrder.Proofs.Interior

/-! Going down into a level. The sites that stand within consecutive parts of a level are, in their order,
the sites below the same parts taken as a source of their own, all moved by the same bytes and heights.
Sites of other branches stand between them in no row. -/
namespace EvalOrder

open EvalOrder.Part

namespace Site

def between (lo hi : Nat) (d : Site) : Bool :=
  lo < d.first && d.last < hi

theorem between_iff {lo hi : Nat} {d : Site} : between lo hi d = true ↔ lo < d.first ∧ d.last < hi := by
  simp only [between, Bool.and_eq_true, decide_eq_true_eq]

def moved (k h : Nat) (d : Site) : Site :=
  ⟨d.first + k, d.height + h, d.inside⟩

def below (ps : List Part) : List Site :=
  rows (depthOf ps) (root ps).children

theorem all_eq (ps : List Part) : all ps = below ps ++ [root ps] := by
  rw [all, rows, List.flatMap_singleton]
  rfl

theorem among_moved (first height k h : Nat) (ps : List Part) :
    (among first height ps).map (moved k h) = among (first + k) (height + h) ps := by
  induction ps generalizing first with
  | nil => rfl
  | cons p ps ih =>
    cases p with
    | char c plain =>
      rw [among, ih, among, Nat.add_right_comm]
    | group inside =>
      rw [among, List.map_cons, ih, among, Nat.add_right_comm first]
      congr 1
      rw [moved, Nat.add_right_comm]

theorem children_moved (k h : Nat) (d : Site) : (d.moved k h).children = d.children.map (moved k h) := by
  rw [children, children, among_moved, Nat.add_right_comm d.height]
  rfl

theorem rows_moved (n k h : Nat) (row : List Site) :
    (rows n row).map (moved k h) = rows n (row.map (moved k h)) := by
  induction n generalizing row with
  | zero => rfl
  | succ n ih =>
    have next : (row.flatMap children).map (moved k h) = (row.map (moved k h)).flatMap children := by
      rw [List.map_flatMap, List.flatMap_map]
      congr 1
      funext d
      exact (children_moved k h d).symm
    rw [rows, List.map_append, ih, next]
    rfl

theorem rows_eq_of_shallow {n m : Nat} {row : List Site} (h : Shallow n row) (h' : Shallow m row) :
    rows n row = rows m row := by
  induction n generalizing m row with
  | zero =>
    rw [h.eq_nil, rows_nil, rows_nil]
  | succ n ih =>
    cases m with
    | zero => rw [h'.eq_nil, rows_nil, rows_nil]
    | succ m => rw [rows, rows, ih h.next h'.next]

theorem shallow_among (first height : Nat) (ps : List Part) : Shallow (depthOf ps) (among first height ps) :=
  fun _ hc => depthOf_lt_of_mem_groups (among_bounds hc).2.2.2

theorem filter_rows_between {n lo hi : Nat} {left middle right : List Site}
    (before : ∀ c ∈ left, c.last < lo) (within : ∀ c ∈ middle, lo < c.first ∧ c.last < hi)
    (after : ∀ c ∈ right, hi < c.first) :
    (rows n (left ++ middle ++ right)).filter (between lo hi) = rows n middle := by
  induction n generalizing left middle right with
  | zero => rfl
  | succ n ih =>
    have before' : ∀ c ∈ left.flatMap children, c.last < lo := by
      intro c hc
      obtain ⟨s, hs, hc⟩ := List.mem_flatMap.mp hc
      have := before s hs
      have := children_bounds hc
      omega
    have within' : ∀ c ∈ middle.flatMap children, lo < c.first ∧ c.last < hi := by
      intro c hc
      obtain ⟨s, hs, hc⟩ := List.mem_flatMap.mp hc
      have := within s hs
      have := children_bounds hc
      omega
    have after' : ∀ c ∈ right.flatMap children, hi < c.first := by
      intro c hc
      obtain ⟨s, hs, hc⟩ := List.mem_flatMap.mp hc
      have := after s hs
      have := children_bounds hc
      omega
    have none_left : left.filter (between lo hi) = [] := by
      refine List.filter_eq_nil_iff.mpr fun c hc h => ?_
      have := before c hc
      have := between_iff.mp h
      have := first_le_last c
      omega
    have all_middle : middle.filter (between lo hi) = middle :=
      List.filter_eq_self.mpr fun c hc => between_iff.mpr (within c hc)
    have none_right : right.filter (between lo hi) = [] := by
      refine List.filter_eq_nil_iff.mpr fun c hc h => ?_
      have := after c hc
      have := between_iff.mp h
      have := first_le_last c
      omega
    rw [rows, List.flatMap_append, List.flatMap_append, List.filter_append, ih before' within' after',
      List.filter_append,
      List.filter_append, none_left, all_middle, none_right, List.nil_append, List.append_nil]
    rfl

section Piece

variable {s : Site} {front piece back : List Part}

theorem children_piece (split : s.inside = front ++ piece ++ back) :
    s.children = among s.first (s.height + 1) front ++
      among (s.first + Text.size (join front)) (s.height + 1) piece ++
      among (s.first + Text.size (join front) + Text.size (join piece)) (s.height + 1) back := by
  rw [children_split split, among_append, join_append, Text.size_append, ← Nat.add_assoc]

theorem last_piece (split : s.inside = front ++ piece ++ back) :
    s.first + Text.size (join front) + Text.size (join piece) ≤ s.last := by
  rw [Site.last, split, join_append, join_append, Text.size_append, Text.size_append]
  omega

theorem filter_row_between {height : Nat} {row : List Site} (h : IsRow height row) {t : Site} (ht : t ∈ row)
    {lo hi : Nat} (start : t.first ≤ lo) (stop : hi ≤ t.last) : row.filter (between lo hi) = [] := by
  refine List.filter_eq_nil_iff.mpr fun r hr h' => ?_
  have := between_iff.mp h'
  have := first_le_last r
  rcases eq_or_apart h hr ht with rfl | apart | apart
  · omega
  · unfold Apart at apart
    omega
  · unfold Apart at apart
    omega

theorem filter_between {n height : Nat} {row : List Site} (h : IsRow height row) (shallow : Shallow n row)
    (hs : s ∈ rows n row) (split : s.inside = front ++ piece ++ back) :
    (rows n row).filter (between (s.first + Text.size (join front))
        (s.first + Text.size (join front) + Text.size (join piece))) =
      rows (depthOf piece) (among (s.first + Text.size (join front)) (s.height + 1) piece) := by
  have inside := last_piece split
  induction n generalizing height row with
  | zero => cases hs
  | succ n ih =>
    rw [rows, List.filter_append]
    rcases List.mem_append.mp hs with deeper | here
    · obtain ⟨t, ht, start, stop, _⟩ := exists_around hs
      rw [filter_row_between h ht (by omega) (by omega), List.append_nil]
      exact ih h.next shallow.next deeper
    · rw [filter_row_between h here (by omega) inside, List.append_nil]
      obtain ⟨left, right, rfl⟩ := List.append_of_mem here
      have apart := List.pairwise_append.mp h.apart
      have after := (List.pairwise_cons.mp apart.2.1).1
      have family : (left ++ s :: right).flatMap children =
          left.flatMap children ++ among s.first (s.height + 1) front ++
            among (s.first + Text.size (join front)) (s.height + 1) piece ++
            (among (s.first + Text.size (join front) + Text.size (join piece)) (s.height + 1) back ++
              right.flatMap children) := by
        rw [List.flatMap_append, List.flatMap_cons, children_piece split]
        simp only [List.append_assoc]
      have few : Shallow n (among (s.first + Text.size (join front)) (s.height + 1) piece) := by
        intro c hc
        refine shallow.next c ?_
        rw [family]
        exact List.mem_append_left _ (List.mem_append_right _ hc)
      rw [family, rows_eq_of_shallow (shallow_among _ _ piece) few]
      refine filter_rows_between (fun c hc => ?_) (fun c hc => ?_) fun c hc => ?_
      · rcases List.mem_append.mp hc with other | own
        · obtain ⟨t, ht, hc⟩ := List.mem_flatMap.mp other
          have := children_bounds hc
          have := apart.2.2 t ht s List.mem_cons_self
          unfold Apart at this
          omega
        · exact (among_bounds own).2.1
      · have := among_bounds hc
        omega
      · rcases List.mem_append.mp hc with own | other
        · exact (among_bounds own).1
        · obtain ⟨t, ht, hc⟩ := List.mem_flatMap.mp other
          have := children_bounds hc
          have := after t ht
          unfold Apart at this
          omega

/-- Consecutive parts of a level have the same sites in the source and as a source of their own. -/
theorem moved_below {ps : List Part} (member : s ∈ all ps) (split : s.inside = front ++ piece ++ back) :
    (below piece).map (moved (s.first + Text.size (join front)) s.height) =
      (all ps).filter (between (s.first + Text.size (join front))
        (s.first + Text.size (join front) + Text.size (join piece))) := by
  rw [all, filter_between (isRow_root ps) (shallow_root ps) member split, below, rows_moved, children,
    among_moved]
  simp only [root, Nat.zero_add, Nat.add_comm 1]

theorem deeper_of_mem_below {ps : List Part} {d : Site} (member : d ∈ below ps) :
    0 < d.first ∧ 0 < d.height := by
  rcases mem_row_or_deeper member with child | deeper
  · have := children_bounds child
    exact ⟨by omega, by omega⟩
  · exact deeper

theorem height_lt_of_mem_moved {k h : Nat} {d : Site} (member : d ∈ (below piece).map (moved k h)) :
    h < d.height := by
  obtain ⟨c, hc, rfl⟩ := List.mem_map.mp member
  exact Nat.lt_add_of_pos_left (deeper_of_mem_below hc).2

theorem moved_below_whole {ps : List Part} (member : s ∈ all ps) :
    (below s.inside).map (moved s.first s.height) = (all ps).filter (between s.first s.last) := by
  have split : s.inside = [] ++ s.inside ++ [] := by simp
  have moved := moved_below member split
  rwa [join_nil, Text.size_nil, Nat.add_zero] at moved

theorem height_lt_of_between {ps : List Part} (member : s ∈ all ps) {d : Site} (hd : d ∈ all ps)
    (inside : between s.first s.last d = true) : s.height < d.height := by
  have listed : d ∈ (below s.inside).map (moved s.first s.height) := by
    rw [moved_below_whole member]
    exact List.mem_filter.mpr ⟨hd, inside⟩
  exact height_lt_of_mem_moved listed

theorem moved_below_sublist {ps : List Part} {earlier later : List Site}
    (order : all ps = earlier ++ s :: later)
    (split : s.inside = front ++ piece ++ back) :
    ((below piece).map (moved (s.first + Text.size (join front)) s.height)).Sublist earlier := by
  have member : s ∈ all ps := order ▸ List.mem_append_right _ List.mem_cons_self
  have filtered := moved_below member split
  have deeper : ∀ d ∈ (below piece).map (moved (s.first + Text.size (join front)) s.height),
      s.height < d.height := fun d hd => height_lt_of_mem_moved hd
  rw [filtered] at deeper ⊢
  have precedes := rows_precedes (n := depthOf ps + 1) (isRow_root ps)
  change (all ps).Pairwise Precedes at precedes
  rw [order] at precedes deeper ⊢
  have after := (List.pairwise_cons.mp (List.pairwise_append.mp precedes).2.1).1
  have none_later : (s :: later).filter (between (s.first + Text.size (join front))
      (s.first + Text.size (join front) + Text.size (join piece))) = [] := by
    refine List.filter_eq_nil_iff.mpr fun d hd within => ?_
    have := deeper d (List.mem_filter.mpr ⟨List.mem_append_right _ hd, within⟩)
    rcases List.mem_cons.mp hd with rfl | hd
    · exact Nat.lt_irrefl _ this
    · rcases after d hd with lower | same
      · omega
      · exact Nat.ne_of_lt this same.1
  rw [List.filter_append, none_later, List.append_nil]
  exact List.filter_sublist

end Piece

theorem exists_parent {n : Nat} {row : List Site} {d : Site} (member : d ∈ rows n row) :
    d ∈ row ∨ ∃ s ∈ rows n row, d ∈ s.children := by
  induction n generalizing row with
  | zero => cases member
  | succ n ih =>
    rcases List.mem_append.mp member with deeper | here
    · rcases ih deeper with child | ⟨s, hs, child⟩
      · obtain ⟨s, hs, child⟩ := List.mem_flatMap.mp child
        exact .inr ⟨s, List.mem_append_right _ hs, child⟩
      · exact .inr ⟨s, List.mem_append_left _ hs, child⟩
    · exact .inl here

theorem group_of_mem_among {first height : Nat} {ps : List Part} {s : Site}
    (member : s ∈ among first height ps) :
    ∃ b v, join ps = b ++ ((group s.inside).text ++ v) ∧ first + Text.size b + 1 = s.first := by
  induction ps generalizing first with
  | nil => cases member
  | cons p ps ih =>
    have later : s ∈ among (first + Text.size p.text) height ps →
        ∃ b v, join (p :: ps) = b ++ ((group s.inside).text ++ v) ∧ first + Text.size b + 1 = s.first := by
      intro member
      obtain ⟨b, v, split, start⟩ := ih member
      refine ⟨p.text ++ b, v, by simp [split], ?_⟩
      simp only [Text.size_append]
      omega
    cases p with
    | char c plain => exact later member
    | group inside =>
      rcases List.mem_cons.mp member with rfl | member
      · exact ⟨[], join ps, rfl, rfl⟩
      · exact later member

variable {ps : List Part} {s : Site}

theorem mem_all_of_mem_below (member : s ∈ below ps) : s ∈ all ps := by
  rw [all_eq]
  exact List.mem_append_left _ member

theorem exists_parent_of_below (member : s ∈ below ps) : ∃ t ∈ all ps, s ∈ t.children := by
  rcases exists_parent member with child | ⟨t, ht, child⟩
  · exact ⟨root ps, by simp [all_eq], child⟩
  · exact ⟨t, mem_all_of_mem_below ht, child⟩

theorem group_of_mem_below (member : s ∈ below ps) :
    ∃ b v, join ps = b ++ ((group s.inside).text ++ v) ∧ Text.size b + 1 = s.first := by
  obtain ⟨t, ht, child⟩ := exists_parent_of_below member
  obtain ⟨before, after, source, start⟩ := in_of_mem_all ht
  obtain ⟨b, v, split, place⟩ := group_of_mem_among child
  refine ⟨before ++ b, v ++ after, by simp [source, split], ?_⟩
  simp only [Text.size_append, start]
  exact place

theorem raw_of_mem_below (member : s ∈ below ps) : s.level.raw = (group s.inside).text := by
  have deeper := (deeper_of_mem_below member).2
  exact if_neg (by omega)

theorem raw_at (member : s ∈ all ps) :
    ∃ u v, join ps = u ++ s.level.raw ++ v ∧ Text.size u = s.level.start := by
  rw [all_eq] at member
  rcases List.mem_append.mp member with inner | outermost
  · obtain ⟨u, v, split, start⟩ := group_of_mem_below inner
    exact ⟨u, v, by rw [raw_of_mem_below inner, split, List.append_assoc], by simp only [level]; omega⟩
  · obtain rfl := List.mem_singleton.mp outermost
    exact ⟨[], [], by simp [root, level], rfl⟩

theorem raw_ne_nil (some_source : join ps ≠ []) (member : s ∈ all ps) : s.level.raw ≠ [] := by
  rw [all_eq] at member
  rcases List.mem_append.mp member with inner | outermost
  · simp [raw_of_mem_below inner, text_group]
  · obtain rfl := List.mem_singleton.mp outermost
    simpa [root, level] using some_source

end Site

end EvalOrder
