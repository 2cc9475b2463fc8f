import EvalOrder.Proofs.Descent
import Mathlib

/-! Main statement: a level that is searched for by its text is found at its own place, and of the
parentheses only the own ones of the text are taken away. The levels searched for are the ones right
inside by their bytes. -/
namespace EvalOrder

open EvalOrder.Part Site

namespace Site

section Children

variable {ps : List Part} {s c d : Site} {view : Site → Level}

theorem last_le_size (member : s ∈ all ps) : s.last ≤ Text.size (join ps) := by
  obtain ⟨before, after, source, start⟩ := in_of_mem_all member
  rw [source, Text.size_append, Text.size_append, start]
  exact Nat.le_add_right _ _

theorem surrounds_iff (placed : ∀ s : Site, s.At (view s)) (hs : s ∈ all ps) (hd : d ∈ all ps) :
    (view s).Surrounds (view d) ↔ between s.first s.last d = true := by
  rw [Level.Surrounds, interior_eq hs (placed s), between_iff, (placed d).start, (placed d).stop]
  simp only
  rcases eq_root_or_deeper hd with rfl | deeper
  · have within := last_le_size hs
    have first : (root ps).first = 0 := rfl
    have last : (root ps).last = Text.size (join ps) := Nat.zero_add _
    omega
  · omega

theorem eq_or_between (hc : c ∈ all ps) (hd : d ∈ all ps) (front : c.first ≤ d.first) (back : d.last ≤ c.last)
    (above : c.height ≤ d.height) : d = c ∨ between c.first c.last d = true := by
  have c_order := first_le_last c
  have d_order := first_le_last d
  rcases Nat.lt_or_eq_of_le above with deeper | same
  · rcases in_child_or_beside (isRow_root ps) hc hd deeper with ⟨child, hchild, left, right⟩ | beside | beside
    · have bounds := children_bounds hchild
      exact .inr (between_iff.mpr ⟨by omega, by omega⟩)
    · omega
    · omega
  · rcases eq_or_apart_of_height hc hd same with equal | apart | apart
    · exact .inl equal.symm
    · unfold Apart at apart
      omega
    · unfold Apart at apart
      omega

theorem rightAround_iff (placed : ∀ s : Site, s.At (view s)) (hs : s ∈ all ps) (hd : d ∈ all ps) :
    (view s).RightAround ((all ps).map view) (view d) ↔ d ∈ s.children := by
  constructor
  · rintro ⟨around, alone⟩
    have inside := (surrounds_iff placed hs hd).mp around
    have deeper := height_lt_of_between hs hd inside
    have bounds := between_iff.mp inside
    have order := first_le_last d
    rcases in_child_or_beside (isRow_root ps) hs hd deeper with ⟨c, child, left, right⟩ | beside | beside
    · have hc := mem_all_of_mem_children hs child
      have child_bounds := children_bounds child
      rcases eq_or_between hc hd left right (by omega) with rfl | within
      · exact child
      · have between_child := between_iff.mpr ⟨child_bounds.1, child_bounds.2.1⟩
        have child_around := (surrounds_iff placed hs hc).mpr between_child
        have not_around := alone _ (List.mem_map_of_mem hc) child_around
        exact absurd ((surrounds_iff placed hc hd).mpr within) not_around
    · omega
    · omega
  · intro child
    have bounds := children_bounds child
    constructor
    · exact (surrounds_iff placed hs hd).mpr (between_iff.mpr ⟨bounds.1, bounds.2.1⟩)
    · intro other member around between_them
      obtain ⟨e, he, rfl⟩ := List.mem_map.mp member
      have above := height_lt_of_between hs he ((surrounds_iff placed hs he).mp around)
      have below := height_lt_of_between he hd ((surrounds_iff placed he hd).mp between_them)
      omega

theorem children_view (placed : ∀ s : Site, s.At (view s)) (member : s ∈ all ps) :
    Children ((all ps).map view) (view s) (s.children.map view) := by
  constructor
  · intro inner
    constructor
    · intro listed
      obtain ⟨c, child, rfl⟩ := List.mem_map.mp listed
      have hc := mem_all_of_mem_children member child
      exact ⟨List.mem_map_of_mem hc, (rightAround_iff placed member hc).mpr child⟩
    · rintro ⟨listed, around⟩
      obtain ⟨d, hd, rfl⟩ := List.mem_map.mp listed
      exact List.mem_map_of_mem ((rightAround_iff placed member hd).mp around)
  · apply List.pairwise_map.mpr
    apply (among_apart s.first (s.height + 1) s.inside).imp
    intro a b apart
    rw [(placed a).stop, (placed b).start]
    unfold Apart at apart
    omega

end Children

section Weaving

variable {ps front back : List Part} {s : Site}

theorem length_among (first height : Nat) (ps : List Part) :
    (among first height ps).length = (groups ps).length := by
  rw [← among_inside first height ps, List.length_map]

theorem take_children (split : s.inside = front ++ back) :
    s.children.take (groups front).length = among s.first (s.height + 1) front := by
  rw [children_split split]
  exact List.take_left' (length_among _ _ _)

theorem split_of_among {first height k : Nat} {c : Site} (found : (among first height ps)[k]? = some c) :
    ∃ front inside back, ps = front ++ group inside :: back ∧ (groups front).length = k ∧
      c = ⟨first + Text.size (join front) + 1, height, inside⟩ := by
  induction ps generalizing first k with
  | nil => cases found
  | cons p ps ih =>
    cases p with
    | char d plain =>
      obtain ⟨front, inside, back, rfl, count, rfl⟩ := ih found
      refine ⟨char d plain :: front, inside, back, rfl, count, ?_⟩
      simp only [join_cons, text_char, Text.size_append, Text.size_cons, Text.size_nil, Nat.add_zero,
        Nat.add_assoc]
    | group other =>
      cases k with
      | zero =>
        cases found
        exact ⟨[], other, ps, rfl, rfl, rfl⟩
      | succ k =>
        obtain ⟨front, inside, back, rfl, count, rfl⟩ := ih found
        refine ⟨group other :: front, inside, back, rfl, congrArg Nat.succ count, ?_⟩
        simp only [join_cons, Text.size_append, Nat.add_assoc]

/-- `a` is behind, `w` has been passed over, and the parts are still to come. -/
theorem weave_among (l : Level) (height k : Nat) (ps : List Part) (a w v rest : Text) :
    weave (a ++ w ++ join ps ++ v ++ rest) (Text.size (a ++ w ++ join ps ++ v)) (Text.size a) k
      ((among (l.start + Text.size (a ++ w)) height ps).map fun c => l.part c.level) =
      some (w ++ masked k ps ++ v) := by
  induction ps generalizing a w k with
  | nil =>
    apply Text.slice?_eq_some_iff.mpr
    refine ⟨a, rest, ?_, rfl, ?_⟩
    · simp [masked]
    · simp [masked]
  | cons p ps ih =>
    cases p with
    | char c plain =>
      have next := ih k a (w ++ [c])
      simpa [masked, among, Nat.add_assoc] using next
    | group inside =>
      have here : l.part (Site.level ⟨l.start + Text.size (a ++ w) + 1, height, inside⟩) =
          ⟨Text.size (a ++ w), Text.size (a ++ w ++ (group inside).text)⟩ := by
        rw [Text.size_append (a ++ w), size_group]
        simp only [Level.part, level, last, Span.mk.injEq]
        omega
      have before : Text.slice? (a ++ w ++ join (group inside :: ps) ++ v ++ rest) (Text.size a)
          (Text.size (a ++ w)) = some w := by
        apply Text.slice?_eq_some_iff.mpr
        refine ⟨a, join (group inside :: ps) ++ v ++ rest, ?_, rfl, ?_⟩
        · simp only [List.append_assoc]
        · rw [Text.size_append]
      have after := ih (k + 1) (a ++ w ++ (group inside).text) []
      rw [List.append_nil, List.nil_append, Text.size_append (a ++ w), ← Nat.add_assoc] at after
      rw [among, List.map_cons, here, weave, before]
      simp only [join_cons, ← List.append_assoc, masked] at after ⊢
      simp only [Text.size_append (a ++ w)]
      rw [after]
      simp [List.append_assoc]

theorem front_start (member : s ∈ all ps) :
    s.level.start + Text.size (frameFront (s.height != 0)) = s.first := by
  rcases eq_root_or_deeper member with rfl | deeper
  · rfl
  · have own : (s.height != 0) = true := bne_iff_ne.mpr (Nat.ne_of_gt deeper.2)
    have one : Text.size ['('] = 1 := by decide
    rw [own, frameFront, if_pos rfl, one]
    exact Nat.sub_add_cancel deeper.1

theorem withAliases_front (member : s ∈ all ps) (split : s.inside = front ++ back) (v rest : Text)
    (behind : join back ++ frameBack (s.height != 0) = v ++ rest) :
    s.level.withAliases (Text.size (frameFront (s.height != 0) ++ join front ++ v))
      ((s.children.take (groups front).length).map level) =
      some (frameFront (s.height != 0) ++ masked 0 front ++ v) := by
  have raw : s.level.raw = frameFront (s.height != 0) ++ join front ++ v ++ rest := by
    rw [level_raw, frame_eq, split, join_append]
    simp only [List.append_assoc, behind]
  have woven := weave_among s.level (s.height + 1) 0 front [] (frameFront (s.height != 0)) v rest
  rw [List.nil_append, front_start member, ← raw] at woven
  rw [take_children split, Level.withAliases, List.map_map]
  exact woven

/-- One search: the level looked for stands first where it is in the raw text, the ones before it replaced. -/
theorem search_in_place {place : Nat} {inside : List Part} (here : (all ps)[place]? = some s)
    (split : s.inside = front ++ group inside :: back) :
    let child := level ⟨s.first + Text.size (join front) + 1, s.height + 1, inside⟩
    let hidden := (s.children.map level).take (groups front).length
    let text := Level.searched ((all ps).map level) place s.level (groups front).length
    ∃ before, s.level.withAliases (child.start - s.level.start) hidden = some before ∧
      s.level.withAliases (Text.size s.level.raw) hidden = some text ∧ FirstAfter before child.raw text := by
  intro child hidden text
  have member : s ∈ all ps := List.mem_of_getElem? here
  have first := front_start member
  have start : child.start - s.level.start = Text.size (frameFront (s.height != 0) ++ join front ++ []) := by
    have at_child : child.start = s.first + Text.size (join front) := rfl
    simp only [Text.size_append, Text.size_nil]
    omega
  have raw : s.level.raw = frameFront (s.height != 0) ++ join front ++
      (join (group inside :: back) ++ frameBack (s.height != 0)) := by
    rw [level_raw, frame_eq, split, join_append]
    simp only [List.append_assoc]
  have searched : text = frame (s.height != 0) (masked 0 front ++ join (group inside :: back)) :=
    searched_view at_level (fun _ => rfl) here split
  have up_to_child := withAliases_front member split [] _ (List.nil_append _).symm
  have up_to_end := withAliases_front member split _ [] (List.append_nil _).symm
  rw [← start, List.map_take, List.append_nil] at up_to_child
  rw [← raw, List.map_take] at up_to_end
  refine ⟨_, up_to_child, ?_, ?_⟩
  · rw [up_to_end, searched, frame_eq]
    simp only [List.append_assoc]
  · rw [searched]
    exact first_group (s.height != 0) (fun _ hc => plain_of_mem_masked hc) inside back

theorem frame_level (s : Site) (t : Text) : frame (s.height != 0) t = s.level.enclose t := by
  by_cases outermost : s.height = 0
  · simp [frame, Level.enclose, level, outermost]
  · simp [frame, Level.enclose, level, outermost]

theorem withAliases_all (member : s ∈ all ps) :
    s.level.withAliases (Text.size s.level.raw) (s.children.map level) =
      some (s.level.enclose (masked 0 s.inside)) := by
  have all_children : s.children.take (groups s.inside).length = s.children :=
    List.take_of_length_le (Nat.le_of_eq (length_among _ _ _))
  have woven := withAliases_front member (List.append_nil s.inside).symm (frameBack (s.height != 0)) []
    (List.append_nil _).symm
  rw [all_children, ← frame_eq, ← frame_eq, ← level_raw, frame_level] at woven
  exact woven

theorem map_places (member : s ∈ all ps) :
    (places (all ps) s).map (fun other => ((all ps).map level)[other]?) =
      (s.children.map level).map some := by
  rw [places, ← map_fst_held member, List.map_map, List.map_map, List.map_map]
  apply List.map_congr_left
  intro d hd
  have at_place := List.mem_zipIdx_iff_getElem?.mp (List.mem_filter.mp hd).1
  simp only [Function.comp_apply, List.getElem?_map, at_place, Option.map_some]

end Weaving

end Site

theorem maskAll_in_place {source : Text} {levels : List Level} {place : Nat} {level : Level}
    (found : levelsOf source = .ok levels) (here : levels[place]? = some level) :
    ∃ children, Children levels level children ∧ level.MaskedInPlace levels place children := by
  obtain ⟨ps, rfl, _, rfl⟩ := levelsOf_eq_ok_iff.mp found
  rw [List.getElem?_map, Option.map_eq_some_iff] at here
  obtain ⟨s, here, rfl⟩ := here
  have member : s ∈ all ps := List.mem_of_getElem? here
  refine ⟨s.children.map Site.level, children_view at_level member, ?_⟩
  constructor
  · exact map_fst_hidden here
  · intro k child listed
    rw [List.getElem?_map, Option.map_eq_some_iff] at listed
    obtain ⟨c, found_child, rfl⟩ := listed
    obtain ⟨front, inside, back, split, rfl, rfl⟩ := split_of_among found_child
    exact search_in_place here split
  · refine ⟨masked 0 s.inside, places (all ps) s, ?_, withAliases_all member, map_places member⟩
    rw [maskAll_levels, List.getElem?_map, here]
    rfl

theorem maskAll_in_place_lookalikes : ∃ levels level,
    levelsOf "(é+((a)-(a))&(a))-(a)".toList = .ok levels ∧ levels[4]? = some level ∧
      ∃ children, Children levels level children ∧ level.MaskedInPlace levels 4 children := by
  have found : levelsOf "(é+((a)-(a))&(a))-(a)".toList = .ok [⟨5, 7, 3, "(a)".toList, [], [], []⟩,
      ⟨9, 11, 3, "(a)".toList, [], [], []⟩, ⟨4, 12, 2, "((a)-(a))".toList, [], [], []⟩,
      ⟨14, 16, 2, "(a)".toList, [], [], []⟩, ⟨0, 17, 1, "(é+((a)-(a))&(a))".toList, [], [], []⟩,
      ⟨19, 21, 1, "(a)".toList, [], [], []⟩, Level.outermost "(é+((a)-(a))&(a))-(a)".toList] := by cbv
  exact ⟨_, _, found, rfl, maskAll_in_place found rfl⟩

end EvalOrder
