import EvalOrder.Proofs.Parts

/-! Where the levels of a source stand. The sites of one height form a row from left to right; the row above
it in height holds the children of its sites, each family in one piece. All questions about which level
lies in which are answered on rows, by the gaps between the sites of a row. -/
namespace EvalOrder

/-- The parts of a level, from byte `first` on. -/
structure Site where
  first : Nat
  height : Nat
  inside : List Part

namespace Site
open EvalOrder.Part

def last (s : Site) : Nat :=
  s.first + Text.size (join s.inside)

/-- The level found at a site. Only the outermost one has no parentheses of its own. -/
def level (s : Site) : Level :=
  ⟨s.first - 1, s.last, s.height, if s.height = 0 then join s.inside else (group s.inside).text, [], [], []⟩

def among (first height : Nat) : List Part → List Site
  | [] => []
  | char c _ :: rest => among (first + c.utf8Size) height rest
  | group inside :: rest =>
    ⟨first + 1, height, inside⟩ :: among (first + Text.size (group inside).text) height rest

def children (s : Site) : List Site :=
  among s.first (s.height + 1) s.inside

def rows : Nat → List Site → List Site
  | 0, _ => []
  | n + 1, row => rows n (row.flatMap children) ++ row

theorem rows_nil (n : Nat) : rows n [] = [] := by
  induction n with
  | zero => rfl
  | succ n ih => rw [rows, List.flatMap_nil, ih, List.append_nil]

def root (ps : List Part) : Site := ⟨0, 0, ps⟩

def all (ps : List Part) : List Site :=
  rows (depthOf ps + 1) [root ps]

theorem forall_rows {motive : Site → Prop} {n : Nat} {row : List Site} (here : ∀ s ∈ row, motive s)
    (child : ∀ s, motive s → ∀ c ∈ s.children, motive c) : ∀ d ∈ rows n row, motive d := by
  induction n generalizing row with
  | zero => exact fun _ hd => absurd hd List.not_mem_nil
  | succ n ih =>
    intro d hd
    rcases List.mem_append.mp hd with deeper | in_row
    · refine ih (fun c hc => ?_) d deeper
      obtain ⟨s, hs, hc⟩ := List.mem_flatMap.mp hc
      exact child s (here s hs) c hc
    · exact here d in_row

theorem forall_all {motive : Site → Prop} {ps : List Part} (outermost : motive (root ps))
    (child : ∀ s, motive s → ∀ c ∈ s.children, motive c) {d : Site} (member : d ∈ all ps) : motive d := by
  refine forall_rows (fun s hs => ?_) child d member
  rw [List.mem_singleton.mp hs]
  exact outermost

theorem first_le_last (s : Site) : s.first ≤ s.last := Nat.le_add_right _ _

theorem among_append (first height : Nat) (ps qs : List Part) :
    among first height (ps ++ qs) =
      among first height ps ++ among (first + Text.size (join ps)) height qs := by
  induction ps generalizing first with
  | nil => rfl
  | cons p ps ih => cases p <;> simp [among, ih, Nat.add_assoc]

theorem among_inside (first height : Nat) (ps : List Part) :
    (among first height ps).map inside = groups ps := by
  induction ps generalizing first with
  | nil => rfl
  | cons p ps ih => cases p <;> simp [among, groups, ih]

theorem among_bounds {first height : Nat} {ps : List Part} {s : Site} (member : s ∈ among first height ps) :
    first < s.first ∧ s.last < first + Text.size (join ps) ∧ s.height = height ∧
      s.inside ∈ groups ps := by
  induction ps generalizing first with
  | nil => cases member
  | cons p ps ih =>
    rw [join_cons, Text.size_append]
    cases p with
    | char c plain =>
      have := ih member
      simp only [text_char, Text.size_cons, Text.size_nil, groups]
      exact ⟨by omega, by omega, this.2.2.1, this.2.2.2⟩
    | group inside =>
      rw [size_group]
      rcases List.mem_cons.mp member with rfl | later
      · simp only [last, groups, List.mem_cons, true_or, and_true]
        omega
      · have := ih later
        rw [size_group] at this
        refine ⟨by omega, by omega, this.2.2.1, List.mem_cons_of_mem _ this.2.2.2⟩

/-- Between two sites of a row stand the closing parenthesis of one and the opening one of the other. -/
def Apart (a b : Site) : Prop :=
  a.last + 2 ≤ b.first

theorem among_apart (first height : Nat) (ps : List Part) : (among first height ps).Pairwise Apart := by
  induction ps generalizing first with
  | nil => exact List.Pairwise.nil
  | cons p ps ih =>
    cases p with
    | char c plain => exact ih _
    | group inside =>
      refine List.pairwise_cons.mpr ⟨?_, ih _⟩
      intro s hs
      have := (among_bounds hs).1
      rw [size_group] at this
      simp only [Apart, last]
      omega

theorem children_bounds {s c : Site} (member : c ∈ s.children) :
    s.first < c.first ∧ c.last < s.last ∧ c.height = s.height + 1 ∧ c.inside ∈ groups s.inside :=
  among_bounds member

theorem depthOf_child {s c : Site} (member : c ∈ s.children) : depthOf c.inside < depthOf s.inside :=
  depthOf_lt_of_mem_groups (children_bounds member).2.2.2

/-- A row: sites of one height, apart from each other in the order of the source. -/
structure IsRow (height : Nat) (row : List Site) : Prop where
  height : ∀ s ∈ row, s.height = height
  apart : row.Pairwise Apart

theorem isRow_root (ps : List Part) : IsRow 0 [root ps] :=
  ⟨fun s hs => by rw [List.mem_singleton.mp hs]; rfl, List.pairwise_singleton _ _⟩

theorem IsRow.next {height : Nat} {row : List Site} (h : IsRow height row) :
    IsRow (height + 1) (row.flatMap children) := by
  constructor
  · intro c hc
    obtain ⟨s, hs, hc⟩ := List.mem_flatMap.mp hc
    rw [(children_bounds hc).2.2.1, h.height s hs]
  · refine List.pairwise_flatMap.mpr ⟨fun s _ => among_apart _ _ _, h.apart.imp ?_⟩
    intro s t apart c hc d hd
    have := children_bounds hc
    have := children_bounds hd
    simp only [Apart] at apart ⊢
    omega

theorem exists_around {n : Nat} {row : List Site} {d : Site} (member : d ∈ rows n row) :
    ∃ s ∈ row, s.first ≤ d.first ∧ d.last ≤ s.last ∧ s.height ≤ d.height := by
  induction n generalizing row with
  | zero => cases member
  | succ n ih =>
    rcases List.mem_append.mp member with deeper | here
    · obtain ⟨c, hc, front, back, above⟩ := ih deeper
      obtain ⟨s, hs, hc⟩ := List.mem_flatMap.mp hc
      have := children_bounds hc
      exact ⟨s, hs, by omega, by omega, by omega⟩
    · exact ⟨d, here, Nat.le_refl _, Nat.le_refl _, Nat.le_refl _⟩

theorem height_le {n height : Nat} {row : List Site} (h : IsRow height row) {d : Site}
    (member : d ∈ rows n row) : height ≤ d.height := by
  obtain ⟨s, hs, _, _, above⟩ := exists_around member
  rw [← h.height s hs]
  exact above

theorem eq_or_apart {height : Nat} {row : List Site} (h : IsRow height row) {s t : Site}
    (hs : s ∈ row) (ht : t ∈ row) : s = t ∨ s.Apart t ∨ t.Apart s :=
  List.Pairwise.forall_of_forall_of_flip (R := fun s t : Site => s = t ∨ s.Apart t ∨ t.Apart s)
    (fun _ _ => .inl rfl) (h.apart.imp fun a => .inr (.inl a)) (h.apart.imp fun a => .inr (.inr a)) hs ht

theorem in_child_or_apart {n height : Nat} {row : List Site} (h : IsRow height row) {s d : Site}
    (hs : s ∈ rows n row) (hd : d ∈ rows n row) (deeper : s.height < d.height) :
    (∃ c ∈ s.children, c.first ≤ d.first ∧ d.last ≤ c.last) ∨ d.Apart s ∨ s.Apart d := by
  induction n generalizing height row with
  | zero => cases hs
  | succ n ih =>
    rcases List.mem_append.mp hd with hd | hd
    · rcases List.mem_append.mp hs with hs | hs
      · exact ih h.next hs hd
      · obtain ⟨c, hc, front, back, _⟩ := exists_around hd
        obtain ⟨t, ht, hc⟩ := List.mem_flatMap.mp hc
        have := children_bounds hc
        rcases eq_or_apart h hs ht with rfl | apart | apart
        · exact .inl ⟨c, hc, front, back⟩
        · unfold Apart at apart ⊢
          omega
        · unfold Apart at apart ⊢
          omega
    · have := h.height d hd
      have := height_le (n := n + 1) h hs
      omega

theorem in_child_or_beside {n height : Nat} {row : List Site} (h : IsRow height row) {s d : Site}
    (hs : s ∈ rows n row) (hd : d ∈ rows n row) (deeper : s.height < d.height) :
    (∃ c ∈ s.children, c.first ≤ d.first ∧ d.last ≤ c.last) ∨ d.last < s.first ∨ s.last < d.first := by
  refine (in_child_or_apart h hs hd deeper).imp_right fun apart => ?_
  unfold Apart at apart
  omega

theorem contains_level {s d : Site} : s.level.contains d.level = true ↔
    s.first - 1 ≤ d.first - 1 ∧ d.last < s.last := by
  simp only [Level.contains, Bool.and_eq_true, decide_eq_true_eq]
  exact Iff.rfl

theorem holds_level {s d : Site} : s.level.holds d.level = true ↔
    d.height = s.height + 1 ∧ s.first - 1 ≤ d.first - 1 ∧ d.last < s.last := by
  rw [Level.holds, Bool.and_eq_true, beq_iff_eq, contains_level]
  exact Iff.rfl

theorem filter_flatMap_children {height : Nat} {row : List Site} (h : IsRow height row) {s : Site}
    (hs : s ∈ row) : (row.flatMap children).filter (fun d => s.level.holds d.level) = s.children := by
  obtain ⟨front, back, rfl⟩ := List.append_of_mem hs
  have apart := List.pairwise_append.mp h.apart
  have after := (List.pairwise_cons.mp apart.2.1).1
  have none_front : (front.flatMap children).filter (fun d => s.level.holds d.level) = [] := by
    refine List.filter_eq_nil_iff.mpr fun d hd holds => ?_
    obtain ⟨t, ht, hd⟩ := List.mem_flatMap.mp hd
    have := children_bounds hd
    have := apart.2.2 t ht s List.mem_cons_self
    have := holds_level.mp holds
    have := first_le_last d
    unfold Apart at *
    omega
  have none_back : (back.flatMap children).filter (fun d => s.level.holds d.level) = [] := by
    refine List.filter_eq_nil_iff.mpr fun d hd holds => ?_
    obtain ⟨t, ht, hd⟩ := List.mem_flatMap.mp hd
    have := children_bounds hd
    have := after t ht
    have := holds_level.mp holds
    have := first_le_last d
    unfold Apart at *
    omega
  have all_own : s.children.filter (fun d => s.level.holds d.level) = s.children := by
    refine List.filter_eq_self.mpr fun d hd => ?_
    have := children_bounds hd
    exact holds_level.mpr ⟨this.2.2.1, by omega, this.2.1⟩
  rw [List.flatMap_append, List.flatMap_cons, List.filter_append, List.filter_append, none_front,
    none_back, all_own, List.nil_append, List.append_nil]

def Shallow (n : Nat) (row : List Site) : Prop :=
  ∀ s ∈ row, depthOf s.inside < n

theorem Shallow.next {n : Nat} {row : List Site} (h : Shallow (n + 1) row) :
    Shallow n (row.flatMap children) := by
  intro c hc
  obtain ⟨s, hs, hc⟩ := List.mem_flatMap.mp hc
  have := h s hs
  have := depthOf_child hc
  omega

theorem shallow_root (ps : List Part) : Shallow (depthOf ps + 1) [root ps] := by
  intro s hs
  rw [List.mem_singleton.mp hs]
  exact Nat.lt_succ_self _

theorem Shallow.eq_nil {row : List Site} (h : Shallow 0 row) : row = [] := by
  cases row with
  | nil => rfl
  | cons s row => exact absurd (h s List.mem_cons_self) (Nat.not_lt_zero _)

/-- The levels that a level holds are the children of its site, in the order of the source. -/
theorem filter_holds {n height : Nat} {row : List Site} (h : IsRow height row) (shallow : Shallow n row)
    {s : Site} (hs : s ∈ rows n row) :
    (rows n row).filter (fun d => s.level.holds d.level) = s.children := by
  induction n generalizing height row with
  | zero => cases hs
  | succ n ih =>
    have low : row.filter (fun d => s.level.holds d.level) = [] := by
      refine List.filter_eq_nil_iff.mpr fun d hd holds => ?_
      have := (holds_level.mp holds).1
      have := h.height d hd
      have := height_le h hs
      omega
    rw [rows, List.filter_append, low, List.append_nil]
    rcases List.mem_append.mp hs with upper | here
    · exact ih h.next shallow.next upper
    · cases n with
      | zero =>
        have none := shallow.next.eq_nil
        rw [← filter_flatMap_children h here, none]
        rfl
      | succ n =>
        have deep : (rows n ((row.flatMap children).flatMap children)).filter
            (fun d => s.level.holds d.level) = [] := by
          refine List.filter_eq_nil_iff.mpr fun d hd holds => ?_
          have := (holds_level.mp holds).1
          have := height_le h.next.next hd
          have := h.height s here
          omega
        rw [rows, List.filter_append, deep, filter_flatMap_children h here, List.nil_append]

theorem filter_holds_all {ps : List Part} {s : Site} (hs : s ∈ all ps) :
    (all ps).filter (fun d => s.level.holds d.level) = s.children :=
  filter_holds (isRow_root ps) (shallow_root ps) hs

theorem mem_all_of_mem_children {ps : List Part} {s c : Site} (hs : s ∈ all ps) (hc : c ∈ s.children) :
    c ∈ all ps := by
  rw [← filter_holds_all hs] at hc
  exact (List.mem_filter.mp hc).1

def Precedes (a b : Site) : Prop :=
  b.height < a.height ∨ a.height = b.height ∧ a.Apart b

theorem rows_precedes {n height : Nat} {row : List Site} (h : IsRow height row) :
    (rows n row).Pairwise Precedes := by
  induction n generalizing height row with
  | zero => exact List.Pairwise.nil
  | succ n ih =>
    refine List.pairwise_append.mpr ⟨ih h.next, ?_, ?_⟩
    · refine List.Pairwise.imp_of_mem ?_ h.apart
      intro a b ha hb apart
      exact .inr ⟨by rw [h.height a ha, h.height b hb], apart⟩
    · intro a ha b hb
      have := height_le h.next ha
      have := h.height b hb
      exact .inl (by omega)

end Site

end EvalOrder
