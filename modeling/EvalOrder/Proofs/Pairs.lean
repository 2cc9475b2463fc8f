import EvalOrder.Proofs.Descent
import EvalOrder.Proofs.Direct
import Mathlib.Data.Set.Card

/-! The levels of a source against its parentheses alone. Balance is said by counts, a matching pair by what
stands between its ends; the scan knows neither. Main statement: discovery accepts the balanced texts without
a marker, and then there is one level for each matching pair, as high as there are pairs around it. -/
namespace EvalOrder

open EvalOrder.Part Site

/-- A text that closes `n` parentheses more than it opens, and at no point more than that. -/
def Falls (n : Nat) (t : Text) : Prop :=
  t.count ')' = t.count '(' + n ∧ ∀ u, u <+: t → u.count ')' ≤ u.count '(' + n

theorem balanced_iff_falls {t : Text} : Balanced t ↔ Falls 0 t := by
  constructor
  · rintro ⟨total, front⟩
    refine ⟨total, fun u hu => ?_⟩
    have short := front u.length hu.length_le
    rwa [← List.prefix_iff_eq_take.mp hu] at short
  · rintro ⟨total, front⟩
    exact ⟨total, fun n _ => front _ (List.take_prefix n t)⟩

theorem forall_prefix_cons {c : Char} {t : Text} {P : Text → Prop} :
    (∀ u, u <+: c :: t → P u) ↔ P [] ∧ ∀ u, u <+: t → P (c :: u) := by
  constructor
  · intro h
    exact ⟨h [] List.nil_prefix, fun u hu => h _ (List.cons_prefix_cons.mpr ⟨rfl, hu⟩)⟩
  · rintro ⟨empty, longer⟩ u hu
    cases u with
    | nil => exact empty
    | cons d u =>
      obtain ⟨rfl, shorter⟩ := List.cons_prefix_cons.mp hu
      exact longer u shorter

theorem falls_plain {n : Nat} {c : Char} {t : Text} (plain : isParenthesis c = false) :
    Falls n (c :: t) ↔ Falls n t := by
  have opening := plain_ne_open plain
  have closing := plain_ne_close plain
  simp [Falls, forall_prefix_cons, opening, closing]

theorem falls_open {n : Nat} {t : Text} : Falls n ('(' :: t) ↔ Falls (n + 1) t := by
  simp [Falls, forall_prefix_cons, Nat.add_assoc, Nat.add_comm 1]

theorem falls_close {n : Nat} {t : Text} : Falls (n + 1) (')' :: t) ↔ Falls n t := by
  simp [Falls, forall_prefix_cons, ← Nat.add_assoc]

theorem not_falls_close {t : Text} : ¬ Falls 0 (')' :: t) := fun h => by
  simpa using h.2 [')'] (List.cons_prefix_cons.mpr ⟨rfl, List.nil_prefix⟩)

theorem falls_join {n : Nat} {ps : List Part} {t : Text} (h : Falls n t) : Falls n (join ps ++ t) := by
  induction ps using Part.induction generalizing n t with
  | nil => exact h
  | char c plain rest ih => exact (falls_plain plain).mpr (ih h)
  | group inside rest inner tail =>
    have after : Falls (n + 1) (join inside ++ ')' :: (join rest ++ t)) := inner (falls_close.mpr (tail h))
    simpa using falls_open.mpr after

theorem closes_of_falls {n : Nat} {t : Text} (h : Falls n t) : Closes n t := by
  induction t generalizing n with
  | nil =>
    have none : n = 0 := by simpa using h.1.symm
    subst none
    exact ⟨[], rfl⟩
  | cons c t ih =>
    by_cases opening : c = '('
    · subst opening
      exact closes_open (ih (falls_open.mp h))
    · by_cases closing : c = ')'
      · subst closing
        cases n with
        | zero => exact absurd h not_falls_close
        | succ n => exact ⟨[], t, rfl, ih (falls_close.mp h)⟩
      · have plain := plain_of_ne opening closing
        exact closes_plain plain (ih ((falls_plain plain).mp h))

/-- The balanced texts are those made of parts. -/
theorem balanced_iff {t : Text} : Balanced t ↔ ∃ ps, t = join ps := by
  rw [balanced_iff_falls]
  constructor
  · exact closes_of_falls
  · rintro ⟨ps, rfl⟩
    have empty : Falls 0 [] := ⟨rfl, by simp⟩
    have closed : Falls 0 (join ps ++ []) := falls_join empty
    simpa using closed

theorem balanced_join (ps : List Part) : Balanced (join ps) :=
  balanced_iff.mpr ⟨ps, rfl⟩

theorem ne_append_open {c : Char} {t b v : Text} {qs : List Part} (plain : isParenthesis c = false)
    (split : c :: t = b ++ ((group qs).text ++ v)) :
    ∃ b', b = c :: b' ∧ t = b' ++ ((group qs).text ++ v) := by
  cases b with
  | nil => exact absurd (List.cons.inj split).1 (plain_ne_open plain)
  | cons d b =>
    obtain ⟨rfl, tail⟩ := List.cons.inj split
    exact ⟨b, rfl, tail⟩

theorem group_eq_cons {c : Char} {inside : List Part} {u b w : Text}
    (same : (group inside).text ++ u = c :: b ++ w) : c = '(' ∧ join inside ++ ')' :: u = b ++ w := by
  have parts := List.cons.inj same
  exact ⟨parts.1.symm, by simpa using parts.2⟩

/-- Up to the parenthesis that closes what is around it, a text holds a group as a whole or not at all. -/
theorem group_before_close {ps qs : List Part} {u b v : Text}
    (split : join ps ++ ')' :: u = b ++ ((group qs).text ++ v)) :
    (∃ w, join ps = b ++ ((group qs).text ++ w)) ∨
      ∃ b', b = join ps ++ ')' :: b' ∧ u = b' ++ ((group qs).text ++ v) := by
  induction ps using Part.induction generalizing u b v with
  | nil =>
    cases b with
    | nil => exact absurd (List.cons.inj split).1 (by decide)
    | cons d b =>
      obtain ⟨rfl, tail⟩ := List.cons.inj split
      exact .inr ⟨b, rfl, tail⟩
  | char c plain rest ih =>
    obtain ⟨b, rfl, tail⟩ := ne_append_open plain split
    rcases ih tail with ⟨w, inside⟩ | ⟨b', rfl, beyond⟩
    · exact .inl ⟨w, congrArg (c :: ·) inside⟩
    · exact .inr ⟨b', rfl, beyond⟩
  | group inside rest inner tail =>
    have whole : (group inside).text ++ (join rest ++ ')' :: u) = b ++ ((group qs).text ++ v) := by
      simpa using split
    cases b with
    | nil =>
      obtain ⟨rfl, _⟩ := group_unique whole
      exact .inl ⟨join rest, by simp⟩
    | cons d b =>
      obtain ⟨rfl, after⟩ := group_eq_cons whole
      rcases inner after with ⟨w, within⟩ | ⟨b', rfl, beyond⟩
      · exact .inl ⟨w ++ ')' :: join rest, by simp [within]⟩
      · rcases tail beyond with ⟨w, later⟩ | ⟨b'', rfl, outside⟩
        · exact .inl ⟨w, by simp [later]⟩
        · exact .inr ⟨b'', by simp, outside⟩

namespace Site

theorem exists_of_split (n first height : Nat) {ps qs : List Part} {b v : Text} (shallow : depthOf ps ≤ n)
    (split : join ps = b ++ ((group qs).text ++ v)) :
    ∃ s ∈ rows n (among first height ps), s.first = first + Text.size b + 1 ∧ s.inside = qs := by
  induction ps using Part.induction generalizing n first height b v with
  | nil => simp at split
  | char c plain rest ih =>
    obtain ⟨b, rfl, tail⟩ := ne_append_open plain split
    have inner : depthOf rest ≤ n := by simpa [depthOf, depth] using shallow
    obtain ⟨s, member, start, parts⟩ := ih n (first + c.utf8Size) height inner tail
    exact ⟨s, member, by simp only [Text.size_cons]; omega, parts⟩
  | group inside rest inner tail =>
    simp only [depthOf, depth] at shallow
    obtain ⟨k, rfl⟩ : ∃ k, n = k + 1 := ⟨n - 1, by omega⟩
    have family := rows_cons_perm k ⟨first + 1, height, inside⟩
      (among (first + Text.size (group inside).text) height rest)
    cases b with
    | nil =>
      obtain ⟨rfl, _⟩ := group_unique (u := join rest) split
      exact ⟨_, family.mem_iff.mpr List.mem_cons_self, rfl, rfl⟩
    | cons d b =>
      obtain ⟨rfl, after⟩ := group_eq_cons (u := join rest) split
      have one : '('.utf8Size = 1 := by decide
      rcases group_before_close after with ⟨w, within⟩ | ⟨b', rfl, beyond⟩
      · obtain ⟨s, member, start, parts⟩ := inner k (first + 1) (height + 1) (by omega) within
        have deeper := List.mem_append_left (rows (k + 1)
          (among (first + Text.size (group inside).text) height rest)) member
        exact ⟨s, family.mem_iff.mpr (List.mem_cons_of_mem _ deeper),
          by simp only [Text.size_cons, one]; omega, parts⟩
      · obtain ⟨s, member, start, parts⟩ :=
          tail (k + 1) (first + Text.size (group inside).text) height (by omega) beyond
        have later := List.mem_append_right (rows k (children ⟨first + 1, height, inside⟩)) member
        have closing : ')'.utf8Size = 1 := by decide
        refine ⟨s, family.mem_iff.mpr (List.mem_cons_of_mem _ later), ?_, parts⟩
        simp only [size_group, Text.size_cons, Text.size_append, one, closing] at start ⊢
        omega

variable {ps : List Part} {s d : Site}

theorem pair_of_mem_below (member : s ∈ below ps) : Pair (join ps) (s.first - 1) s.last := by
  obtain ⟨b, v, split, start⟩ := group_of_mem_below member
  refine ⟨b, join s.inside, v, by simp [split], balanced_join s.inside, by omega, ?_⟩
  simp only [last]
  omega

theorem exists_of_pair {start stop : Nat} (pair : Pair (join ps) start stop) :
    ∃ s ∈ below ps, s.first = start + 1 ∧ s.last = stop := by
  obtain ⟨before, inside, after, split, balanced, size, length⟩ := pair
  obtain ⟨qs, rfl⟩ := balanced_iff.mp balanced
  have parts : join ps = before ++ ((group qs).text ++ after) := by simpa using split
  obtain ⟨s, member, first, rfl⟩ := exists_of_split (depthOf ps) 0 1 (Nat.le_refl _) parts
  refine ⟨s, member, by omega, ?_⟩
  simp only [last]
  omega

theorem eq_of_first (hs : s ∈ below ps) (hd : d ∈ below ps) (same : s.first = d.first) : s = d := by
  have apart : ∀ {a b : Site}, a ∈ below ps → b ∈ below ps → a.height < b.height → a.first ≠ b.first := by
    intro a b ha hb deeper
    have := first_le_last a
    have := first_le_last b
    rcases in_child_or_beside (isRow_root ps) (mem_all_of_mem_below ha) (mem_all_of_mem_below hb) deeper
      with ⟨c, hc, front, _⟩ | beside | beside
    · have := children_bounds hc
      omega
    · omega
    · omega
  rcases Nat.lt_trichotomy s.height d.height with lower | level | higher
  · exact absurd same (apart hs hd lower)
  · exact eq_of_start (mem_all_of_mem_below hs) (mem_all_of_mem_below hd) level (by simp [Site.level, same])
  · exact absurd same.symm (apart hd hs higher)

def around (s d : Site) : Bool :=
  d.first ≤ s.first && s.first ≤ d.last + 1

theorem around_iff : around s d = true ↔ d.first ≤ s.first ∧ s.first ≤ d.last + 1 := by
  simp only [around, Bool.and_eq_true, decide_eq_true_eq]

theorem countP_row {height : Nat} {row : List Site} (h : IsRow height row) {t : Site} (ht : t ∈ row)
    (start : t.first ≤ s.first) (stop : s.last ≤ t.last) : row.countP (around s) = 1 := by
  have := first_le_last s
  obtain ⟨front, back, rfl⟩ := List.append_of_mem ht
  have apart := List.pairwise_append.mp h.apart
  have none_front : front.countP (around s) = 0 := by
    refine List.countP_eq_zero.mpr fun r hr covers => ?_
    have := around_iff.mp covers
    have : r.Apart t := apart.2.2 r hr t List.mem_cons_self
    unfold Apart at this
    omega
  have none_back : back.countP (around s) = 0 := by
    refine List.countP_eq_zero.mpr fun r hr covers => ?_
    have := around_iff.mp covers
    have : t.Apart r := (List.pairwise_cons.mp apart.2.1).1 r hr
    unfold Apart at this
    omega
  have own : around s t = true := around_iff.mpr (by omega)
  simp [none_front, none_back, own]

/-- One level of each height up to its own stands around a level. -/
theorem countP_around {n height : Nat} {row : List Site} (h : IsRow height row) (hs : s ∈ rows n row) :
    (rows n row).countP (around s) + height = s.height + 1 := by
  have size := first_le_last s
  induction n generalizing height row with
  | zero => cases hs
  | succ n ih =>
    simp only [rows, List.countP_append]
    rcases List.mem_append.mp hs with deeper | here
    · obtain ⟨t, ht, start, stop, _⟩ := exists_around hs
      have above := ih h.next deeper
      have one := countP_row h ht start stop
      omega
    · have none_deeper : (rows n (row.flatMap children)).countP (around s) = 0 := by
        refine List.countP_eq_zero.mpr fun d hd covers => ?_
        obtain ⟨c, hc, front, back, _⟩ := exists_around hd
        obtain ⟨t, ht, hc⟩ := List.mem_flatMap.mp hc
        have := children_bounds hc
        have := around_iff.mp covers
        rcases eq_or_apart h here ht with rfl | apart | apart
        · omega
        · unfold Apart at apart
          omega
        · unfold Apart at apart
          omega
      have one := countP_row h here (Nat.le_refl _) (Nat.le_refl _)
      have level := h.height s here
      omega

theorem length_rows (n first height : Nat) {ps : List Part} (shallow : depthOf ps ≤ n) :
    (rows n (among first height ps)).length = (join ps).count '(' := by
  induction ps using Part.induction generalizing n first height with
  | nil => simp [among, rows_nil]
  | char c plain rest ih =>
    have other := plain_ne_open plain
    simpa [among, other] using ih n (first + c.utf8Size) height (by simpa [depthOf, depth] using shallow)
  | group inside rest inner tail =>
    simp only [depthOf, depth] at shallow
    obtain ⟨k, rfl⟩ : ∃ k, n = k + 1 := ⟨n - 1, by omega⟩
    have family := rows_cons_perm k ⟨first + 1, height, inside⟩
      (among (first + Text.size (group inside).text) height rest)
    have within := inner k (first + 1) (height + 1) (by omega)
    have later := tail (k + 1) (first + Text.size (group inside).text) height (by omega)
    have split := family.length_eq
    simp only [List.length_cons, List.length_append, children, within, later] at split
    refine split.trans ?_
    simp

end Site

/-- The matching pairs around byte `offset`, with the one that opens there. -/
def pairsAround (source : Text) (offset : Nat) : Set (Nat × Nat) :=
  {p | Pair source p.1 p.2 ∧ p.1 ≤ offset ∧ offset ≤ p.2}

/-- A level read off a matching pair of parentheses, and nothing made of it yet. -/
structure Level.OfPair (source : Text) (level : Level) : Prop where
  pair : Pair source level.start level.stop
  raw : Text.slice? source level.start (level.stop + 1) = some level.raw
  height : level.height = (pairsAround source level.start).ncard
  fresh : level.masked = [] ∧ level.nested = [] ∧ level.operations = []

namespace Site

variable {ps : List Part} {s : Site}

theorem nodup_below (ps : List Part) : (below ps).Nodup := by
  have distinct := nodup_all ps
  rw [all_eq] at distinct
  exact (List.pairwise_append.mp distinct).1

theorem pairsAround_eq (member : s ∈ below ps) :
    pairsAround (join ps) (s.first - 1) =
      ((((below ps).filter (around s)).map fun d => (d.first - 1, d.last)).toFinset : Set (Nat × Nat)) := by
  have first := (deeper_of_mem_below member).1
  ext ⟨start, stop⟩
  simp only [pairsAround, Set.mem_ofPred_eq, List.coe_toFinset, List.mem_map, List.mem_filter, Prod.mk.injEq]
  constructor
  · rintro ⟨pair, left, right⟩
    obtain ⟨d, hd, opens, closes⟩ := exists_of_pair pair
    exact ⟨d, ⟨hd, around_iff.mpr (by omega)⟩, by omega, closes⟩
  · rintro ⟨d, ⟨hd, covers⟩, rfl, rfl⟩
    have := around_iff.mp covers
    exact ⟨pair_of_mem_below hd, by omega, by omega⟩

theorem ncard_pairsAround (member : s ∈ below ps) :
    (pairsAround (join ps) (s.first - 1)).ncard = s.height := by
  have distinct : (((below ps).filter (around s)).map fun d => (d.first - 1, d.last)).Nodup := by
    refine List.Nodup.map_on ?_ ((nodup_below ps).filter _)
    intro a ha b hb same
    have ha := (List.mem_filter.mp ha).1
    have hb := (List.mem_filter.mp hb).1
    have := (deeper_of_mem_below ha).1
    have := (deeper_of_mem_below hb).1
    have starts := (Prod.mk.inj same).1
    exact eq_of_first ha hb (by omega)
  have count := countP_around (isRow_root ps).next (by simpa [below] using member)
  rw [pairsAround_eq member, Set.ncard_coe_finset, List.toFinset_card_of_nodup distinct, List.length_map,
    ← List.countP_eq_length_filter]
  simp only [List.flatMap_singleton] at count
  exact Nat.add_right_cancel count

theorem ofPair_level (member : s ∈ below ps) : s.level.OfPair (join ps) := by
  refine ⟨pair_of_mem_below member, ?_, (ncard_pairsAround member).symm, rfl, rfl, rfl⟩
  obtain ⟨b, v, split, start⟩ := group_of_mem_below member
  rw [raw_of_mem_below member, Text.slice?_eq_some_iff]
  refine ⟨b, v, by simp [split], ?_, ?_⟩
  · simp only [level]
    omega
  · simp only [size_group, level, last]
    omega

end Site

theorem levelsOf_ok_iff_balanced (source : Text) :
    ((∃ levels, levelsOf source = .ok levels) ↔ marker ∉ source ∧ Balanced source) ∧
      ∀ levels, levelsOf source = .ok levels →
        Visited levels ∧ levels.length = source.count '(' + 1 ∧
        ∃ inner, levels = inner ++ [⟨0, Text.size source, 0, source, [], [], []⟩] ∧
          (∀ level ∈ inner, level.OfPair source) ∧
          ∀ start stop, Pair source start stop →
            ∃! level, level ∈ inner ∧ level.start = start ∧ level.stop = stop := by
  constructor
  · constructor
    · rintro ⟨levels, found⟩
      obtain ⟨ps, rfl, unmarked, _⟩ := levelsOf_eq_ok_iff.mp found
      exact ⟨unmarked, balanced_iff.mpr ⟨ps, rfl⟩⟩
    · rintro ⟨unmarked, balanced⟩
      obtain ⟨ps, rfl⟩ := balanced_iff.mp balanced
      exact ⟨_, levelsOf_join unmarked⟩
  · intro levels found
    obtain ⟨ps, rfl, _, rfl⟩ := levelsOf_eq_ok_iff.mp found
    have listed : (all ps).map level =
        (below ps).map level ++ [⟨0, Text.size (join ps), 0, join ps, [], [], []⟩] := by
      rw [all_eq, List.map_append, List.map_singleton, root_level]
      rfl
    have count : (below ps).length = (join ps).count '(' := length_rows _ _ _ (Nat.le_refl (depthOf ps))
    refine ⟨visited_levels ps, by simp [all_eq, count], (below ps).map level, listed, ?_, ?_⟩
    · intro l hl
      obtain ⟨s, hs, rfl⟩ := List.mem_map.mp hl
      exact ofPair_level hs
    · intro start stop pair
      obtain ⟨s, hs, first, rfl⟩ := exists_of_pair pair
      refine ⟨s.level, ⟨List.mem_map_of_mem hs, by simp only [level]; omega, rfl⟩, ?_⟩
      rintro l ⟨hl, begins, _⟩
      obtain ⟨d, hd, rfl⟩ := List.mem_map.mp hl
      have := (deeper_of_mem_below hd).1
      have same : d.first = s.first := by
        simp only [level] at begins
        omega
      rw [eq_of_first hd hs same]

theorem levelsOf_ok_iff_balanced_siblings : ∃ levels, levelsOf "é(a(b))()".toList = .ok levels ∧
    Visited levels ∧ levels.length = "é(a(b))()".toList.count '(' + 1 ∧
      ∃ inner, levels = inner ++
          [⟨0, Text.size "é(a(b))()".toList, 0, "é(a(b))()".toList, [], [], []⟩] ∧
        (∀ level ∈ inner, level.OfPair "é(a(b))()".toList) ∧
        ∀ start stop, Pair "é(a(b))()".toList start stop →
          ∃! level, level ∈ inner ∧ level.start = start ∧ level.stop = stop := by
  have unmarked : marker ∉ "é(a(b))()".toList := by decide
  have balanced : Balanced "é(a(b))()".toList := by decide
  obtain ⟨levels, found⟩ := (levelsOf_ok_iff_balanced _).1.mpr ⟨unmarked, balanced⟩
  exact ⟨levels, found, (levelsOf_ok_iff_balanced _).2 levels found⟩

end EvalOrder
