import EvalOrder.Plan
import EvalOrder.Proofs.Discovery
import EvalOrder.Theory.Placement

/-! Masking by search is masking by place. When the next group is looked for, the text before it has no
opening parenthesis but, for a nested level, the very first one; and what that one opens is the whole text,
so it cannot be the group. The first occurrence is the group itself, whatever its look-alikes further on. -/
namespace EvalOrder

open EvalOrder.Part Site

theorem plain_of_isDigit {c : Char} (digit : c.isDigit = true) : isParenthesis c = false := by
  apply plain_of_ne
  · rintro rfl
    exact absurd digit (by decide)
  · rintro rfl
    exact absurd digit (by decide)

theorem plain_of_mem_aliasOf {k : Nat} {c : Char} (member : c ∈ aliasOf k) : isParenthesis c = false := by
  rcases List.mem_cons.mp member with rfl | digit
  · rfl
  · exact plain_of_isDigit (Nat.isDigit_of_mem_toDigits (by decide) (by decide) digit)

theorem plain_of_mem_masked {k : Nat} {ps : List Part} {c : Char} (member : c ∈ masked k ps) :
    isParenthesis c = false := by
  induction ps generalizing k with
  | nil => cases member
  | cons p ps ih =>
    cases p with
    | char d plain =>
      rcases List.mem_cons.mp member with rfl | later
      · exact plain
      · exact ih later
    | group inside =>
      rcases List.mem_append.mp member with here | later
      · exact plain_of_mem_aliasOf here
      · exact ih later

namespace Text

theorem replaceFirst_miss {old new : Text} {c : Char} {t : Text} (h : ¬ old <+: c :: t) :
    replaceFirst old new (c :: t) = c :: replaceFirst old new t := by
  rw [replaceFirst, if_neg]
  rwa [List.isPrefixOf_iff_prefix]

theorem replaceFirst_hit {old new t : Text} (h : old ≠ []) : replaceFirst old new (old ++ t) = new ++ t := by
  cases old with
  | nil => exact absurd rfl h
  | cons c old =>
    rw [List.cons_append, replaceFirst, if_pos]
    · rw [← List.cons_append, List.drop_left]
    · rw [List.isPrefixOf_iff_prefix, ← List.cons_append]
      exact List.prefix_append _ _

theorem replaceFirst_of_first {before old after new : Text} (nonempty : old ≠ [])
    (first : ∀ u v, before ++ old ++ after = u ++ old ++ v → before.length ≤ u.length) :
    replaceFirst old new (before ++ old ++ after) = before ++ new ++ after := by
  induction before with
  | nil => exact replaceFirst_hit nonempty
  | cons c before ih =>
    have miss : ¬ old <+: c :: (before ++ old ++ after) := by
      rintro ⟨v, same⟩
      have none_earlier := first [] v same.symm
      exact Nat.not_succ_le_zero _ none_earlier
    have later : ∀ u v, before ++ old ++ after = u ++ old ++ v → before.length ≤ u.length := by
      intro u v same
      exact Nat.le_of_succ_le_succ (first (c :: u) v (congrArg (c :: ·) same))
    have next := ih later
    simp only [List.cons_append] at next ⊢
    rw [replaceFirst_miss miss, next]

end Text

/-- A text with, or without, parentheses of its own around it. -/
def frame (own : Bool) (t : Text) : Text :=
  if own then '(' :: (t ++ [')']) else t

def frameFront (own : Bool) : Text :=
  if own then ['('] else []

def frameBack (own : Bool) : Text :=
  if own then [')'] else []

theorem frame_eq (own : Bool) (t : Text) : frame own t = frameFront own ++ t ++ frameBack own := by
  cases own with
  | false => simp [frame, frameFront, frameBack]
  | true => rfl

/-- What the own parenthesis opens is the whole text, which is longer than any group in it. -/
theorem not_group_prefix {w : Text} (plain : ∀ c ∈ w, isParenthesis c = false) (inside rest : List Part) :
    ¬ (group inside).text <+: frame true (w ++ join (group inside :: rest)) := by
  rintro ⟨tail, same⟩
  obtain ⟨qs, parts, _⟩ := exists_chars plain
  have whole : frame true (w ++ join (group inside :: rest)) =
      (group (qs ++ group inside :: rest)).text ++ [] := by
    rw [← parts]
    simp [frame]
  obtain ⟨equal, _⟩ := group_unique (same.trans whole)
  have member : inside ∈ groups (qs ++ group inside :: rest) := by simp [groups]
  rw [← equal] at member
  have := size_le_of_mem_groups member
  omega

theorem first_group (own : Bool) {w : Text} (plain : ∀ c ∈ w, isParenthesis c = false)
    (inside rest : List Part) :
    FirstAfter (frameFront own ++ w) (group inside).text (frame own (w ++ join (group inside :: rest))) := by
  have split : frame own (w ++ join (group inside :: rest)) =
      frameFront own ++ w ++ (group inside).text ++ (join rest ++ frameBack own) := by
    rw [frame_eq, join_cons]
    simp only [List.append_assoc]
  refine ⟨⟨_, split⟩, fun u v same => ?_⟩
  apply Nat.le_of_not_gt
  intro short
  -- an occurrence further to the left opens before the group does
  have earlier : u ++ ['('] <+: frameFront own ++ w := by
    have left : u ++ ['('] <+: frame own (w ++ join (group inside :: rest)) := by
      refine ⟨join inside ++ [')'] ++ v, ?_⟩
      rw [same]
      simp
    have right : frameFront own ++ w <+: frame own (w ++ join (group inside :: rest)) := by
      rw [split, List.append_assoc (frameFront own ++ w)]
      exact List.prefix_append _ _
    apply List.prefix_of_prefix_length_le left right
    rw [List.length_append]
    exact short
  have opens : ∀ {u' : Text}, u' ++ ['('] <+: w → False := by
    intro u' front
    have member : '(' ∈ w := front.subset (List.mem_append_right _ (List.mem_singleton_self _))
    exact absurd (plain '(' member) (by decide)
  cases own with
  | false => exact opens earlier
  | true =>
    cases u with
    | nil => exact not_group_prefix plain inside rest ⟨v, by rw [same]; rfl⟩
    | cons c u => exact opens (List.cons_prefix_cons.mp earlier).2

/-- One step of masking replaces the first group that is left, and nothing before it. -/
theorem replaceFirst_group (own : Bool) {w : Text} (plain : ∀ c ∈ w, isParenthesis c = false) (new : Text)
    (inside rest : List Part) :
    (group inside).text.replaceFirst new (frame own (w ++ join (group inside :: rest))) =
      frame own (w ++ (new ++ join rest)) := by
  have nonempty : (group inside).text ≠ [] := by simp
  obtain ⟨⟨after, split⟩, first⟩ := first_group own plain inside rest
  rw [split] at first ⊢
  rw [Text.replaceFirst_of_first nonempty first]
  have rest_eq : after = join rest ++ frameBack own := by
    rw [frame_eq, join_cons] at split
    simpa using split.symm
  rw [rest_eq, frame_eq]
  simp only [List.append_assoc]

def hideAll : Nat → List Text → Text → Text
  | _, [], t => t
  | k, raw :: rest, t => hideAll (k + 1) rest (raw.replaceFirst (aliasOf k) t)

theorem foldl_hide (others : List (Level × Nat)) (t : Text) (nested : List Nat) :
    others.foldl Level.hide (t, nested) =
      (hideAll nested.length (others.map fun other => other.1.raw) t, nested ++ others.map Prod.snd) := by
  induction others generalizing t nested with
  | nil => simp [hideAll]
  | cons other others ih =>
    rw [List.foldl_cons, Level.hide, ih]
    simp [hideAll]

theorem hideAll_groups (own : Bool) (k : Nat) {w : Text} (plain : ∀ c ∈ w, isParenthesis c = false)
    (front back : List Part) :
    hideAll k ((groups front).map fun inside => (group inside).text) (frame own (w ++ join (front ++ back))) =
      frame own (w ++ (masked k front ++ join back)) := by
  induction front generalizing k w with
  | nil => rfl
  | cons p front ih =>
    cases p with
    | char c plain_c =>
      have longer : ∀ d ∈ w ++ [c], isParenthesis d = false := by
        intro d hd
        rcases List.mem_append.mp hd with hd | hd
        · exact plain d hd
        · rw [List.mem_singleton.mp hd]
          exact plain_c
      have := ih k longer
      simpa [groups, masked] using this
    | group inside =>
      have longer : ∀ d ∈ w ++ aliasOf k, isParenthesis d = false := by
        intro d hd
        rcases List.mem_append.mp hd with hd | hd
        · exact plain d hd
        · exact plain_of_mem_aliasOf hd
      have := ih (k + 1) longer
      rw [groups, List.map_cons, hideAll, List.cons_append, replaceFirst_group own plain, masked,
        ← List.append_assoc, this]
      simp only [List.append_assoc]

theorem filter_frame (own : Bool) {t : Text} (plain : ∀ c ∈ t, isParenthesis c = false) :
    (frame own t).filter (!isParenthesis ·) = t := by
  have kept : t.filter (!isParenthesis ·) = t :=
    List.filter_eq_self.mpr fun c hc => by rw [plain c hc]; rfl
  cases own with
  | false => exact kept
  | true =>
    rw [frame, if_pos rfl, List.filter_cons_of_neg (by decide), List.filter_append, kept]
    exact List.append_nil t

/-- In a deepest-first list nothing at or after a level is held by it, so the bounds of the search do
not show. -/
theorem hidden_eq_filter {levels : List Level} {place : Nat} {level : Level}
    (deepest_first : levels.Pairwise fun a b => b.height ≤ a.height) (here : levels[place]? = some level) :
    Level.hidden levels place level = levels.zipIdx.filter fun other => level.holds other.1 := by
  obtain ⟨inside, here⟩ := List.getElem?_eq_some_iff.mp here
  have split : levels = levels.take place ++ level :: levels.drop (place + 1) := by
    rw [← here, ← List.drop_eq_getElem_cons, List.take_append_drop]
  have order := deepest_first
  rw [split] at order
  have low : ∀ other ∈ level :: levels.drop (place + 1), level.holds other = false := by
    intro other member
    have : other.height ≤ level.height := by
      rcases List.mem_cons.mp member with rfl | later
      · exact Nat.le_refl _
      · exact (List.pairwise_cons.mp (List.pairwise_append.mp order).2.1).1 other later
    cases h : level.holds other with
    | false => rfl
    | true =>
      simp only [Level.holds, Bool.and_eq_true, beq_iff_eq] at h
      omega
  have high : ∀ other ∈ levels.take place,
      other.height ≤ ((levels.head?.map Level.height).getD 0) := by
    intro other member
    have member' := List.mem_of_mem_take member
    cases levels with
    | nil => cases member'
    | cons top rest =>
      rcases List.mem_cons.mp member' with rfl | later
      · exact Nat.le_refl _
      · exact (List.pairwise_cons.mp deepest_first).1 other later
  have tail : ((level :: levels.drop (place + 1)).zipIdx (levels.take place).length).filter
      (fun other => level.holds other.1) = [] :=
    List.filter_eq_nil_iff.mpr fun other member =>
      Bool.eq_false_iff.mp (low other.1 (List.fst_mem_of_mem_zipIdx member))
  have parts : levels.zipIdx = (levels.take place).zipIdx ++
      (level :: levels.drop (place + 1)).zipIdx (levels.take place).length := by
    conv => lhs; rw [split, List.zipIdx_append, Nat.zero_add]
  rw [parts, List.filter_append, tail, List.append_nil, Level.hidden]
  apply List.filter_congr
  intro other member
  cases h : level.holds other.1 with
  | false => rw [Bool.and_false]
  | true =>
    have top := high other.1 (List.fst_mem_of_mem_zipIdx member)
    simp only [Level.holds, Bool.and_eq_true, beq_iff_eq] at h
    rw [Bool.and_true, decide_eq_true_eq]
    omega

namespace Site

def places (sites : List Site) (s : Site) : List Nat :=
  (sites.zipIdx.filter fun d => s.level.holds d.1.level).map Prod.snd

def aliased (sites : List Site) (s : Site) : Level :=
  { s.level with masked := masked 0 s.inside, nested := places sites s }

def finished (sites : List Site) (s : Site) : Level :=
  { s.level with
    masked := masked 0 s.inside, nested := places sites s, operations := operationsOf (masked 0 s.inside) }

theorem level_raw (s : Site) : s.level.raw = frame (s.height != 0) (join s.inside) := by
  by_cases outermost : s.height = 0
  · simp [level, frame, outermost]
  · simp [level, frame, outermost]

theorem raw_of_mem_children {s c : Site} (member : c ∈ s.children) :
    c.level.raw = (group c.inside).text := by
  have := (children_bounds member).2.2.1
  rw [level, if_neg (by omega)]

theorem map_raw_children (s : Site) :
    s.children.map (fun c => c.level.raw) = (groups s.inside).map fun inside => (group inside).text := by
  rw [← among_inside s.first (s.height + 1) s.inside, List.map_map]
  exact List.map_congr_left fun c hc => raw_of_mem_children hc

theorem map_fst_filter_zipIdx {α : Type} (p : α → Bool) (xs : List α) :
    (xs.zipIdx.filter fun d => p d.1).map Prod.fst = xs.filter p := by
  conv => rhs; rw [← List.zipIdx_map_fst 0 xs, List.filter_map]
  rfl

theorem map_fst_held {ps : List Part} {s : Site} (member : s ∈ all ps) :
    ((all ps).zipIdx.filter fun d => s.level.holds d.1.level).map Prod.fst = s.children := by
  rw [← filter_holds_all member]
  exact map_fst_filter_zipIdx (fun d => s.level.holds d.level) (all ps)

theorem mem_places {sites : List Site} {s : Site} {place : Nat} :
    place ∈ places sites s ↔ ∃ d, sites[place]? = some d ∧ s.level.holds d.level = true := by
  simp only [places, List.mem_map, List.mem_filter, Prod.exists, List.mem_zipIdx_iff_getElem?,
    exists_eq_right]

theorem mem_places_iff {ps : List Part} {s : Site} (member : s ∈ all ps) {place : Nat} :
    place ∈ places (all ps) s ↔ ∃ d ∈ s.children, (all ps)[place]? = some d := by
  simp only [mem_places, ← filter_holds_all member, List.mem_filter]
  constructor
  · rintro ⟨d, there, holds⟩
    exact ⟨d, ⟨List.mem_of_getElem? there, holds⟩, there⟩
  · rintro ⟨d, ⟨_, holds⟩, there⟩
    exact ⟨d, there, holds⟩

structure At (s : Site) (l : Level) : Prop where
  start : l.start = s.first - 1
  stop : l.stop = s.last
  height : l.height = s.height

theorem at_level (s : Site) : s.At s.level := ⟨rfl, rfl, rfl⟩

section Search

variable {ps : List Part} {view : Site → Level} {place : Nat} {s : Site}

theorem holds_view (placed : ∀ s : Site, s.At (view s)) (s d : Site) :
    (view s).holds (view d) = s.level.holds d.level := by
  simp only [Level.holds, Level.contains, (placed _).start, (placed _).stop, (placed _).height]
  rfl

theorem deepest_first (placed : ∀ s : Site, s.At (view s)) :
    ((all ps).map view).Pairwise fun a b => b.height ≤ a.height := by
  refine List.pairwise_map.mpr ((rows_precedes (isRow_root ps)).imp fun {a b} h => ?_)
  rw [(placed a).height, (placed b).height]
  exact h.elim Nat.le_of_lt fun same => Nat.le_of_eq same.1.symm

theorem hidden_view (placed : ∀ s : Site, s.At (view s)) (here : (all ps)[place]? = some s) :
    Level.hidden ((all ps).map view) place (view s) =
      ((all ps).zipIdx.filter fun d => s.level.holds d.1.level).map fun d => (view d.1, d.2) := by
  have listed : ((all ps).map view)[place]? = some (view s) := by
    rw [List.getElem?_map, here]
    rfl
  rw [hidden_eq_filter (deepest_first placed) listed, List.zipIdx_map, List.filter_map]
  simp only [← holds_view placed]
  rfl

theorem fst_hidden_view (placed : ∀ s : Site, s.At (view s)) (here : (all ps)[place]? = some s) :
    (Level.hidden ((all ps).map view) place (view s)).map Prod.fst = s.children.map view := by
  rw [hidden_view placed here, ← map_fst_held (List.mem_of_getElem? here), List.map_map, List.map_map]
  rfl

theorem map_fst_hidden (here : (all ps)[place]? = some s) :
    (Level.hidden ((all ps).map level) place s.level).map Prod.fst = s.children.map level :=
  fst_hidden_view at_level here

theorem searched_view (placed : ∀ s : Site, s.At (view s)) (raws : ∀ s : Site, (view s).raw = s.level.raw)
    (here : (all ps)[place]? = some s) {front back : List Part} (split : s.inside = front ++ back) :
    Level.searched ((all ps).map view) place (view s) (groups front).length =
      frame (s.height != 0) (masked (view s).nested.length front ++ join back) := by
  have raws_front : ((Level.hidden ((all ps).map view) place (view s)).take (groups front).length).map
      (fun other => other.1.raw) = (groups front).map fun inside => (group inside).text := by
    have raw_of_pair : (fun other : Level × Nat => other.1.raw) = Level.raw ∘ Prod.fst := rfl
    have of_children : s.children.map (Level.raw ∘ view) = s.children.map fun c => c.level.raw :=
      List.map_congr_left fun c _ => raws c
    rw [raw_of_pair, List.map_take, ← List.map_map, fst_hidden_view placed here, List.map_map, of_children,
      map_raw_children, split, groups_append, List.map_append]
    exact List.take_left' (List.length_map _)
  have run :=
    hideAll_groups (s.height != 0) (view s).nested.length (w := []) (fun _ h => absurd h List.not_mem_nil)
    front back
  rw [List.nil_append, List.nil_append, ← split, ← level_raw, ← raws s] at run
  rw [Level.searched, foldl_hide, raws_front]
  exact run

theorem mask_view (placed : ∀ s : Site, s.At (view s)) (raws : ∀ s : Site, (view s).raw = s.level.raw)
    (here : (all ps)[place]? = some s) :
    Level.mask ((all ps).map view) place (view s) =
      { view s with
        masked := masked (view s).nested.length s.inside,
        nested := (view s).nested ++ places (all ps) s } := by
  have text := searched_view placed raws here (List.append_nil s.inside).symm
  have all_hidden : (Level.hidden ((all ps).map view) place (view s)).length ≤ (groups s.inside).length := by
    have lengths := congrArg List.length (fst_hidden_view placed here)
    have counted := congrArg List.length (map_raw_children s)
    simp only [List.length_map] at lengths counted
    omega
  have nested :
      ((Level.hidden ((all ps).map view) place (view s)).foldl Level.hide ((view s).raw, (view s).nested)).2 =
      (view s).nested ++ places (all ps) s := by
    simp only [foldl_hide, hidden_view placed here, List.map_map]
    rfl
  rw [Level.searched, List.take_of_length_le all_hidden, join_nil, List.append_nil] at text
  rw [Level.mask]
  simp only [text, nested, filter_frame _ fun c hc => plain_of_mem_masked hc]

end Search

end Site

theorem maskAll_view {view : Site → Level} (placed : ∀ s : Site, s.At (view s))
    (raws : ∀ s : Site, (view s).raw = s.level.raw) (ps : List Part) :
    maskAll ((all ps).map view) = (all ps).map fun s =>
      { view s with
        masked := masked (view s).nested.length s.inside,
        nested := (view s).nested ++ places (all ps) s } := by
  apply List.ext_getElem?
  intro place
  rw [maskAll, List.getElem?_mapIdx, List.getElem?_map, List.getElem?_map]
  cases here : (all ps)[place]? with
  | none => rfl
  | some s => exact congrArg some (mask_view placed raws here)

theorem maskAll_levels (ps : List Part) : maskAll ((all ps).map level) = (all ps).map (aliased (all ps)) :=
  maskAll_view at_level (fun _ => rfl) ps

theorem split_maskAll (ps : List Part) :
    (maskAll ((all ps).map level)).map Level.split = (all ps).map (finished (all ps)) := by
  rw [maskAll_levels, List.map_map]
  rfl

theorem splitLevelsOf_join {ps : List Part} (unmarked : marker ∉ join ps) :
    splitLevelsOf (join ps) = .ok ((all ps).map (finished (all ps))) := by
  rw [splitLevelsOf, levelsOf_join unmarked]
  change Except.ok ((maskAll ((all ps).map level)).map Level.split) = _
  rw [split_maskAll]

theorem parts_of_splitLevelsOf {source : Text} {levels : List Level}
    (accepted : splitLevelsOf source = .ok levels) :
    ∃ ps, source = join ps ∧ marker ∉ join ps ∧ levels = (all ps).map (finished (all ps)) := by
  cases found : levelsOf source with
  | error failure =>
    rw [splitLevelsOf, found] at accepted
    cases accepted
  | ok list =>
    obtain ⟨ps, rfl, unmarked, _⟩ := levelsOf_eq_ok_iff.mp found
    rw [splitLevelsOf_join unmarked] at accepted
    exact ⟨ps, rfl, unmarked, (Except.ok.inj accepted).symm⟩

end EvalOrder
