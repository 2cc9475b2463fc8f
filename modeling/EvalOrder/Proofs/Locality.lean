import EvalOrder.Proofs.Descent
import EvalOrder.Proofs.Steps
import Mathlib

/-! What a level is does not depend on what is around it. Main statement: the text between the parentheses of
a level, taken as a source of its own, has the same levels at other places, and they are masked, split
and put back in the same way. -/
namespace EvalOrder

open EvalOrder.Part Site

def Level.encloses (level other : Level) : Bool :=
  level.start < other.start && other.stop < level.stop

def Level.shift (bytes heights : Nat) (level : Level) : Level :=
  { level with start := level.start + bytes, stop := level.stop + bytes, height := level.height + heights }

/-- The same result, or both times a failure at the same alias with as many levels to name. -/
def SameOutcome {α : Type} (a b : Level) (r r' : Except Failure α) : Prop :=
  (∃ x, r = .ok x ∧ r' = .ok x) ∨
    ∃ name available, r = .error ⟨.unresolved name available, [a.span]⟩ ∧
      r' = .error ⟨.unresolved name available, [b.span]⟩

/-- The levels of a text taken alone, and the levels at the given places of a greater source: each pair has
the same masked text, the same operations and the same levels nested in it, and is put back alike. -/
structure Counterparts (alone around : List Level) (places : List Nat) : Prop where
  length : places.length = alone.length
  pairs : ∀ (k p : Nat) (a : Level), places[k]? = some p → alone[k]? = some a →
    ∃ b, around[p]? = some b ∧ a.masked = b.masked ∧ a.operations = b.operations ∧
      a.nested.map (fun j => places[j]?) = b.nested.map some ∧
      ∃ r r', stepsOf alone a = .ended r ∧ stepsOf around b = .ended r' ∧ SameOutcome a b r r'

section Outcome

variable {levels levels' : List Level} {a b : Level}

theorem filling?_same (names : ∀ name, a.named? levels name = b.named? levels' name) (token : Token) :
    token.filling? levels a = token.filling? levels' b := by
  by_cases named : token.kind = .aliasName
  · have index : token.index? = indexOfAlias? token.text := if_pos named
    rw [Token.filling?, Token.filling?, if_pos named, if_pos named, index]
    exact names token.text
  · rw [Token.filling?, Token.filling?, if_neg named, if_neg named]

theorem onePass_same (names : ∀ name, a.named? levels name = b.named? levels' name)
    (count : a.nested.length = b.nested.length) (t : Text) :
    SameOutcome a b (onePass levels a t) (onePass levels' b t) := by
  rw [onePass, onePass]
  induction tokenize t with
  | nil => exact .inl ⟨[], rfl, rfl⟩
  | cons token rest ih =>
    rw [substitute, substitute, ← filling?_same names token]
    cases token.filling? levels a with
    | none =>
      refine .inr ⟨token.text, a.nested.length, rfl, ?_⟩
      rw [count]
      rfl
    | some front =>
      rcases ih with ⟨u, left, right⟩ | ⟨name, available, left, right⟩
      · exact .inl ⟨front ++ u, by rw [left]; rfl, by rw [right]; rfl⟩
      · exact .inr ⟨name, available, by rw [left]; rfl, by rw [right]; rfl⟩

theorem mapM_same {α β : Type} {f g : α → Except Failure β} {xs : List α}
    (same : ∀ x ∈ xs, SameOutcome a b (f x) (g x)) : SameOutcome a b (xs.mapM f) (xs.mapM g) := by
  induction xs with
  | nil => exact .inl ⟨[], rfl, rfl⟩
  | cons x xs ih =>
    rw [List.mapM_cons, List.mapM_cons]
    rcases same x List.mem_cons_self with ⟨y, left, right⟩ | ⟨name, available, left, right⟩
    · rw [left, right]
      rcases ih fun z hz => same z (List.mem_cons_of_mem _ hz) with
        ⟨ys, left', right'⟩ | ⟨name, available, left', right'⟩
      · exact .inl ⟨y :: ys, by rw [left']; rfl, by rw [right']; rfl⟩
      · exact .inr ⟨name, available, by rw [left']; rfl, by rw [right']; rfl⟩
    · exact .inr ⟨name, available, by rw [left]; rfl, by rw [right]; rfl⟩

end Outcome

theorem places_through {α β : Type} {xs : List α} {pairs : List (β × Nat)} {g : α → β} {p : α → Bool}
    {q : β → Bool} (listed : xs.map g = pairs.map Prod.fst) (same : ∀ x ∈ xs, q (g x) = p x) :
    ((xs.zipIdx.filter fun x => p x.1).map Prod.snd).map (fun j => (pairs.map Prod.snd)[j]?) =
      ((pairs.filter fun y => q y.1).map Prod.snd).map some := by
  have zipped : xs.zipIdx.map (Prod.map g id) = pairs.zipIdx.map (Prod.map Prod.fst id) := by
    rw [← List.zipIdx_map, ← List.zipIdx_map, listed]
  have kept : (xs.zipIdx.filter fun x => p x.1).map Prod.snd =
      (pairs.zipIdx.filter fun y => q y.1.1).map Prod.snd := by
    have left : (xs.zipIdx.filter fun x => p x.1).map Prod.snd =
        ((xs.zipIdx.map (Prod.map g id)).filter fun y => q y.1).map Prod.snd := by
      rw [List.filter_map, List.map_map]
      have := List.filter_congr (l := xs.zipIdx) (p := fun x => p x.1) (q := fun x => q (g x.1))
        fun x hx => (same x.1 (List.fst_mem_of_mem_zipIdx hx)).symm
      rw [this]
      rfl
    rw [left, zipped, List.filter_map, List.map_map]
    rfl
  have found : ((pairs.zipIdx.filter fun y => q y.1.1).map Prod.snd).map
      (fun j => (pairs.map Prod.snd)[j]?) =
      (pairs.zipIdx.filter fun y => q y.1.1).map fun y => some y.1.2 := by
    rw [List.map_map]
    apply List.map_congr_left
    intro y hy
    have at_place := List.mem_zipIdx_iff_getElem?.mp (List.mem_filter.mp hy).1
    rw [Function.comp_apply, List.getElem?_map, at_place]
    rfl
  rw [kept, found]
  have unplaced := map_fst_filter_zipIdx (fun y : β × Nat => q y.1) pairs
  rw [← unplaced, List.map_map, List.map_map]
  rfl

namespace Site

def region (ps : List Part) (s : Site) (place : Nat) : List (Site × Nat) :=
  ((all ps).zipIdx.filter fun d => between s.first s.last d.1) ++ [(s, place)]

variable {ps : List Part} {s : Site} {place : Nat}

theorem root_moved (s : Site) : (root s.inside).moved s.first s.height = s := by
  simp only [moved, root, Nat.zero_add]

theorem region_listed (member : s ∈ all ps) (place : Nat) :
    (all s.inside).map (moved s.first s.height) = (region ps s place).map Prod.fst := by
  have inner := moved_below_whole member
  rw [all_eq, List.map_append, inner, List.map_singleton, root_moved, region, List.map_append,
    map_fst_filter_zipIdx (between s.first s.last)]
  rfl

theorem getElem?_of_mem_region (here : (all ps)[place]? = some s) {y : Site × Nat}
    (member : y ∈ region ps s place) : (all ps)[y.2]? = some y.1 := by
  rcases List.mem_append.mp member with inner | itself
  · exact List.mem_zipIdx_iff_getElem?.mp (List.mem_filter.mp inner).1
  · rw [List.mem_singleton.mp itself]
    exact here

theorem between_of_holds (member : s ∈ all ps) {a d : Site} (ha : a ∈ all ps)
    (inside : a = s ∨ between s.first s.last a = true) (hd : d ∈ all ps)
    (holds : a.level.holds d.level = true) : between s.first s.last d = true := by
  have child : d ∈ a.children := by
    rw [← filter_holds_all ha]
    exact List.mem_filter.mpr ⟨hd, holds⟩
  have := children_bounds child
  rcases inside with rfl | inside
  · exact between_iff.mpr ⟨this.1, this.2.1⟩
  · have := between_iff.mp inside
    exact between_iff.mpr ⟨by omega, by omega⟩

theorem places_eq_region (here : (all ps)[place]? = some s) {a : Site}
    (ha : a ∈ all ps) (inside : a = s ∨ between s.first s.last a = true) :
    places (all ps) a = ((region ps s place).filter fun y => a.level.holds y.1.level).map Prod.snd := by
  have member : s ∈ all ps := List.mem_of_getElem? here
  have above : s.height ≤ a.height := by
    rcases inside with rfl | inside
    · exact Nat.le_refl _
    · exact Nat.le_of_lt (height_lt_of_between member ha inside)
  have not_held : a.level.holds s.level = false := by
    rw [← Bool.not_eq_true]
    intro holds
    have := (holds_level.mp holds).1
    omega
  have last : [(s, place)].filter (fun y => a.level.holds y.1.level) = [] := by
    rw [List.filter_cons_of_neg (by simp [not_held])]
    rfl
  rw [places, region, List.filter_append, last, List.append_nil, List.filter_filter]
  congr 1
  apply List.filter_congr
  intro d hd
  cases holds : a.level.holds d.1.level with
  | false => rfl
  | true => rw [between_of_holds member ha inside (List.fst_mem_of_mem_zipIdx hd) holds]; rfl

theorem holds_moved {b c : Site} {k h : Nat} (bytes : 0 < k)
    (placed : c.height = b.height + 1 → 0 < c.first) :
    (b.moved k h).level.holds (c.moved k h).level = b.level.holds c.level := by
  apply Bool.eq_iff_iff.mpr
  rw [holds_level, holds_level]
  simp only [moved, Site.last]
  constructor
  · rintro ⟨height, left, right⟩
    have := placed (by omega)
    exact ⟨by omega, by omega, by omega⟩
  · rintro ⟨height, left, right⟩
    have := placed height
    exact ⟨by omega, by omega, by omega⟩

theorem nested_through (here : (all ps)[place]? = some s) (nested : 0 < s.first) {d : Site}
    (inside : (d.moved s.first s.height) ∈ all ps)
    (within : d.moved s.first s.height = s ∨ between s.first s.last (d.moved s.first s.height) = true) :
    (places (all s.inside) d).map (fun j => ((region ps s place).map Prod.snd)[j]?) =
      (places (all ps) (d.moved s.first s.height)).map some := by
  rw [places_eq_region here inside within, places]
  refine places_through (p := fun c => d.level.holds c.level)
    (q := fun c => (d.moved s.first s.height).level.holds c.level)
    (region_listed (List.mem_of_getElem? here) place) fun c hc => holds_moved nested fun height => ?_
  rcases eq_root_or_deeper hc with rfl | deeper
  · cases height
  · exact deeper.1

theorem encloses_level (nested : 0 < s.first) (d : Site) :
    s.level.encloses d.level = between s.first s.last d := by
  apply Bool.eq_iff_iff.mpr
  rw [between_iff, Level.encloses, Bool.and_eq_true, decide_eq_true_eq, decide_eq_true_eq]
  change s.first - 1 < d.first - 1 ∧ d.last < s.last ↔ _
  omega

theorem region_places (nested : 0 < s.first) (place : Nat) :
    (((all ps).map level).zipIdx.filter fun other => s.level.encloses other.1).map Prod.snd ++ [place] =
      (region ps s place).map Prod.snd := by
  have inside : (fun other : Level × Nat => s.level.encloses other.1) ∘ Prod.map level id =
      fun d => between s.first s.last d.1 := by
    funext d
    exact encloses_level nested d.1
  rw [List.zipIdx_map, List.filter_map, inside, List.map_map, region, List.map_append]
  rfl

theorem level_moved {d : Site} (deeper : 0 < d.first ∧ 0 < d.height) (k h : Nat) :
    (d.moved k h).level = d.level.shift k h := by
  have start : d.first + k - 1 = d.first - 1 + k := by omega
  have last : (d.moved k h).last = d.last + k := by
    simp only [Site.last, moved]
    omega
  have inner : ¬ d.height = 0 := by omega
  have inner' : ¬ (d.moved k h).height = 0 :=
    Nat.ne_of_gt (Nat.lt_of_lt_of_le deeper.2 (Nat.le_add_right _ _))
  rw [level, level, Level.shift, last, if_neg inner, if_neg inner']
  simp only [moved, start]

theorem shift_below (member : s ∈ all ps) (nested : 0 < s.first) :
    ((below s.inside).map level).map (Level.shift s.first s.height) =
      ((all ps).map level).filter s.level.encloses := by
  have inside : s.level.encloses ∘ level = between s.first s.last := by
    funext d
    exact encloses_level nested d
  rw [List.filter_map, inside, ← moved_below_whole member, List.map_map, List.map_map]
  apply List.map_congr_left
  intro d hd
  exact (level_moved (deeper_of_mem_below hd) _ _).symm

/-- A site of the text of `s` and the site of the source that it becomes. -/
theorem counterpart (here : (all ps)[place]? = some s) {k p : Nat} {d : Site}
    (hp : ((region ps s place).map Prod.snd)[k]? = some p) (hd : (all s.inside)[k]? = some d) :
    (all ps)[p]? = some (d.moved s.first s.height) ∧
      (d.moved s.first s.height = s ∨ between s.first s.last (d.moved s.first s.height) = true) := by
  rw [List.getElem?_map, Option.map_eq_some_iff] at hp
  obtain ⟨y, hy, rfl⟩ := hp
  have listed := congrArg (fun l => l[k]?) (region_listed (List.mem_of_getElem? here) place)
  simp only [List.getElem?_map, hd, hy, Option.map_some, Option.some.injEq] at listed
  have in_region := List.mem_of_getElem? hy
  rw [listed]
  refine ⟨getElem?_of_mem_region here in_region, ?_⟩
  rcases List.mem_append.mp in_region with inner | itself
  · exact .inr (List.mem_filter.mp inner).2
  · rw [List.mem_singleton.mp itself]
    exact .inl rfl

end Site

theorem inside_as_alone {source : Text} {levels : List Level} {place : Nat} {level : Level}
    (found : levelsOf source = .ok levels) (here : levels[place]? = some level) (nested : 1 ≤ level.height) :
    ∃ core inner, Text.slice? source (level.start + 1) level.stop = some core ∧
      levelsOf core = .ok (inner ++ [Level.outermost core]) ∧
      inner.map (Level.shift (level.start + 1) level.height) = levels.filter level.encloses ∧
      Counterparts ((maskAll (inner ++ [Level.outermost core])).map Level.split)
        ((maskAll levels).map Level.split)
        ((levels.zipIdx.filter fun other => level.encloses other.1).map Prod.snd ++ [place]) := by
  obtain ⟨ps, rfl, unmarked, rfl⟩ := levelsOf_eq_ok_iff.mp found
  rw [List.getElem?_map, Option.map_eq_some_iff] at here
  obtain ⟨s, here, rfl⟩ := here
  have member : s ∈ all ps := List.mem_of_getElem? here
  have first : 0 < s.first := by
    rcases eq_root_or_deeper member with rfl | deeper
    · exact absurd nested (Nat.not_succ_le_zero 0)
    · exact deeper.1
  have start : s.level.start + 1 = s.first := Nat.sub_add_cancel first
  have listed : (below s.inside).map Site.level ++ [Level.outermost (join s.inside)] =
      (all s.inside).map Site.level := by
    rw [all_eq, List.map_append, List.map_singleton, root_level]
  refine ⟨join s.inside, (below s.inside).map Site.level, ?_, ?_, ?_, ?_⟩
  · obtain ⟨before, after, source, size⟩ := in_of_mem_all member
    rw [start]
    exact Text.slice?_eq_some_iff.mpr ⟨before, after, source, size, by rw [size]; rfl⟩
  · rw [listed]
    exact levelsOf_join (unmarked_inside unmarked member)
  · rw [start]
    exact shift_below member first
  · rw [listed, split_maskAll, split_maskAll, region_places first place]
    constructor
    · have lengths := congrArg List.length (region_listed member place)
      simpa using lengths.symm
    · intro k p a hp ha
      rw [List.getElem?_map, Option.map_eq_some_iff] at ha
      obtain ⟨d, hd, rfl⟩ := ha
      obtain ⟨there, within⟩ := counterpart here hp hd
      have member' := List.mem_of_getElem? there
      have through := nested_through here first member' within
      refine ⟨finished (all ps) (d.moved s.first s.height), by rw [List.getElem?_map, there]; rfl,
        rfl, rfl, through, ?_⟩
      have names :
          ∀ name, (d.finished (all s.inside)).named? ((all s.inside).map (finished (all s.inside))) name =
          (finished (all ps) (d.moved s.first s.height)).named? ((all ps).map (finished (all ps))) name := by
        intro name
        rw [named?_finished (List.mem_of_getElem? hd), named?_finished member']
        rfl
      have count : (d.finished (all s.inside)).nested.length =
          (finished (all ps) (d.moved s.first s.height)).nested.length := by
        have := congrArg List.length through
        rwa [List.length_map, List.length_map] at this
      have harmless := harmless_finished unmarked _ (List.mem_map_of_mem member')
      have harmless_alone := harmless_finished (unmarked_inside unmarked member) _
        (List.mem_map_of_mem (List.mem_of_getElem? hd))
      refine ⟨_, _, stepsOf_eq harmless_alone, stepsOf_eq harmless, ?_⟩
      rw [passesOf_finished, passesOf_finished]
      exact mapM_same fun t _ => onePass_same names count t

theorem inside_as_alone_after_sibling : ∃ levels level,
    levelsOf "(c)&(b+(a)9|(b))".toList = .ok levels ∧ levels[3]? = some level ∧ 1 ≤ level.height ∧
      ∃ core inner,
        Text.slice? "(c)&(b+(a)9|(b))".toList (level.start + 1) level.stop = some core ∧
        levelsOf core = .ok (inner ++ [Level.outermost core]) ∧
        inner.map (Level.shift (level.start + 1) level.height) = levels.filter level.encloses ∧
        Counterparts ((maskAll (inner ++ [Level.outermost core])).map Level.split)
          ((maskAll levels).map Level.split)
          ((levels.zipIdx.filter fun other => level.encloses other.1).map Prod.snd ++ [3]) := by
  have found : levelsOf "(c)&(b+(a)9|(b))".toList = .ok [⟨7, 9, 2, "(a)".toList, [], [], []⟩,
      ⟨12, 14, 2, "(b)".toList, [], [], []⟩, ⟨0, 2, 1, "(c)".toList, [], [], []⟩,
      ⟨4, 15, 1, "(b+(a)9|(b))".toList, [], [], []⟩, Level.outermost "(c)&(b+(a)9|(b))".toList] := by cbv
  exact ⟨_, _, found, rfl, Nat.le_refl 1, inside_as_alone found rfl (Nat.le_refl 1)⟩

end EvalOrder
