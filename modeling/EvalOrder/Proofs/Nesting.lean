import EvalOrder.Proofs.Direct
import EvalOrder.Proofs.RoundTrip
import EvalOrder.Theory.Nesting

/-! Main statement: the lists of nested levels are the tree of the parentheses. A deeper level has the
smaller place, and levels of one height stand in the order of the source; so a list grows, in places and
in bytes, and ends before its own level. -/
namespace EvalOrder

open EvalOrder.Part Site

theorem zipIdx_increasing {α : Type} (xs : List α) : xs.zipIdx.Pairwise fun a b => a.2 < b.2 := by
  have numbers : (xs.zipIdx.map Prod.snd).Pairwise (· < ·) := by
    rw [List.zipIdx_map_snd]
    exact List.pairwise_lt_range'
  exact List.pairwise_map.mp numbers

namespace Site

section Places

variable {ps : List Part} {s c d : Site} {i j : Nat}

theorem precedes_of_lt (hc : (all ps)[i]? = some c) (hd : (all ps)[j]? = some d) (before : i < j) :
    c.Precedes d := by
  obtain ⟨hi, rfl⟩ := List.getElem?_eq_some_iff.mp hc
  obtain ⟨hj, rfl⟩ := List.getElem?_eq_some_iff.mp hd
  exact List.pairwise_iff_getElem.mp (rows_precedes (isRow_root ps)) i j hi hj before

theorem place_unique (hc : (all ps)[i]? = some c) (again : (all ps)[j]? = some c) : i = j := by
  obtain ⟨inside, _⟩ := List.getElem?_eq_some_iff.mp hc
  exact (List.getElem?_inj inside (nodup_all ps)).mp (hc.trans again.symm)

theorem place_lt_of_deeper (hc : (all ps)[i]? = some c) (hd : (all ps)[j]? = some d)
    (deeper : d.height < c.height) :
    i < j := by
  rcases Nat.lt_trichotomy i j with before | rfl | after
  · exact before
  · cases hc.symm.trans hd
    exact absurd deeper (Nat.lt_irrefl _)
  · rcases precedes_of_lt hd hc after with lower | same
    · exact absurd lower (Nat.lt_asymm deeper)
    · exact absurd same.1 (Nat.ne_of_lt deeper)

theorem places_increasing (sites : List Site) (s : Site) : (places sites s).Pairwise (· < ·) :=
  List.pairwise_map.mpr ((zipIdx_increasing sites).filter _)

end Places

section Nesting

variable {ps : List Part} {s c d : Site} {view : Site → Level}

def Covers (s : Site) (q : Nat) : Prop :=
  s.first ≤ q ∧ q < s.last

instance (s : Site) (q : Nat) : Decidable (s.Covers q) :=
  inferInstanceAs (Decidable (_ ∧ _))

theorem between_of_covers {q : Nat} (hs : s ∈ all ps) (hd : d ∈ all ps) (here : s.Covers q)
    (there : d.Covers q)
    (higher : d.height < s.height) : between d.first d.last s = true := by
  obtain ⟨first, last⟩ := here
  obtain ⟨first', last'⟩ := there
  rcases in_child_or_beside (isRow_root ps) hd hs higher with ⟨e, child, front, back⟩ | beside | beside
  · have around := children_bounds child
    exact between_iff.mpr (by omega)
  · omega
  · omega

theorem eq_of_covers {q : Nat} (hs : s ∈ all ps) (hd : d ∈ all ps) (here : s.Covers q) (there : d.Covers q)
    (level : d.height = s.height) : d = s := by
  obtain ⟨first, last⟩ := here
  obtain ⟨first', last'⟩ := there
  rcases eq_or_apart_of_height hd hs level with same | apart | apart
  · exact same
  · unfold Apart at apart
    omega
  · unfold Apart at apart
    omega

theorem covers_of_between (inside : between s.first s.last c = true) : s.Covers c.first := by
  have bounds := between_iff.mp inside
  have order := first_le_last c
  exact ⟨by omega, by omega⟩

theorem between_of_around (hs : s ∈ all ps) (hd : d ∈ all ps) (inside : between s.first s.last c = true)
    (inside' : between d.first d.last c = true) (higher : d.height < s.height) :
    between d.first d.last s = true :=
  between_of_covers hs hd (covers_of_between inside) (covers_of_between inside') higher

theorem eq_of_around (hs : s ∈ all ps) (hd : d ∈ all ps) (inside : between s.first s.last c = true)
    (inside' : between d.first d.last c = true) (level : d.height = s.height) : d = s :=
  eq_of_covers hs hd (covers_of_between inside) (covers_of_between inside') level

theorem parent_unique (hs : s ∈ all ps) (hd : d ∈ all ps) (child : c ∈ s.children) (again : c ∈ d.children) :
    d = s := by
  have bounds := children_bounds child
  have bounds' := children_bounds again
  have inside := between_iff.mpr ⟨bounds.1, bounds.2.1⟩
  have inside' := between_iff.mpr ⟨bounds'.1, bounds'.2.1⟩
  exact eq_of_around hs hd inside inside' (by omega)

theorem innermost_iff (placed : ∀ s : Site, s.At (view s)) (hs : s ∈ all ps) (hc : c ∈ all ps) :
    (view s).Innermost ((all ps).map view) (view c) ↔ c ∈ s.children := by
  rw [← rightAround_iff placed hs hc]
  constructor
  · rintro ⟨around, alone⟩
    refine ⟨around, fun other member within around' => ?_⟩
    obtain ⟨d, hd, rfl⟩ := List.mem_map.mp member
    have below := height_lt_of_between hs hd ((surrounds_iff placed hs hd).mp within)
    rcases alone _ member around' with same | outside
    · have heights := congrArg Level.height same
      rw [(placed d).height, (placed s).height] at heights
      omega
    · have above := height_lt_of_between hd hs ((surrounds_iff placed hd hs).mp outside)
      omega
  · intro right
    refine ⟨right.1, fun other member around' => ?_⟩
    have inside := (surrounds_iff placed hs hc).mp right.1
    obtain ⟨d, hd, rfl⟩ := List.mem_map.mp member
    have inside' := (surrounds_iff placed hd hc).mp around'
    rcases Nat.lt_trichotomy d.height s.height with higher | level | deeper
    · exact .inr ((surrounds_iff placed hd hs).mpr (between_of_around hs hd inside inside' higher))
    · exact .inl (congrArg view (eq_of_around hs hd inside inside' level))
    · have within := between_of_around hd hs inside' inside deeper
      exact absurd around' (right.2 _ member ((surrounds_iff placed hs hd).mpr within))

end Nesting

section Aliased

variable {ps : List Part} {s : Site} {i place : Nat} {level inner : Level}

theorem exists_of_aliased (there : ((all ps).map (aliased (all ps)))[place]? = some level) :
    ∃ s, (all ps)[place]? = some s ∧ level = s.aliased (all ps) := by
  rw [List.getElem?_map, Option.map_eq_some_iff] at there
  obtain ⟨s, here, rfl⟩ := there
  exact ⟨s, here, rfl⟩

theorem aliased_at (here : (all ps)[place]? = some s) :
    ((all ps).map (aliased (all ps)))[place]? = some (s.aliased (all ps)) := by
  rw [List.getElem?_map, here]
  rfl

theorem child_of_nested (member : s ∈ all ps) (listed : i ∈ (s.aliased (all ps)).nested)
    (there : ((all ps).map (aliased (all ps)))[i]? = some inner) :
    ∃ c ∈ s.children, (all ps)[i]? = some c ∧ inner = c.aliased (all ps) := by
  obtain ⟨c, child, here⟩ := (mem_places_iff member).mp listed
  rw [aliased_at here, Option.some.injEq] at there
  exact ⟨c, child, here, there.symm⟩

theorem nests_aliased (here : (all ps)[place]? = some s) :
    (s.aliased (all ps)).Nests ((all ps).map (aliased (all ps))) place := by
  have member : s ∈ all ps := List.mem_of_getElem? here
  have placed := at_aliased (all ps)
  constructor
  · intro i
    refine (mem_places_iff member).trans ?_
    constructor
    · rintro ⟨c, child, at_c⟩
      exact ⟨_, aliased_at at_c, (innermost_iff placed member (List.mem_of_getElem? at_c)).mpr child⟩
    · rintro ⟨inner, there, innermost⟩
      obtain ⟨c, at_c, rfl⟩ := exists_of_aliased there
      exact ⟨c, (innermost_iff placed member (List.mem_of_getElem? at_c)).mp innermost, at_c⟩
  · refine (places_increasing (all ps) s).imp_of_mem ?_
    intro i j hi hj before a b ha hb
    obtain ⟨c, child, at_c, rfl⟩ := child_of_nested member hi ha
    obtain ⟨d, child', at_d, rfl⟩ := child_of_nested member hj hb
    have height := (children_bounds child).2.2.1
    have height' := (children_bounds child').2.2.1
    rcases precedes_of_lt at_c at_d before with deeper | ⟨_, apart⟩
    · omega
    · unfold Apart at apart
      have stop : (c.aliased (all ps)).stop = c.last := rfl
      have start : (d.aliased (all ps)).start = d.first - 1 := rfl
      omega
  · exact (places_increasing (all ps) s).imp fun before => Nat.ne_of_lt before
  · intro i listed inner there
    obtain ⟨c, child, at_c, rfl⟩ := child_of_nested member listed there
    have bounds := children_bounds child
    have within := between_iff.mpr ⟨bounds.1, bounds.2.1⟩
    exact ⟨bounds.2.2.1, (surrounds_iff placed member (List.mem_of_getElem? at_c)).mpr within⟩
  · intro i listed
    obtain ⟨c, child, at_c⟩ := (mem_places_iff member).mp listed
    have deeper := (children_bounds child).2.2.1
    exact place_lt_of_deeper at_c here (by omega)

theorem nestingTree_aliased (ps : List Part) : NestingTree ((all ps).map (aliased (all ps))) := by
  have last : (all ps)[(below ps).length]? = some (root ps) := by
    rw [all_eq, List.getElem?_concat_length]
  have length : ((all ps).map (aliased (all ps))).length = (below ps).length + 1 := by
    rw [List.length_map, all_eq, List.length_append, List.length_singleton]
  constructor
  · intro place level there
    obtain ⟨s, here, rfl⟩ := exists_of_aliased there
    exact nests_aliased here
  · refine ⟨(root ps).aliased (all ps), ?_, rfl, ?_⟩
    · rw [List.getLast?_eq_getElem?, length]
      exact aliased_at last
    · intro level listed nested
      obtain ⟨s, member, rfl⟩ := List.mem_map.mp listed
      rw [length] at nested
      obtain ⟨c, child, there⟩ := (mem_places_iff member).mp nested
      rw [Nat.add_sub_cancel, last, Option.some.injEq] at there
      subst there
      exact absurd (children_bounds child).2.2.1 (Nat.succ_ne_zero _).symm
  · intro i inside
    rw [length, Nat.add_lt_add_iff_right] at inside
    have here : (all ps)[i]? = some (below ps)[i] := by
      rw [all_eq, List.getElem?_append_left inside, List.getElem?_eq_getElem inside]
    obtain ⟨s, member, child⟩ := exists_parent_of_below (List.getElem_mem inside)
    obtain ⟨place, at_s⟩ := List.mem_iff_getElem?.mp member
    refine ⟨place, ⟨_, aliased_at at_s, (mem_places_iff member).mpr ⟨_, child, here⟩⟩, ?_⟩
    rintro other ⟨level, there, listed⟩
    obtain ⟨d, at_d, rfl⟩ := exists_of_aliased there
    have member' : d ∈ all ps := List.mem_of_getElem? at_d
    obtain ⟨c, child', at_c⟩ := (mem_places_iff member').mp listed
    rw [here, Option.some.injEq] at at_c
    subst at_c
    obtain rfl := parent_unique member member' child child'
    exact place_unique at_d at_s

end Aliased

end Site

theorem owners_sorted (texts : List (List Text)) : (owners texts).Pairwise (· ≤ ·) := by
  refine List.pairwise_flatMap.mpr ⟨?_, ?_⟩
  · rintro ⟨steps, place⟩ _
    exact List.pairwise_map.mpr (List.pairwise_of_forall fun _ _ => Nat.le_refl _)
  · refine (zipIdx_increasing texts).imp ?_
    rintro ⟨steps, i⟩ ⟨steps', j⟩ before m hm n hn
    obtain ⟨_, _, rfl⟩ := List.mem_map.mp hm
    obtain ⟨_, _, rfl⟩ := List.mem_map.mp hn
    exact Nat.le_of_lt before

theorem lt_of_owners_lt {texts : List (List Text)} {m n i j : Nat} (hm : (owners texts)[m]? = some j)
    (hn : (owners texts)[n]? = some i) (before : j < i) : m < n := by
  obtain ⟨inside, rfl⟩ := List.getElem?_eq_some_iff.mp hm
  obtain ⟨inside', rfl⟩ := List.getElem?_eq_some_iff.mp hn
  rcases Nat.lt_trichotomy m n with earlier | rfl | later
  · exact earlier
  · exact absurd before (Nat.lt_irrefl _)
  · have sorted := List.pairwise_iff_getElem.mp (owners_sorted texts) n m inside' inside later
    omega

theorem innerFirst_of_plan {source : Text} {p : Plan} (planned : plan source = .ok p) : p.InnerFirst := by
  obtain ⟨ps, texts, _, unmarked, listed, made, steps⟩ := exists_levels_of_plan planned
  have settled : p.levels.mapM (stepsOf p.levels) = .ended (.ok texts) := by
    rw [listed, mapM_stepsOf_finished unmarked, ← listed, made]
  refine ⟨texts, settled, steps, ?_⟩
  intro i j outer inner at_outer at_inner around m n hm hn
  rw [listed, List.getElem?_map, Option.map_eq_some_iff] at at_outer at_inner
  obtain ⟨s, at_s, rfl⟩ := at_outer
  obtain ⟨c, at_c, rfl⟩ := at_inner
  have hs : s ∈ all ps := List.mem_of_getElem? at_s
  have hc : c ∈ all ps := List.mem_of_getElem? at_c
  have inside := (surrounds_iff (at_finished (all ps)) hs hc).mp around
  exact lt_of_owners_lt hm hn (place_lt_of_deeper at_c at_s (height_lt_of_between hs hc inside))

theorem maskAll_nestingTree {source : Text} {levels : List Level} (found : levelsOf source = .ok levels) :
    NestingTree (maskAll levels) ∧
      ∀ p, plan source = .ok p → p.levels = (maskAll levels).map Level.split ∧ p.InnerFirst := by
  constructor
  · obtain ⟨ps, rfl, _, rfl⟩ := levelsOf_eq_ok_iff.mp found
    rw [maskAll_levels]
    exact nestingTree_aliased ps
  · intro p planned
    refine ⟨?_, innerFirst_of_plan planned⟩
    obtain ⟨accepted, _⟩ := plan_eq_ok_iff.mp planned
    rw [splitLevelsOf, found] at accepted
    exact (Except.ok.inj accepted).symm

theorem maskAll_nestingTree_cousins : ∃ levels p, levelsOf "((a-b)&(c))>((d)+e)".toList = .ok levels ∧
    plan "((a-b)&(c))>((d)+e)".toList = .ok p ∧ NestingTree (maskAll levels) ∧
      p.levels = (maskAll levels).map Level.split ∧ p.InnerFirst := by
  have found : levelsOf "((a-b)&(c))>((d)+e)".toList = .ok [⟨1, 5, 2, "(a-b)".toList, [], [], []⟩,
      ⟨7, 9, 2, "(c)".toList, [], [], []⟩, ⟨13, 15, 2, "(d)".toList, [], [], []⟩,
      ⟨0, 10, 1, "((a-b)&(c))".toList, [], [], []⟩, ⟨12, 18, 1, "((d)+e)".toList, [], [], []⟩,
      Level.outermost "((a-b)&(c))>((d)+e)".toList] := by cbv
  have fits : Text.size "((a-b)&(c))>((d)+e)".toList < wordLimit := by decide
  have free : ¬ DigitAfterClose "((a-b)&(c))>((d)+e)".toList := by decide
  obtain ⟨tree, first⟩ := maskAll_nestingTree found
  obtain ⟨ps, source, unmarked, _⟩ := levelsOf_eq_ok_iff.mp found
  rw [source] at fits free
  have planned := plan_of_clear unmarked fits fun s hs => clear_site free hs
  rw [← source] at planned
  exact ⟨_, _, found, planned, tree, first _ planned⟩

end EvalOrder
