import EvalOrder.Proofs.Masking
import EvalOrder.Proofs.Passing

/-! Putting back what was masked. A masked text expands to the text it was made of exactly if no digit follows
a group in it. Where one does, the alias is read with more digits than were written, and even if it names
a group, the digits are gone: the group read back may be the right one, what follows it is not. -/
namespace EvalOrder

open EvalOrder.Part Site

namespace Part

def Clear : List Part → Prop
  | [] => True
  | char _ _ :: rest => Clear rest
  | group _ :: rest => digitFirst (join rest) = false ∧ Clear rest

theorem digitFirst_masked (k : Nat) (ps : List Part) : digitFirst (masked k ps) = digitFirst (join ps) := by
  cases ps with
  | nil => rfl
  | cons p ps =>
    cases p with
    | char c plain => rfl
    | group inside => rfl

theorem clear_append {ps qs : List Part} (h : Clear (ps ++ qs)) : Clear qs := by
  induction ps with
  | nil => exact h
  | cons p ps ih =>
    cases p with
    | char c plain => exact ih h
    | group inside => exact ih h.2

theorem digitFirst_append {t u : Text} (h : digitFirst (t ++ u) = false) : digitFirst t = false := by
  cases t with
  | nil => rfl
  | cons c t => exact h

theorem clear_of_clear_append {ps qs : List Part} (h : Clear (ps ++ qs)) : Clear ps := by
  induction ps with
  | nil => trivial
  | cons p ps ih =>
    cases p with
    | char c plain => exact ih h
    | group inside =>
      refine ⟨?_, ih h.2⟩
      have stop : digitFirst (join (ps ++ qs)) = false := h.1
      rw [join_append] at stop
      exact digitFirst_append stop

theorem ne_marker_of_not_mem_text {c : Char} {plain : isParenthesis c = false}
    (unmarked : marker ∉ (char c plain).text) : c ≠ marker := by
  rintro rfl
  exact unmarked (List.mem_singleton_self _)

end Part

section Names

variable {levels : List Level} {level : Level}

def NamesGroups (levels : List Level) (level : Level) : Prop :=
  ∀ name raw, level.named? levels name = some raw →
    ∃ inside, raw = (group inside).text ∧ marker ∉ raw

theorem NamesGroups.harmless (groups : NamesGroups levels level) : Harmless levels level := by
  intro name raw named
  obtain ⟨inside, rfl, unmarked⟩ := groups name raw named
  exact ⟨unmarked, _, rfl⟩

/-- If an alias written for a group is read at all, it is read as that group. -/
def NamesRight (levels : List Level) (level : Level) (k : Nat) (ps : List Part) : Prop :=
  ∀ j inside raw, (groups ps)[j]? = some inside → level.named? levels (aliasOf (k + j)) = some raw →
    raw = (group inside).text

theorem NamesRight.tail {k : Nat} {inside rest : List Part}
    (h : NamesRight levels level k (group inside :: rest)) : NamesRight levels level (k + 1) rest := by
  intro j other raw found named
  refine h (j + 1) other raw (by simpa [groups] using found) ?_
  rwa [← Nat.add_assoc, Nat.add_right_comm]

theorem aliasOf_digits (k : Nat) : ∀ d ∈ Nat.toDigits 10 k, d.isDigit = true :=
  fun _ hd => Nat.isDigit_of_mem_toDigits (by decide) (by decide) hd

/-- Without a digit after a group, all that can fail is an index too great to be read. -/
theorem onePass_masked_of_clear {k : Nat} {ps : List Part} (right : NamesRight levels level k ps)
    (unmarked : marker ∉ join ps) (clear : Clear ps) :
    onePass levels level (masked k ps) = .ok (join ps) ∨
      ∃ j, j < (groups ps).length ∧ level.named? levels (aliasOf (k + j)) = none ∧
        onePass levels level (masked k ps) = .error (level.unresolved (aliasOf (k + j))) := by
  induction ps generalizing k with
  | nil => exact .inl onePass_nil
  | cons p ps ih =>
    rw [join_cons, List.mem_append, not_or] at unmarked
    cases p with
    | char c plain =>
      have other := ne_marker_of_not_mem_text unmarked.1
      have step := onePass_cons levels level (t := masked k ps) fun h => absurd h other
      rcases ih right unmarked.2 clear with done | ⟨j, inside, missing, failed⟩
      · exact .inl (by rw [masked, step, done]; rfl)
      · exact .inr ⟨j, inside, missing, by rw [masked, step, failed]; rfl⟩
    | group inside =>
      have stop : digitFirst (masked (k + 1) ps) = false := by
        rw [digitFirst_masked]
        exact clear.1
      have step := onePass_alias levels level (Nat.toDigits_ne_nil (b := 10) (n := k))
        (aliasOf_digits k) stop
      change onePass levels level (masked k (group inside :: ps)) = _ at step
      cases named : level.named? levels (marker :: Nat.toDigits 10 k) with
      | none =>
        rw [named] at step
        exact .inr ⟨0, Nat.succ_pos _, named, step⟩
      | some raw =>
        have this_one := right 0 inside raw rfl named
        simp only [named] at step
        rcases ih right.tail unmarked.2 clear.2 with done | ⟨j, short, missing, failed⟩
        · exact .inl (by rw [step, done, this_one]; rfl)
        · refine .inr ⟨j + 1, Nat.succ_lt_succ short, ?_, ?_⟩
          · rwa [Nat.add_comm j 1, ← Nat.add_assoc]
          · rw [step, failed, Nat.add_comm j 1, ← Nat.add_assoc]
            rfl

theorem clear_of_onePass_masked (named_groups : NamesGroups levels level) {k : Nat} {ps : List Part}
    (unmarked : marker ∉ join ps) (restored : onePass levels level (masked k ps) = .ok (join ps)) :
    Clear ps := by
  induction ps generalizing k with
  | nil => trivial
  | cons p ps ih =>
    rw [join_cons, List.mem_append, not_or] at unmarked
    cases p with
    | char c plain =>
      have other := ne_marker_of_not_mem_text unmarked.1
      rw [masked, onePass_cons levels level fun h => absurd h other] at restored
      cases tail : onePass levels level (masked k ps) with
      | error failure =>
        rw [tail] at restored
        cases restored
      | ok u =>
        rw [tail] at restored
        have same : c :: u = c :: join ps := Except.ok.inj restored
        rw [(List.cons.inj same).2] at tail
        exact ih unmarked.2 tail
    | group inside =>
      obtain ⟨digits, rest, split, all, stop⟩ := exists_digits (masked (k + 1) ps)
      have all_digits : ∀ d ∈ Nat.toDigits 10 k ++ digits, d.isDigit = true := by
        intro d hd
        rcases List.mem_append.mp hd with hd | hd
        · exact aliasOf_digits k d hd
        · exact all d hd
      have some_digit : Nat.toDigits 10 k ++ digits ≠ [] :=
        List.append_ne_nil_of_left_ne_nil Nat.toDigits_ne_nil _
      have step := onePass_alias levels level some_digit all_digits stop
      rw [List.append_assoc, ← split] at step
      change onePass levels level (masked k (group inside :: ps)) = _ at step
      rw [step] at restored
      cases named : level.named? levels (marker :: (Nat.toDigits 10 k ++ digits)) with
      | none =>
        rw [named] at restored
        cases restored
      | some raw =>
        obtain ⟨other, rfl, _⟩ := named_groups _ _ named
        simp only [named] at restored
        cases tail : onePass levels level rest with
        | error failure =>
          rw [tail] at restored
          cases restored
        | ok u =>
          rw [tail] at restored
          have same : (group other).text ++ u = (group inside).text ++ join ps := Except.ok.inj restored
          obtain ⟨_, rfl⟩ := group_unique same
          -- what was read after the group cannot start with a digit, so no digit was taken
          have free := digitFirst_of_onePass named_groups.harmless tail stop
          have none_taken : digits = [] := by
            rw [← digitFirst_masked (k + 1), split] at free
            cases digits with
            | nil => rfl
            | cons d digits =>
              have digit := all d List.mem_cons_self
              change d.isDigit = false at free
              rw [digit] at free
              cases free
          rw [none_taken, List.nil_append] at split
          rw [← split] at tail
          exact ⟨free, ih unmarked.2 tail⟩

/-- The exact limit of reading back. -/
theorem eq_join_iff_clear (named_groups : NamesGroups levels level) {k : Nat} {ps : List Part} {u : Text}
    (right : NamesRight levels level k ps) (unmarked : marker ∉ join ps)
    (made : onePass levels level (masked k ps) = .ok u) : u = join ps ↔ Clear ps := by
  constructor
  · rintro rfl
    exact clear_of_onePass_masked named_groups unmarked made
  · intro clear
    rcases onePass_masked_of_clear right unmarked clear with done | ⟨j, _, _, failed⟩
    · rw [made] at done
      exact Except.ok.inj done
    · rw [made] at failed
      cases failed

end Names

def Site.In (source : Text) (s : Site) : Prop :=
  ∃ before after, source = before ++ join s.inside ++ after ∧ Text.size before = s.first

theorem in_of_mem_among {source before after : Text} {height : Nat} {ps : List Part} {s : Site}
    (here : source = before ++ join ps ++ after) (member : s ∈ among (Text.size before) height ps) :
    s.In source := by
  induction ps generalizing before with
  | nil => cases member
  | cons p ps ih =>
    have split : source = before ++ p.text ++ join ps ++ after := by
      rw [here, join_cons]
      simp only [List.append_assoc]
    have next : s ∈ among (Text.size (before ++ p.text)) height ps → s.In source := ih split
    rw [Text.size_append] at next
    cases p with
    | char c plain => exact next (by simpa [among] using member)
    | group inside =>
      rcases List.mem_cons.mp member with rfl | later
      · refine ⟨before ++ ['('], ')' :: (join ps ++ after), ?_, ?_⟩
        · rw [here]
          simp
        · rw [Text.size_append]
          rfl
      · exact next later

theorem in_of_mem_all {ps : List Part} {s : Site} (member : s ∈ all ps) : s.In (join ps) := by
  refine forall_all ⟨[], [], by simp [root], rfl⟩ ?_ member
  rintro r ⟨before, after, split, start⟩ c hc
  rw [children, ← start] at hc
  exact in_of_mem_among split hc

theorem unmarked_inside {ps : List Part} (unmarked : marker ∉ join ps) {s : Site} (member : s ∈ all ps) :
    marker ∉ join s.inside := by
  obtain ⟨before, after, split, _⟩ := in_of_mem_all member
  intro inside
  rw [split] at unmarked
  exact unmarked (List.mem_append_left _ (List.mem_append_right _ inside))

theorem text_infix_of_mem_groups {ps inside : List Part} (member : inside ∈ groups ps) :
    (group inside).text <:+: join ps := by
  induction ps with
  | nil => cases member
  | cons p ps ih =>
    cases p with
    | char c plain => exact (ih member).trans (List.suffix_append _ _).isInfix
    | group other =>
      rcases List.mem_cons.mp member with rfl | later
      · exact (List.prefix_append _ _).isInfix
      · exact (ih later).trans (List.suffix_append _ _).isInfix

theorem indexOfAlias?_aliasOf_eq (n : Nat) :
    indexOfAlias? (aliasOf n) = if n < wordLimit then some n else none := by
  simp [indexOfAlias?, aliasOf]

theorem named?_eq (levels : List Level) (level : Level) (name : Text) :
    level.named? levels name = (indexOfAlias? name).bind fun index =>
      level.nested[index]?.bind fun place => (levels.map Level.raw)[place]? := by
  simp only [Level.named?, Option.bind_eq_bind, Option.pure_def, List.getElem?_map, Option.map_eq_bind]
  rfl

namespace Site

/-- The level is the one at the site, with its places behind other ones that are of its own, too. -/
structure NestedOn (sites : List Site) (s : Site) (before : List Nat) (levels : List Level)
    (level : Level) : Prop where
  raws : levels.map Level.raw = sites.map fun d => d.level.raw
  nested : level.nested = before ++ places sites s
  old : ∀ place ∈ before, place ∈ places sites s

theorem nestedOn_finished (sites : List Site) (s : Site) :
    NestedOn sites s [] (sites.map (finished sites)) (s.finished sites) :=
  ⟨List.map_map, rfl, fun _ h => absurd h List.not_mem_nil⟩

variable {ps : List Part} {s : Site}

theorem raw_of_places (member : s ∈ all ps) (index : Nat) :
    ((places (all ps) s)[index]?.bind fun place => ((all ps).map fun d => d.level.raw)[place]?) =
      (groups s.inside)[index]?.map fun inside => (group inside).text := by
  have inside : (groups s.inside)[index]? = (s.children[index]?).map Site.inside := by
    rw [← among_inside s.first (s.height + 1) s.inside, List.getElem?_map]
    rfl
  rw [inside, ← map_fst_held member, places, List.getElem?_map, List.getElem?_map]
  cases found : ((all ps).zipIdx.filter fun d => s.level.holds d.1.level)[index]? with
  | none => rfl
  | some d =>
    have held := List.mem_filter.mp (List.mem_of_getElem? found)
    have at_place : (all ps)[d.2]? = some d.1 := List.mem_zipIdx_iff_getElem?.mp held.1
    have child : d.1 ∈ s.children := by
      rw [← filter_holds_all member]
      exact List.mem_filter.mpr ⟨List.mem_of_getElem? at_place, held.2⟩
    simp only [Option.map_some, Option.bind_some, List.getElem?_map, at_place]
    exact congrArg some (raw_of_mem_children child)

namespace NestedOn

variable {before : List Nat} {levels : List Level} {level : Level}

theorem named?_own (on : NestedOn (all ps) s before levels level) (member : s ∈ all ps) (i : Nat) :
    level.named? levels (aliasOf (before.length + i)) =
      if before.length + i < wordLimit then (groups s.inside)[i]?.map fun inside => (group inside).text
        else none := by
  rw [named?_eq, indexOfAlias?_aliasOf_eq]
  by_cases fits : before.length + i < wordLimit
  · rw [if_pos fits, if_pos fits, Option.bind_some, on.nested, on.raws,
      List.getElem?_append_right (Nat.le_add_right _ _), Nat.add_sub_cancel_left, raw_of_places member]
  · rw [if_neg fits, if_neg fits, Option.bind_none]

theorem namesGroups (on : NestedOn (all ps) s before levels level) (unmarked : marker ∉ join ps)
    (member : s ∈ all ps) : NamesGroups levels level := by
  intro name raw named
  rw [named?_eq, Option.bind_eq_some_iff] at named
  obtain ⟨index, _, named⟩ := named
  obtain ⟨place, listed, named⟩ := Option.bind_eq_some_iff.mp named
  have own : place ∈ places (all ps) s := by
    have listed := List.mem_of_getElem? listed
    rw [on.nested] at listed
    exact (List.mem_append.mp listed).elim (on.old place) id
  obtain ⟨i, at_i⟩ := List.mem_iff_getElem?.mp own
  have text := raw_of_places member i
  rw [at_i, Option.bind_some, ← on.raws, named] at text
  obtain ⟨inside, found, rfl⟩ := Option.map_eq_some_iff.mp text.symm
  refine ⟨inside, rfl, fun marked => unmarked_inside unmarked member ?_⟩
  exact (text_infix_of_mem_groups (List.mem_of_getElem? found)).subset marked

theorem namesRight (on : NestedOn (all ps) s before levels level) (member : s ∈ all ps)
    {front piece back : List Part} (split : s.inside = front ++ piece ++ back) :
    NamesRight levels level (before.length + (groups front).length) piece := by
  intro j inside raw found named
  rw [Nat.add_assoc, on.named?_own member] at named
  have at_place : (groups s.inside)[(groups front).length + j]? = some inside := by
    rw [split, groups_append, groups_append, List.append_assoc,
      List.getElem?_append_right (Nat.le_add_right _ _), Nat.add_sub_cancel_left]
    rw [List.getElem?_append_left (List.getElem?_eq_some_iff.mp found).1]
    exact found
  split at named
  · rw [at_place] at named
    exact (Option.some.inj named).symm
  · cases named

end NestedOn

end Site

section Finished

variable {ps : List Part} {s : Site}

theorem named?_finished (member : s ∈ all ps) (name : Text) :
    (finished (all ps) s).named? ((all ps).map (finished (all ps))) name =
      (indexOfAlias? name).bind fun index =>
        (groups s.inside)[index]?.map fun inside => (group inside).text := by
  rw [named?_eq, (nestedOn_finished (all ps) s).raws]
  congr 1
  funext index
  exact raw_of_places member index

theorem namesGroups_finished (unmarked : marker ∉ join ps) (member : s ∈ all ps) :
    NamesGroups ((all ps).map (finished (all ps))) (finished (all ps) s) :=
  (nestedOn_finished (all ps) s).namesGroups unmarked member

end Finished

end EvalOrder
