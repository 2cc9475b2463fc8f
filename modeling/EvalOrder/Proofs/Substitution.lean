import EvalOrder.Proofs.Restoration
import Mathlib

/-! Main statement: searching a text again after every replacement makes what a single pass over its
tokens makes, and fails exactly where the pass does, on the first alias that names nothing. -/
namespace EvalOrder

open EvalOrder.Part Site

section First

variable {α : Type} {P Q : α → Prop} {x y : α} {xs : List α}

theorem firstWith_cons : FirstWith P (y :: xs) x ↔ P y ∧ x = y ∨ ¬ P y ∧ FirstWith P xs x := by
  constructor
  · rintro ⟨front, back, split, holds, free⟩
    cases front with
    | nil =>
      obtain ⟨rfl, rfl⟩ := List.cons.inj split
      exact .inl ⟨holds, rfl⟩
    | cons z front =>
      obtain ⟨rfl, rfl⟩ := List.cons.inj split
      have free := List.forall_mem_cons.mp free
      exact .inr ⟨free.1, front, back, rfl, holds, free.2⟩
  · rintro (⟨holds, rfl⟩ | ⟨other, front, back, rfl, holds, free⟩)
    · exact ⟨[], xs, rfl, holds, fun _ h => absurd h List.not_mem_nil⟩
    · exact ⟨y :: front, back, rfl, holds, List.forall_mem_cons.mpr ⟨other, free⟩⟩

theorem not_firstWith_nil : ¬ FirstWith P [] x := by
  rintro ⟨front, back, split, _⟩
  cases front <;> cases split

theorem firstWith_congr (same : ∀ y ∈ xs, (P y ↔ Q y)) : FirstWith P xs x ↔ FirstWith Q xs x := by
  induction xs with
  | nil => exact iff_of_false not_firstWith_nil not_firstWith_nil
  | cons y xs ih =>
    obtain ⟨here, later⟩ := List.forall_mem_cons.mp same
    rw [firstWith_cons, firstWith_cons, here, ih later]

theorem FirstWith.mem (h : FirstWith P xs x) : x ∈ xs := by
  obtain ⟨front, back, rfl, _⟩ := h
  exact List.mem_append_right _ List.mem_cons_self

theorem FirstWith.holds (h : FirstWith P xs x) : P x := by
  obtain ⟨_, _, _, holds, _⟩ := h
  exact holds

theorem exists_firstWith : (∃ x, FirstWith P xs x) ↔ ∃ x ∈ xs, P x := by
  constructor
  · rintro ⟨x, first⟩
    exact ⟨x, first.mem, first.holds⟩
  · induction xs with
    | nil =>
      rintro ⟨x, member, _⟩
      exact absurd member List.not_mem_nil
    | cons y xs ih =>
      rintro ⟨x, member, holds⟩
      by_cases here : P y
      · exact ⟨y, firstWith_cons.mpr (.inl ⟨here, rfl⟩)⟩
      · have later : x ∈ xs := by
          rcases List.mem_cons.mp member with rfl | later
          · exact absurd holds here
          · exact later
        obtain ⟨z, first⟩ := ih ⟨x, later, holds⟩
        exact ⟨z, firstWith_cons.mpr (.inr ⟨here, first⟩)⟩

end First

section Fillings

variable {levels : List Level} {level : Level}

theorem filling?_alias {token : Token} (named : token.kind = .aliasName) :
    token.filling? levels level =
      if token.number < wordLimit then
        (level.nested[token.number]?).bind fun place => levels[place]?.map Level.raw
      else none := by
  have index : token.index? = if token.number < wordLimit then some token.number else none := if_pos named
  rw [Token.filling?, if_pos named, index]
  by_cases fits : token.number < wordLimit
  · simp only [if_pos fits, Option.bind_eq_bind, Option.bind_some, Option.pure_def, Option.map_eq_bind]
    rfl
  · rw [if_neg fits, if_neg fits]
    rfl

theorem filling?_eq_none_iff {token : Token} :
    token.filling? levels level = none ↔ token.Dangles levels level := by
  constructor
  · intro missing
    by_cases named : token.kind = .aliasName
    · refine ⟨named, ?_⟩
      rw [filling?_alias named] at missing
      by_cases fits : token.number < wordLimit
      · rw [if_pos fits] at missing
        cases found : level.nested[token.number]? with
        | none => exact .inr (.inl (List.getElem?_eq_none_iff.mp found))
        | some place =>
          rw [found, Option.bind_some, Option.map_eq_none_iff] at missing
          exact .inr (.inr ⟨place, rfl, List.getElem?_eq_none_iff.mp missing⟩)
      · exact .inl (Nat.le_of_not_lt fits)
    · rw [Token.filling?, if_neg named] at missing
      cases missing
  · rintro ⟨named, too_great | beyond | ⟨place, found, outside⟩⟩
    · rw [filling?_alias named, if_neg (Nat.not_lt.mpr too_great)]
    · rw [filling?_alias named, List.getElem?_eq_none_iff.mpr beyond, Option.bind_none, ite_self]
    · rw [filling?_alias named, found, Option.bind_some, List.getElem?_eq_none_iff.mpr outside,
        Option.map_none, ite_self]

theorem substitute_eq_error_iff {tokens : List Token} {failure : Failure} :
    substitute levels level tokens = .error failure ↔
      ∃ token, FirstWith (Token.Dangles levels level) tokens token ∧
        failure = level.unresolved token.text := by
  induction tokens with
  | nil =>
    constructor
    · intro impossible
      cases impossible
    · rintro ⟨token, first, _⟩
      exact absurd first not_firstWith_nil
  | cons token rest ih =>
    cases filled : token.filling? levels level with
    | none =>
      have here := filling?_eq_none_iff.mp filled
      rw [substitute, filled]
      constructor
      · intro failed
        exact ⟨token, firstWith_cons.mpr (.inl ⟨here, rfl⟩), (Except.error.inj failed).symm⟩
      · rintro ⟨other, first, rfl⟩
        rcases firstWith_cons.mp first with ⟨_, rfl⟩ | ⟨not_here, _⟩
        · rfl
        · exact absurd here not_here
    | some front =>
      have not_here : ¬ token.Dangles levels level := by
        rw [← filling?_eq_none_iff, filled]
        exact Option.some_ne_none front
      rw [substitute, filled]
      constructor
      · intro failed
        cases tail : substitute levels level rest with
        | ok u =>
          rw [tail] at failed
          cases failed
        | error later =>
          rw [tail] at failed
          cases failed
          obtain ⟨other, first, same⟩ := ih.mp tail
          exact ⟨other, firstWith_cons.mpr (.inr ⟨not_here, first⟩), same⟩
      · rintro ⟨other, first, rfl⟩
        rcases firstWith_cons.mp first with ⟨here, _⟩ | ⟨_, later⟩
        · exact absurd here not_here
        · simp only [ih.mpr ⟨other, later, rfl⟩, Except.map]

end Fillings

theorem harmless_of_nests {levels : List Level} {level : Level} (nests : level.NestsParenthesized levels) :
    Harmless levels level := by
  intro name raw named
  simp only [Level.named?, Option.bind_eq_bind, Option.pure_def, Option.bind_eq_some_iff, Option.some.injEq]
    at named
  obtain ⟨index, _, place, nested, other, there, rfl⟩ := named
  obtain ⟨unmarked, first⟩ := nests place (List.mem_of_getElem? nested) other there
  exact ⟨unmarked, List.head?_eq_some_iff.mp first⟩

namespace Site

theorem nestsParenthesized_finished {ps : List Part} {s : Site} (unmarked : marker ∉ join ps)
    (member : s ∈ all ps) : (s.finished (all ps)).NestsParenthesized ((all ps).map (finished (all ps))) := by
  intro place listed other there
  obtain ⟨d, child, at_place⟩ := (mem_places_iff member).mp listed
  rw [List.getElem?_map, at_place, Option.map_some, Option.some.injEq] at there
  subst there
  have raw : (d.finished (all ps)).raw = (group d.inside).text := raw_of_mem_children child
  have inside := unmarked_inside unmarked (mem_all_of_mem_children member child)
  rw [raw, text_group]
  refine ⟨?_, rfl⟩
  simp only [List.mem_cons, List.mem_append, List.not_mem_nil, not_or, or_false]
  exact ⟨by decide, inside, by decide⟩

end Site

/-- Whatever text is expanded, with aliases written by hand too. -/
theorem expand_inOnePass :
    (∀ source levels, splitLevelsOf source = .ok levels → ∀ level ∈ levels, level.NestsParenthesized levels) ∧
      ∀ levels level, level.NestsParenthesized levels → ∀ t, InOnePass levels level t := by
  constructor
  · intro source levels accepted level listed
    obtain ⟨ps, rfl, unmarked, rfl⟩ := parts_of_splitLevelsOf accepted
    obtain ⟨s, member, rfl⟩ := List.mem_map.mp listed
    exact nestsParenthesized_finished unmarked member
  · intro levels level nests t
    have harmless := harmless_of_nests nests
    have pass := expand_eq harmless t
    have fails : ∀ failure, expand levels level t = .ended (.error failure) ↔
        ∃ token, FirstWith (Token.Dangles levels level) (tokenize t) token ∧
          failure = level.unresolved token.text := by
      intro failure
      rw [pass, Searched.ended_inj, onePass, substitute_eq_error_iff]
    refine ⟨fun searches enough => expandWithin_eq_onePass harmless enough, pass, ?_, ?_⟩
    · simp only [fails, ← exists_firstWith]
      constructor
      · rintro ⟨_, token, first, _⟩
        exact ⟨token, first⟩
      · rintro ⟨token, first⟩
        exact ⟨_, token, first, rfl⟩
    · intro failure failed
      exact (fails failure).mp failed

theorem expand_inOnePass_bare_markers : ∃ levels level, splitLevelsOf "(a)+(b)".toList = .ok levels ∧
    levels[2]? = some level ∧ level.NestsParenthesized levels ∧ InOnePass levels level "@@1@00é@".toList ∧
      expand levels level "@@1@00é@".toList = .ended (.ok "@(b)(a)é@".toList) := by
  have accepted : splitLevelsOf "(a)+(b)".toList = .ok [⟨0, 2, 1, "(a)".toList, "a".toList, [], []⟩,
      ⟨4, 6, 1, "(b)".toList, "b".toList, [], []⟩, ⟨0, 7, 0, "(a)+(b)".toList, "@0+@1".toList, [0, 1],
        [⟨0, 4, .add, "@0+@1".toList, 0⟩]⟩] := by cbv
  have nests := expand_inOnePass.1 _ _ accepted ⟨0, 7, 0, "(a)+(b)".toList, "@0+@1".toList, [0, 1],
    [⟨0, 4, .add, "@0+@1".toList, 0⟩]⟩ (List.mem_of_getElem? (i := 2) rfl)
  have in_one_pass := expand_inOnePass.2 _ _ nests "@@1@00é@".toList
  refine ⟨_, _, accepted, rfl, nests, in_one_pass, ?_⟩
  rw [in_one_pass.pass]
  cbv

end EvalOrder
