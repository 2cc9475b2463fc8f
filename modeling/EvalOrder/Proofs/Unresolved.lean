import EvalOrder.Proofs.Descent
import EvalOrder.Proofs.Direct
import EvalOrder.Proofs.Substitution
import EvalOrder.Theory.Unresolved

/-! Main statement: a source with its levels found has no plan exactly if an operation holds an alias that
names no level, and the first such alias is the one reported. One lemma for each of the three lists that
are gone through, inside out. -/
namespace EvalOrder

open EvalOrder.Part Site

section Traversal

variable {α β ε : Type} {f : α → Except ε β} {xs : List α} {e : ε}

theorem mapM_eq_error_iff :
    xs.mapM f = .error e ↔ ∃ x, FirstWith (fun y => ∃ e, f y = .error e) xs x ∧ f x = .error e := by
  induction xs with
  | nil =>
    constructor
    · intro impossible
      cases impossible
    · rintro ⟨x, first, _⟩
      exact absurd first not_firstWith_nil
  | cons y xs ih =>
    rw [List.mapM_cons, bind_eq_error_iff]
    constructor
    · rintro (here | ⟨z, done, rest⟩)
      · exact ⟨y, firstWith_cons.mpr (.inl ⟨⟨e, here⟩, rfl⟩), here⟩
      · rcases bind_eq_error_iff.mp rest with later | ⟨zs, _, impossible⟩
        · obtain ⟨x, first, failed⟩ := ih.mp later
          have not_here : ¬ ∃ e, f y = .error e := by
            rintro ⟨e, failed⟩
            rw [done] at failed
            cases failed
          exact ⟨x, firstWith_cons.mpr (.inr ⟨not_here, first⟩), failed⟩
        · cases impossible
    · rintro ⟨x, first, failed⟩
      rcases firstWith_cons.mp first with ⟨_, rfl⟩ | ⟨not_here, later⟩
      · exact .inl failed
      · cases here : f y with
        | error e => exact absurd ⟨e, here⟩ not_here
        | ok z =>
          refine .inr ⟨z, rfl, ?_⟩
          rw [ih.mpr ⟨x, later, failed⟩]
          rfl

end Traversal

section Levels

variable {levels : List Level} {level : Level} {failure : Failure}

def Resolved (levels : List Level) (level : Level) : Prop :=
  ∀ place ∈ level.nested, place < levels.length

theorem Resolved.dangles_iff (resolved : Resolved levels level) {token : Token} :
    token.Dangles levels level ↔ token.Unnamed level := by
  constructor
  · rintro ⟨named, too_great | beyond | ⟨place, found, outside⟩⟩
    · exact ⟨named, .inl too_great⟩
    · exact ⟨named, .inr beyond⟩
    · exact absurd (resolved place (List.mem_of_getElem? found)) (Nat.not_lt.mpr outside)
  · rintro ⟨named, too_great | beyond⟩
    · exact ⟨named, .inl too_great⟩
    · exact ⟨named, .inr (.inl beyond)⟩

theorem Resolved.onePass_eq_error_iff (resolved : Resolved levels level) {t : Text} :
    onePass levels level t = .error failure ↔
      ∃ token, FirstWith (Token.Unnamed level) (tokenize t) token ∧
        failure = level.unresolved token.text := by
  rw [onePass, substitute_eq_error_iff]
  simp only [firstWith_congr fun _ _ => resolved.dangles_iff]

theorem Resolved.operation_fails_iff (resolved : Resolved levels level) {o : Operation} :
    (∃ failure, onePass levels level o.text = .error failure) ↔ o.Fails level := by
  rw [Operation.Fails, ← exists_firstWith]
  constructor
  · rintro ⟨failure, failed⟩
    obtain ⟨token, first, _⟩ := resolved.onePass_eq_error_iff.mp failed
    exact ⟨token, first⟩
  · rintro ⟨token, first⟩
    exact ⟨_, resolved.onePass_eq_error_iff.mpr ⟨token, first, rfl⟩⟩

theorem Resolved.passesOf_eq_error_iff (resolved : Resolved levels level) :
    passesOf levels level = .error failure ↔ ∃ o token, FirstWith (Operation.Fails level) level.operations o ∧
      FirstWith (Token.Unnamed level) (tokenize o.text) token ∧ failure = level.unresolved token.text := by
  rw [passesOf, mapM_eq_error_iff]
  simp only [firstWith_congr fun _ _ => resolved.operation_fails_iff]
  simp only [resolved.onePass_eq_error_iff, exists_and_left]

theorem Resolved.level_fails_iff (resolved : Resolved levels level) :
    (∃ failure, passesOf levels level = .error failure) ↔ level.Fails := by
  rw [Level.Fails, ← exists_firstWith]
  constructor
  · rintro ⟨failure, failed⟩
    obtain ⟨o, _, first, _⟩ := resolved.passesOf_eq_error_iff.mp failed
    exact ⟨o, first⟩
  · rintro ⟨o, first⟩
    obtain ⟨token, found⟩ := exists_firstWith.mpr first.holds
    exact ⟨_, resolved.passesOf_eq_error_iff.mpr ⟨o, token, first, found, rfl⟩⟩

theorem mapM_passesOf_eq_error_iff (resolved : ∀ level ∈ levels, Resolved levels level) :
    levels.mapM (passesOf levels) = .error failure ↔
      ∃ level token, FirstUnnamed levels level token ∧ failure = level.unresolved token.text := by
  rw [mapM_eq_error_iff]
  constructor
  · rintro ⟨level, first, failed⟩
    obtain ⟨o, token, operation, found, rfl⟩ := (resolved level first.mem).passesOf_eq_error_iff.mp failed
    have at_level := (firstWith_congr fun l hl => (resolved l hl).level_fails_iff).mp first
    exact ⟨level, token, ⟨at_level, o, operation, found⟩, rfl⟩
  · rintro ⟨level, token, ⟨first, o, operation, found⟩, rfl⟩
    refine ⟨level, (firstWith_congr fun l hl => (resolved l hl).level_fails_iff).mpr first, ?_⟩
    exact (resolved level first.mem).passesOf_eq_error_iff.mpr ⟨o, token, operation, found, rfl⟩

theorem exists_firstUnnamed :
    (∃ level token, FirstUnnamed levels level token) ↔ ∃ level ∈ levels, level.Fails := by
  rw [← exists_firstWith]
  constructor
  · rintro ⟨level, _, first, _⟩
    exact ⟨level, first⟩
  · rintro ⟨level, first⟩
    obtain ⟨o, operation⟩ := exists_firstWith.mpr first.holds
    obtain ⟨token, found⟩ := exists_firstWith.mpr operation.holds
    exact ⟨level, token, first, o, operation, found⟩

end Levels

theorem sequences_operationsOf (t : Text) :
    (operationsOf t).map Operation.sequence = List.range (operationsOf t).length := by
  rw [operationsOf_eq_bindings, Precedence.bindings_eq, List.map_map, List.length_map, List.length_zipIdx,
    List.range_eq_range', ← List.zipIdx_map_snd]
  rfl

namespace Site

variable {ps : List Part} {s : Site} {failure : Failure}

theorem resolved_finished (member : s ∈ all ps) :
    Resolved ((all ps).map (finished (all ps))) (s.finished (all ps)) := by
  intro place listed
  obtain ⟨d, _, at_place⟩ := (mem_places_iff member).mp listed
  rw [List.length_map]
  exact (List.getElem?_eq_some_iff.mp at_place).1

theorem plan_eq_error_iff (unmarked : marker ∉ join ps) : plan (join ps) = .error failure ↔
    ∃ level token, FirstUnnamed ((all ps).map (finished (all ps))) level token ∧
      failure = level.unresolved token.text := by
  have resolved : ∀ level ∈ (all ps).map (finished (all ps)),
      Resolved ((all ps).map (finished (all ps))) level := by
    intro level listed
    obtain ⟨s, member, rfl⟩ := List.mem_map.mp listed
    exact resolved_finished member
  rw [← mapM_passesOf_eq_error_iff resolved, plan_eq, splitLevelsOf_join unmarked, bind_eq_error_iff]
  constructor
  · rintro (impossible | ⟨levels, same, failed⟩)
    · cases impossible
    · obtain rfl := Except.ok.inj same
      rcases bind_eq_error_iff.mp failed with stopped | ⟨_, _, done⟩
      · exact stopped
      · cases done
  · intro stopped
    exact .inr ⟨_, rfl, bind_eq_error_iff.mpr (.inl stopped)⟩

end Site

theorem plan_failsOnAlias {source : Text} {levels : List Level} (found : levelsOf source = .ok levels) :
    FailsOnAlias source ((maskAll levels).map Level.split) := by
  obtain ⟨ps, rfl, unmarked, rfl⟩ := levelsOf_eq_ok_iff.mp found
  rw [split_maskAll]
  constructor
  · rw [← exists_firstUnnamed]
    constructor
    · rintro ⟨failure, failed⟩
      obtain ⟨level, token, first, _⟩ := (plan_eq_error_iff unmarked).mp failed
      exact ⟨level, token, first⟩
    · rintro ⟨level, token, first⟩
      exact ⟨_, (plan_eq_error_iff unmarked).mpr ⟨level, token, first, rfl⟩⟩
  · intro level listed
    obtain ⟨s, _, rfl⟩ := List.mem_map.mp listed
    exact sequences_operationsOf (masked 0 s.inside)
  · intro failure failed
    obtain ⟨level, token, first, rfl⟩ := (plan_eq_error_iff unmarked).mp failed
    obtain ⟨s, member, rfl⟩ := List.mem_map.mp first.1.mem
    obtain ⟨u, v, split, start⟩ := raw_at member
    exact ⟨_, token, first, rfl, Text.slice?_eq_some_iff.mpr ⟨u, v, split, start, by rw [start]; rfl⟩⟩
  · intro failure failed fits
    by_contra free
    have planned := plan_of_clear unmarked fits fun s hs => clear_site free hs
    cases failed.symm.trans planned

theorem plan_failsOnAlias_digit : ∃ levels, levelsOf "é|(a)1+b".toList = .ok levels ∧
    FailsOnAlias "é|(a)1+b".toList ((maskAll levels).map Level.split) ∧
      plan "é|(a)1+b".toList = .error ⟨.unresolved "@01".toList 1, [⟨0, 9⟩]⟩ := by
  have found : levelsOf "é|(a)1+b".toList = .ok [⟨3, 5, 1, "(a)".toList, [], [], []⟩,
      Level.outermost "é|(a)1+b".toList] := by cbv
  exact ⟨_, found, plan_failsOnAlias found, by cbv⟩

end EvalOrder
