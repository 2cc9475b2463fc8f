import EvalOrder.Proofs.Tokens
import EvalOrder.Theory.Substitution

/-! The searches in a text make what one pass over its tokens makes. Both go through a text in the same
two ways: a character that opens no alias stays, and a marker takes all digits behind it. -/
namespace EvalOrder

section Answers

variable {α β ε : Type} {m : Type → Type} [Monad m] [LawfulMonad m]

theorem bind_answer {x : ExceptT ε m α} {answer : Except ε α} {f : α → ExceptT ε m β} {g : α → Except ε β}
    (first : x = ExceptT.mk (pure answer)) (next : ∀ a, answer = .ok a → f a = ExceptT.mk (pure (g a))) :
    (x >>= f) = ExceptT.mk (pure (answer >>= g)) := by
  subst first
  apply ExceptT.ext
  rw [ExceptT.run_bind, ExceptT.run_mk, pure_bind]
  cases answer with
  | error failure => rfl
  | ok a => exact congrArg ExceptT.run (next a rfl)

theorem mapM_answer {f : α → ExceptT ε m β} {g : α → Except ε β} {xs : List α}
    (each : ∀ x ∈ xs, f x = ExceptT.mk (pure (g x))) : xs.mapM f = ExceptT.mk (pure (xs.mapM g)) := by
  induction xs with
  | nil => rfl
  | cons x xs ih =>
    obtain ⟨here, later⟩ := List.forall_mem_cons.mp each
    rw [List.mapM_cons, List.mapM_cons]
    exact bind_answer here fun y _ => bind_answer (ih later) fun ys _ => rfl

end Answers

section Pass

variable {levels : List Level} {level : Level} {c : Char} {digits t : Text}

theorem map_map {f g : Text → Text} (r : Except Failure Text) :
    (r.map f).map g = r.map fun u => g (f u) := by
  cases r <;> rfl

theorem map_nil_append (r : Except Failure Text) : r.map ([] ++ ·) = r := by
  cases r <;> rfl

theorem substitute_place (levels : List Level) (level : Level) (start : Nat) (ls : List Lexeme) :
    substitute levels level (Token.place start ls) = substitute levels level (Token.place 0 ls) := by
  suffices any : ∀ start start', substitute levels level (Token.place start ls) =
      substitute levels level (Token.place start' ls) from any start 0
  induction ls with
  | nil => exact fun _ _ => rfl
  | cons l ls ih =>
    intro start start'
    rw [Token.place, Token.place, substitute, substitute,
      ih (start + Text.size l.text) (start' + Text.size l.text)]
    rfl

theorem substitute_other {l : Lexeme} (other : l.kind ≠ .aliasName) (ls : List Lexeme) :
    substitute levels level (Token.place 0 (l :: ls)) =
      (substitute levels level (Token.place 0 ls)).map (l.text ++ ·) := by
  have kept : Token.filling? levels level ⟨0, 0 + Text.size l.text, l.kind, l.text⟩ = some l.text :=
    if_neg other
  rw [Token.place, substitute, kept, substitute_place]

theorem substitute_putRun (run : Text) (rest : List Lexeme) :
    substitute levels level (Token.place 0 (putRun run rest)) =
      (substitute levels level (Token.place 0 rest)).map (run ++ ·) := by
  cases run with
  | nil => exact (map_nil_append _).symm
  | cons c run => exact substitute_other (by simp) rest

theorem onePass_nil : onePass levels level [] = .ok [] := rfl

theorem onePass_cons (levels : List Level) (level : Level) (bare : c = marker → digitFirst t = false) :
    onePass levels level (c :: t) = (onePass levels level t).map (c :: ·) := by
  simp only [onePass, tokenize]
  by_cases letter : Kind.ofChar c = .text
  · conv => rhs; rw [← putRun_lexemes t, substitute_putRun, map_map]
    rw [lexemes_letter letter, substitute_other (by simp)]
    rfl
  · rw [lexemes_single letter bare, substitute_other (Kind.ofChar_ne_aliasName c)]
    rfl

theorem onePass_alias (levels : List Level) (level : Level) (some_digit : digits ≠ [])
    (all : ∀ d ∈ digits, d.isDigit = true) (stop : digitFirst t = false) :
    onePass levels level (marker :: (digits ++ t)) =
      match level.named? levels (marker :: digits) with
      | none => .error (level.unresolved (marker :: digits))
      | some raw => (onePass levels level t).map (raw ++ ·) := by
  rw [onePass, tokenize, lexemes_alias some_digit all stop, Token.place, substitute, substitute_place]
  rfl

theorem digitFirst_of_onePass (harmless : Harmless levels level) {u : Text}
    (made : onePass levels level t = .ok u) (stop : digitFirst t = false) : digitFirst u = false := by
  induction t using alias_induction with
  | nil =>
    cases made
    rfl
  | cons c t bare _ =>
    rw [onePass_cons levels level bare] at made
    cases tail : onePass levels level t with
    | error failure =>
      rw [tail] at made
      cases made
    | ok v =>
      rw [tail] at made
      cases made
      exact stop
  | named digits t some_digit all stop' _ =>
    rw [onePass_alias levels level some_digit all stop'] at made
    cases named : level.named? levels (marker :: digits) with
    | none =>
      rw [named] at made
      cases made
    | some raw =>
      obtain ⟨_, front, rfl⟩ := harmless _ raw named
      simp only [named] at made
      cases tail : onePass levels level t with
      | error failure =>
        rw [tail] at made
        cases made
      | ok v =>
        rw [tail] at made
        cases made
        rfl

end Pass

section Searches

variable {levels : List Level} {level : Level} {t : Text}

/-- One search for each alias, and one to see that none is left. -/
theorem expandWithin_eq_onePass (harmless : Harmless levels level) {n : Nat} (enough : t.count marker < n) :
    expandWithin levels level n t = some (onePass levels level t) := by
  induction t using alias_induction generalizing n with
  | nil =>
    obtain ⟨n, rfl⟩ := Nat.exists_eq_add_one_of_ne_zero (Nat.ne_of_gt enough)
    exact expandWithin_done rfl
  | cons c t bare ih =>
    have fewer : t.count marker < n := Nat.lt_of_le_of_lt (List.count_le_count_cons) enough
    rw [expandWithin_cons harmless bare, ih fewer, onePass_cons levels level bare, Option.map_some]
  | named digits t some_digit all stop ih =>
    obtain ⟨n, rfl⟩ := Nat.exists_eq_add_one_of_ne_zero (Nat.ne_of_gt (Nat.zero_lt_of_lt enough))
    have found := firstAlias?_alias some_digit all stop
    have fewer : t.count marker < n := by
      rw [List.count_cons_self, List.count_append] at enough
      omega
    rw [onePass_alias levels level some_digit all stop]
    cases named : level.named? levels (marker :: digits) with
    | none => exact expandWithin_unresolved found named
    | some raw =>
      rw [expandWithin_again found named, List.nil_append,
        expandWithin_append_unmarked harmless (harmless _ raw named).1, ih fewer, Option.map_some]

theorem expand_eq (harmless : Harmless levels level) (t : Text) :
    expand levels level t = .ended (onePass levels level t) := by
  rw [expand, expandWithin_eq_onePass harmless (count_lt_searchBound t), Searched.ended]

def passesOf (levels : List Level) (level : Level) : Except Failure (List Text) :=
  level.operations.mapM fun o => onePass levels level o.text

theorem stepsOf_eq (harmless : Harmless levels level) :
    stepsOf levels level = .ended (passesOf levels level) :=
  mapM_answer fun o _ => expand_eq harmless o.text

end Searches

end EvalOrder
