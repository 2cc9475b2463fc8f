import EvalOrder.Proofs.Expansion
import EvalOrder.Proofs.Marks

/-! Tokens read from the left, though they are made from the right end of a text: a letter joins the run
behind it, a marker takes all digits behind it, and any other character stands by itself. So the first
alias among the tokens is the first marker with a digit behind it. -/
namespace EvalOrder

theorem Kind.ofChar_ne_aliasName (c : Char) : Kind.ofChar c ≠ .aliasName := by
  unfold Kind.ofChar
  split <;> try simp
  split <;> try simp
  split <;> try simp
  cases Operator.ofChar? c <;> simp

theorem Kind.ofChar_digit {c : Char} (digit : c.isDigit = true) : Kind.ofChar c = .text := by
  have apart : ∀ d : Char, d.isDigit = false → c ≠ d := by
    rintro d other rfl
    simp [other] at digit
  rw [Kind.ofChar, if_neg (apart _ (by decide)), if_neg (apart _ (by decide)), if_neg (apart _ (by decide)),
    Operator.ofChar?_of_isDigit digit]
  rfl

theorem Kind.ofChar_eq_marker {c : Char} : Kind.ofChar c = .marker ↔ c = EvalOrder.marker := by
  constructor
  · intro marked
    unfold Kind.ofChar at marked
    split at marked
    · cases marked
    · split at marked
      · cases marked
      · split at marked
        · assumption
        · cases found : Operator.ofChar? c <;> simp [found] at marked
  · rintro rfl
    decide

def leadingRun : List Lexeme → Text
  | ⟨.text, run⟩ :: _ => run
  | _ => []

def afterRun : List Lexeme → List Lexeme
  | ⟨.text, _⟩ :: rest => rest
  | ls => ls

def putRun (run : Text) (rest : List Lexeme) : List Lexeme :=
  if run.isEmpty then rest else ⟨.text, run⟩ :: rest

section Attach

variable {c : Char}

theorem attach_letter (letter : Kind.ofChar c = .text) (ls : List Lexeme) :
    attach c ls = ⟨.text, c :: leadingRun ls⟩ :: afterRun ls := by
  match ls with
  | [] => simp [attach, letter, leadingRun, afterRun]
  | ⟨kind, run⟩ :: rest => cases kind <;> simp [attach, letter, leadingRun, afterRun]

theorem attach_single (other : Kind.ofChar c ≠ .text) (unmarked : c ≠ marker) (ls : List Lexeme) :
    attach c ls = ⟨Kind.ofChar c, [c]⟩ :: ls := by
  have := mt Kind.ofChar_eq_marker.mp unmarked
  unfold attach
  split <;> simp_all

theorem attach_bare {ls : List Lexeme} (bare : (leadingRun ls).takeWhile Char.isDigit = []) :
    attach marker ls = ⟨.marker, [marker]⟩ :: putRun (leadingRun ls) (afterRun ls) := by
  match ls with
  | [] => rfl
  | ⟨kind, run⟩ :: rest =>
    cases kind with
    | text =>
      have left : run.dropWhile Char.isDigit = run := by
        have whole := List.takeWhile_append_dropWhile (p := Char.isDigit) (l := run)
        simp only [leadingRun] at bare
        rwa [bare, List.nil_append] at whole
      change markRun run rest = _
      simp only [leadingRun] at bare
      simp only [markRun, bare, left]
      rfl
    | _ => rfl

theorem run_attach_other (other : Kind.ofChar c ≠ .text) (ls : List Lexeme) :
    leadingRun (attach c ls) = [] ∧ afterRun (attach c ls) = attach c ls := by
  unfold attach
  split
  · contradiction
  · rename_i run rest _
    cases digits : (run.takeWhile Char.isDigit).isEmpty <;> simp [markRun, leadingRun, afterRun, digits]
  · cases kind : Kind.ofChar c <;> simp_all [leadingRun, afterRun]

end Attach

section Lexemes

variable {c : Char} {w digits t : Text}

theorem takeWhile_eq_nil_iff (t : Text) : t.takeWhile Char.isDigit = [] ↔ digitFirst t = false := by
  cases t with
  | nil => simp [digitFirst]
  | cons c t => cases digit : c.isDigit <;> simp [digitFirst, digit]

theorem takeWhile_leadingRun (t : Text) :
    (leadingRun (lexemes t)).takeWhile Char.isDigit = t.takeWhile Char.isDigit := by
  induction t with
  | nil => rfl
  | cons c t ih =>
    have step : lexemes (c :: t) = attach c (lexemes t) := rfl
    rw [step]
    by_cases letter : Kind.ofChar c = .text
    · rw [attach_letter letter, leadingRun, List.takeWhile_cons, List.takeWhile_cons, ih]
    · have plain : c.isDigit ≠ true := fun digit => letter (Kind.ofChar_digit digit)
      rw [(run_attach_other letter _).1, List.takeWhile_cons_of_neg plain, List.takeWhile_nil]

theorem digitFirst_leadingRun (t : Text) :
    digitFirst (leadingRun (lexemes t)) = false ↔ digitFirst t = false := by
  rw [← takeWhile_eq_nil_iff, takeWhile_leadingRun, takeWhile_eq_nil_iff]

theorem putRun_lexemes (t : Text) : putRun (leadingRun (lexemes t)) (afterRun (lexemes t)) = lexemes t := by
  cases t with
  | nil => rfl
  | cons c t =>
    have step : lexemes (c :: t) = attach c (lexemes t) := rfl
    rw [step]
    by_cases letter : Kind.ofChar c = .text
    · rw [attach_letter letter]
      rfl
    · rw [(run_attach_other letter _).1, (run_attach_other letter _).2]
      rfl

theorem lexemes_letter (letter : Kind.ofChar c = .text) (t : Text) :
    lexemes (c :: t) = ⟨.text, c :: leadingRun (lexemes t)⟩ :: afterRun (lexemes t) :=
  attach_letter letter (lexemes t)

theorem lexemes_single (other : Kind.ofChar c ≠ .text) (bare : c = marker → digitFirst t = false) :
    lexemes (c :: t) = ⟨Kind.ofChar c, [c]⟩ :: lexemes t := by
  have step : lexemes (c :: t) = attach c (lexemes t) := rfl
  rw [step]
  by_cases marked : c = marker
  · subst marked
    have no_digit := (takeWhile_leadingRun t).trans ((takeWhile_eq_nil_iff t).mpr (bare rfl))
    rw [attach_bare no_digit, putRun_lexemes]
    rfl
  · exact attach_single other marked _

theorem lexemes_letters (some_letter : w ≠ []) (letters : ∀ c ∈ w, Kind.ofChar c = .text) (t : Text) :
    lexemes (w ++ t) = ⟨.text, w ++ leadingRun (lexemes t)⟩ :: afterRun (lexemes t) := by
  induction w with
  | nil => exact absurd rfl some_letter
  | cons c w ih =>
    rw [List.cons_append, lexemes_letter (letters c List.mem_cons_self)]
    cases w with
    | nil => rfl
    | cons d w =>
      rw [ih (List.cons_ne_nil d w) fun e he => letters e (List.mem_cons_of_mem _ he)]
      rfl

theorem lexemes_alias (some_digit : digits ≠ []) (all : ∀ d ∈ digits, d.isDigit = true)
    (stop : digitFirst t = false) :
    lexemes (marker :: (digits ++ t)) = ⟨.aliasName, marker :: digits⟩ :: lexemes t := by
  have step : lexemes (marker :: (digits ++ t)) = attach marker (lexemes (digits ++ t)) := rfl
  have parts := takeWhile_digits all ((digitFirst_leadingRun t).mpr stop)
  rw [step, lexemes_letters some_digit fun d hd => Kind.ofChar_digit (all d hd)]
  change markRun (digits ++ leadingRun (lexemes t)) (afterRun (lexemes t)) = _
  simp only [markRun, parts.1, parts.2]
  change _ :: putRun (leadingRun (lexemes t)) (afterRun (lexemes t)) = _
  rw [putRun_lexemes, if_neg (mt List.isEmpty_iff.mp some_digit)]

end Lexemes

/-- A text as the searches read it: an alias as a whole, and any other character by itself. -/
theorem alias_induction {motive : Text → Prop} (nil : motive [])
    (cons : ∀ c t, (c = marker → digitFirst t = false) → motive t → motive (c :: t))
    (named : ∀ digits t, digits ≠ [] → (∀ d ∈ digits, d.isDigit = true) → digitFirst t = false → motive t →
      motive (marker :: (digits ++ t))) (t : Text) : motive t := by
  induction size : t.length using Nat.strongRecOn generalizing t with
  | ind n ih =>
    subst size
    cases t with
    | nil => exact nil
    | cons c t =>
      rcases alias_or_bare c t with ⟨digits, rest, rfl, rfl, some_digit, all, stop⟩ | bare
      · have shorter : rest.length < (marker :: (digits ++ rest)).length := by
          simp only [List.length_cons, List.length_append]
          omega
        exact named digits rest some_digit all stop (ih _ shorter rest rfl)
      · exact cons c t bare (ih _ (Nat.lt_succ_self _) t rfl)

theorem utf8Size_marker : marker.utf8Size = 1 := by decide

theorem size_digits {digits : Text} (all : ∀ d ∈ digits, d.isDigit = true) :
    Text.size digits = digits.length := by
  refine Text.size_eq_length_iff.mpr fun d member => ?_
  have digit := all d member
  simp only [Char.isDigit, Bool.and_eq_true, decide_eq_true_eq] at digit
  refine Char.utf8Size_eq_one_iff.mpr (UInt32.le_trans digit.2 ?_)
  decide

def aliasToken (start : Nat) (found : Text × Text × Text) : Token :=
  ⟨start + Text.size found.1, start + Text.size found.1 + Text.size found.2.1, .aliasName, found.2.1⟩

theorem aliasToken_cons (start : Nat) (c : Char) :
    aliasToken start ∘ (fun found => (c :: found.1, found.2)) = aliasToken (start + c.utf8Size) := by
  funext found
  simp [aliasToken, Nat.add_assoc]

theorem aliases_other {l : Lexeme} (other : l.kind ≠ .aliasName) (start : Nat) (ls : List Lexeme) :
    (Token.place start (l :: ls)).filter (·.kind == .aliasName) =
      (Token.place (start + Text.size l.text) ls).filter (·.kind == .aliasName) := by
  simp [Token.place, other]

theorem aliases_putRun (start : Nat) (run : Text) (rest : List Lexeme) :
    (Token.place start (putRun run rest)).filter (·.kind == .aliasName) =
      (Token.place (start + Text.size run) rest).filter (·.kind == .aliasName) := by
  cases run with
  | nil => rfl
  | cons c run => exact aliases_other (by simp) start rest

theorem aliases_cons {c : Char} {t : Text} (bare : c = marker → digitFirst t = false) (start : Nat) :
    (Token.place start (lexemes (c :: t))).filter (·.kind == .aliasName) =
      (Token.place (start + c.utf8Size) (lexemes t)).filter (·.kind == .aliasName) := by
  by_cases letter : Kind.ofChar c = .text
  · conv => rhs; rw [← putRun_lexemes t, aliases_putRun]
    rw [lexemes_letter letter, aliases_other (by simp), Text.size_cons, ← Nat.add_assoc]
  · rw [lexemes_single letter bare, aliases_other (Kind.ofChar_ne_aliasName c)]
    rfl

theorem find?_place (start : Nat) (t : Text) :
    (Token.place start (lexemes t)).find? (·.kind == .aliasName) =
      (firstAlias? t).map (aliasToken start) := by
  induction t using alias_induction generalizing start with
  | nil => rfl
  | cons c t bare ih =>
    rw [← List.head?_filter, aliases_cons bare, List.head?_filter, ih, firstAlias?_cons bare, Option.map_map,
      aliasToken_cons]
  | named digits t some_digit all stop ih =>
    rw [lexemes_alias some_digit all stop, firstAlias?_alias some_digit all stop]
    rfl

/-- Reading the tokens of a text finds the alias that the search finds, where it stands. -/
theorem find?_tokenize (t : Text) :
    (tokenize t).find? (·.kind == .aliasName) = (firstAlias? t).map (aliasToken 0) :=
  find?_place 0 t

theorem exists_digits_of_firstAlias? {t before name after : Text}
    (found : firstAlias? t = some (before, name, after)) : ∃ digits, name = marker :: digits := by
  induction t using alias_induction generalizing before name after with
  | nil => cases found
  | cons c t bare ih =>
    rw [firstAlias?_cons bare] at found
    obtain ⟨⟨b, n, a⟩, deeper, same⟩ := Option.map_eq_some_iff.mp found
    cases same
    exact ih deeper
  | named digits t some_digit all stop ih =>
    rw [firstAlias?_alias some_digit all stop] at found
    cases found
    exact ⟨digits, rfl⟩

end EvalOrder
