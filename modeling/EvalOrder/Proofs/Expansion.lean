import EvalOrder.Settling

/-! Expansion by repeated search, as equations on the text. The searches read everything anew, and still a
text expands from left to right: what was put in holds no marker, and does not start with a digit, so it
neither makes a new alias nor adds to one. -/
namespace EvalOrder

def digitFirst (t : Text) : Bool :=
  t.head?.any Char.isDigit

theorem takeWhile_digits {digits t : Text} (all : ∀ d ∈ digits, d.isDigit = true)
    (stop : digitFirst t = false) :
    (digits ++ t).takeWhile Char.isDigit = digits ∧ (digits ++ t).dropWhile Char.isDigit = t := by
  induction digits with
  | nil =>
    cases t with
    | nil => exact ⟨rfl, rfl⟩
    | cons c t =>
      have no_digit : c.isDigit = false := stop
      simp [no_digit]
  | cons d digits ih =>
    have digit := all d List.mem_cons_self
    have rest := ih fun e he => all e (List.mem_cons_of_mem _ he)
    simp [digit, rest.1, rest.2]

theorem exists_run (p : Char → Bool) (t : Text) :
    ∃ run rest, t = run ++ rest ∧ (∀ c ∈ run, p c = true) ∧ ∀ c ∈ rest.head?, p c = false := by
  induction t with
  | nil => exact ⟨[], [], rfl, by simp, by simp⟩
  | cons c t ih =>
    cases sort : p c with
    | false => exact ⟨[], c :: t, rfl, by simp, by simp [sort]⟩
    | true =>
      obtain ⟨run, rest, rfl, all, stop⟩ := ih
      exact ⟨c :: run, rest, rfl, List.forall_mem_cons.mpr ⟨sort, all⟩, stop⟩

theorem digitFirst_eq_false_iff {t : Text} : digitFirst t = false ↔ ∀ c ∈ t.head?, c.isDigit = false := by
  cases t with
  | nil => simp [digitFirst]
  | cons c t => simp [digitFirst]

theorem exists_digits (t : Text) :
    ∃ digits rest, t = digits ++ rest ∧ (∀ d ∈ digits, d.isDigit = true) ∧ digitFirst rest = false := by
  obtain ⟨digits, rest, same, all, stop⟩ := exists_run Char.isDigit t
  exact ⟨digits, rest, same, all, digitFirst_eq_false_iff.mpr stop⟩

theorem firstAlias?_cons {c : Char} {t : Text} (bare : c = marker → digitFirst t = false) :
    firstAlias? (c :: t) = (firstAlias? t).map fun found => (c :: found.1, found.2) := by
  rw [firstAlias?, if_neg]
  rw [Bool.and_eq_true, beq_iff_eq]
  rintro ⟨is_marker, digit⟩
  have := bare is_marker
  rw [digitFirst, digit] at this
  cases this

theorem firstAlias?_alias {digits t : Text} (some_digit : digits ≠ []) (all : ∀ d ∈ digits, d.isDigit = true)
    (stop : digitFirst t = false) :
    firstAlias? (marker :: (digits ++ t)) = some ([], marker :: digits, t) := by
  cases digits with
  | nil => exact absurd rfl some_digit
  | cons d digits =>
    have parts := takeWhile_digits all stop
    have digit := all d List.mem_cons_self
    rw [firstAlias?, if_pos, parts.1, parts.2]
    simp [digit]

theorem alias_or_bare (c : Char) (t : Text) :
    (∃ digits rest, c = marker ∧ t = digits ++ rest ∧ digits ≠ [] ∧ (∀ d ∈ digits, d.isDigit = true) ∧
      digitFirst rest = false) ∨ (c = marker → digitFirst t = false) := by
  by_cases marked : c = marker
  · obtain ⟨digits, rest, rfl, all, stop⟩ := exists_digits t
    cases digits with
    | nil => exact .inr fun _ => stop
    | cons d digits => exact .inl ⟨d :: digits, rest, marked, rfl, by simp, all, stop⟩
  · exact .inr fun h => absurd h marked

section Searches

variable {levels : List Level} {level : Level}

/-- What the aliases of a level stand for has no marker, and starts with a parenthesis. -/
def Harmless (levels : List Level) (level : Level) : Prop :=
  ∀ name raw, level.named? levels name = some raw → marker ∉ raw ∧ ∃ rest, raw = '(' :: rest

theorem expandWithin_done {n : Nat} {t : Text} (none : firstAlias? t = none) :
    expandWithin levels level (n + 1) t = some (.ok t) := by
  rw [expandWithin, search, none]

theorem expandWithin_unresolved {n : Nat} {t before name after : Text}
    (found : firstAlias? t = some (before, name, after)) (missing : level.named? levels name = none) :
    expandWithin levels level (n + 1) t = some (.error (level.unresolved name)) := by
  simp only [expandWithin, search, found, missing]

theorem expandWithin_again {n : Nat} {t before name after raw : Text}
    (found : firstAlias? t = some (before, name, after)) (named : level.named? levels name = some raw) :
    expandWithin levels level (n + 1) t = expandWithin levels level n (before ++ raw ++ after) := by
  simp only [expandWithin, search, found, named]

/-- The first character stays, and what is behind it expands by itself. -/
theorem expandWithin_cons (harmless : Harmless levels level) {n : Nat} {c : Char} {t : Text}
    (bare : c = marker → digitFirst t = false) :
    expandWithin levels level n (c :: t) =
      (expandWithin levels level n t).map (Except.map (c :: ·)) := by
  induction n generalizing t with
  | zero => rfl
  | succ n ih =>
    have first := firstAlias?_cons bare
    cases found : firstAlias? t with
    | none =>
      rw [found] at first
      rw [expandWithin_done first, expandWithin_done found]
      rfl
    | some parts =>
      obtain ⟨before, name, after⟩ := parts
      rw [found] at first
      cases named : level.named? levels name with
      | none =>
        rw [expandWithin_unresolved first named, expandWithin_unresolved found named]
        rfl
      | some raw =>
        rw [expandWithin_again first named, expandWithin_again found named]
        apply ih
        intro marked
        have split := (parts_of_firstAlias? found).1
        obtain ⟨_, rest, rfl⟩ := harmless name raw named
        cases before with
        | nil => rfl
        | cons d before =>
          have := bare marked
          rw [split] at this
          exact this

theorem expandWithin_append_unmarked (harmless : Harmless levels level) {n : Nat} {w t : Text}
    (unmarked : marker ∉ w) :
    expandWithin levels level n (w ++ t) = (expandWithin levels level n t).map (Except.map (w ++ ·)) := by
  induction w with
  | nil =>
    rw [List.nil_append]
    rcases expandWithin levels level n t with _ | (_ | _) <;> rfl
  | cons c w ih =>
    rw [List.mem_cons, not_or] at unmarked
    rw [List.cons_append, expandWithin_cons harmless fun h => absurd h.symm unmarked.1, ih unmarked.2]
    rcases expandWithin levels level n t with _ | (_ | _) <;> rfl

end Searches

end EvalOrder
