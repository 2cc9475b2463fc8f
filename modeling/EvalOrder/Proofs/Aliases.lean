import EvalOrder.Proofs.Restoration
import EvalOrder.Proofs.Tokenization
import EvalOrder.Theory.Aliases

/-! Aliases between any texts. An alias starts at a marker, which no text before it takes, and ends at the
first character that is no digit. Its digits have one value, by their places or from the left with each
step checked. -/
namespace EvalOrder

theorem ofDigitChars_eq_decimal (digits : Text) : Nat.ofDigitChars 10 digits 0 = decimal digits := by
  induction digits with
  | nil => rfl
  | cons d digits ih =>
    rw [Nat.ofDigitChars_cons, Nat.ofDigitChars_eq_ofDigitChars_zero, ih, decimal, digitValue, Nat.mul_zero,
      Nat.zero_add, Nat.mul_comm]

theorem indexOfAlias?_eq (digits : Text) : indexOfAlias? (marker :: digits) = word? (decimal digits) := by
  rw [indexOfAlias?, List.tail_cons, ofDigitChars_eq_decimal]
  rfl

theorem decimal_dropWhile_zeros (digits : Text) : decimal digits = decimal (digits.dropWhile (· == '0')) := by
  induction digits with
  | nil => rfl
  | cons d digits ih =>
    by_cases zero : d = '0'
    · subst zero
      rw [List.dropWhile_cons_of_pos (by decide), ← ih, decimal]
      change 0 * _ + _ = _
      rw [Nat.zero_mul, Nat.zero_add]
    · rw [List.dropWhile_cons_of_neg (by simpa using zero)]

/-- No value gets smaller by further digits, so a value that is no word stays none. -/
theorem readWord_eq {value : Nat} (fits : value < wordLimit) (digits : Text) :
    readWord value digits = word? (value * 10 ^ digits.length + decimal digits) := by
  induction digits generalizing value with
  | nil =>
    rw [readWord, decimal, List.length_nil, Nat.pow_zero, Nat.mul_one, Nat.add_zero, word?, if_pos fits]
  | cons d digits ih =>
    have whole : value * 10 ^ (d :: digits).length + decimal (d :: digits) =
        (value * 10 + digitValue d) * 10 ^ digits.length + decimal digits := by
      calc value * 10 ^ (d :: digits).length + decimal (d :: digits)
        _ = value * (10 * 10 ^ digits.length) + (digitValue d * 10 ^ digits.length + decimal digits) := by
          rw [List.length_cons, Nat.pow_succ', decimal]
        _ = (value * 10 + digitValue d) * 10 ^ digits.length + decimal digits := by
          rw [Nat.add_mul, Nat.mul_assoc, Nat.add_assoc]
    have grows : value * 10 + digitValue d ≤ (value * 10 + digitValue d) * 10 ^ digits.length :=
      Nat.le_mul_of_pos_right _ (Nat.pow_pos (by decide))
    rw [readWord, whole]
    by_cases next : value * 10 + digitValue d < wordLimit
    · have tens : word? (value * 10) = some (value * 10) := if_pos (by omega)
      have step : word? (value * 10 + digitValue d) = some (value * 10 + digitValue d) := if_pos next
      simp only [tens, step, Option.bind_eq_bind, Option.bind_some, ih next]
    · have step : word? (value * 10 + digitValue d) = none := if_neg next
      have never : word? ((value * 10 + digitValue d) * 10 ^ digits.length + decimal digits) = none :=
        if_neg (by omega)
      rw [never, Option.bind_eq_bind, Option.bind_eq_none_iff]
      intro tens read
      by_cases small : value * 10 < wordLimit
      · rw [word?, if_pos small, Option.some.injEq] at read
        rw [← read, step]
        rfl
      · rw [word?, if_neg small] at read
        cases read

theorem place_shift (k start : Nat) (ls : List Lexeme) :
    Token.place (k + start) ls = (Token.place start ls).map (Token.shift k) := by
  induction ls generalizing start with
  | nil => rfl
  | cons l ls ih =>
    rw [Token.place, Token.place, List.map_cons, Nat.add_assoc, ih]
    rfl

theorem readsBack {n : Nat} (fits : n < wordLimit) (u : Text) {v : Text}
    (apart : ∀ c ∈ v.head?, c.isDigit = false) :
    ReadsBack n u v := by
  have spelled : Lexeme.Spelled ⟨.aliasName, aliasOf n⟩ := .digits Nat.toDigits_ne_nil (aliasOf_digits n)
  have ends : Lexeme.EndsAt ⟨.aliasName, aliasOf n⟩ v :=
    Lexeme.endsAt_of_other nofun (digitFirst_eq_false_iff.mpr apart)
  constructor
  · rw [List.append_assoc, tokenize_around spelled nofun ends u, tokenize.eq_1 v, ← place_shift]
    rfl
  · exact indexOfAlias?_aliasOf fits

theorem numbered_of_mem_tokenize {t : Text} {token : Token} (member : token ∈ tokenize t)
    (named : token.kind = .aliasName) : ∃ digits, token.Numbered digits := by
  have spelled := spelled_of_mem_tokenize member
  obtain ⟨start, stop, kind, text⟩ := token
  cases spelled with
  | letters _ _ => cases named
  | @digits digits some_digit all =>
    have index : Token.index? ⟨start, stop, .aliasName, marker :: digits⟩ = word? (decimal digits) :=
      indexOfAlias?_eq digits
    refine ⟨digits, rfl, some_digit, all, index, decimal_dropWhile_zeros digits, ?_⟩
    rw [index, readWord_eq (by decide), Nat.zero_mul, Nat.zero_add]
  | single same _ => exact absurd (same.trans named) (Kind.ofChar_ne_aliasName _)

/-- An alias is read back from between any texts, and what is read as an alias is the number it spells. -/
theorem aliases_readBack :
    (∀ (n : Nat) (u v : Text), n < wordLimit → (∀ c ∈ v.head?, c.isDigit = false) → ReadsBack n u v) ∧
    ∀ t, ∀ token ∈ tokenize t, token.kind = .aliasName → ∃ digits, token.Numbered digits :=
  ⟨fun _ u _ fits apart => readsBack fits u apart,
    fun _ _ member named => numbered_of_mem_tokenize member named⟩

theorem aliases_readBack_between_markers :
    ReadsBack 12 ['9', '@'] ['@', '0', '7'] ∧
      ∃ digits, Token.Numbered ⟨5, 8, .aliasName, ['@', '0', '7']⟩ digits := by
  have apart : ∀ c ∈ (['@', '0', '7'] : Text).head?, c.isDigit = false := by
    intro c first
    cases first
    rfl
  exact ⟨aliases_readBack.1 12 ['9', '@'] ['@', '0', '7'] (by decide) apart,
    aliases_readBack.2 ['9', '@', '@', '1', '2', '@', '0', '7'] _ (by decide) rfl⟩

end EvalOrder
