import EvalOrder.Proofs.Decomposition

/-! The tokens of a text from both sides. A character that is not text stands at the start of a token
wherever it is, so a token that holds one starts with it, and every token is a lexeme. The places say that
the lexemes join to the text. Main statement: what a reader of longest matches collects, and what has
everything in its place, is `tokenize`. -/
namespace EvalOrder

theorem sign_iff {c : Char} {kind : Kind} :
    Sign c kind ↔ Kind.ofChar c = kind ∧ kind ≠ .text ∧ kind ≠ .marker := by
  constructor
  · intro sign
    cases sign with
    | openParen | closeParen => decide
    | operator o => cases o <;> decide
  · rintro ⟨rfl, not_text, not_marker⟩
    by_cases opens : c = '('
    · rw [opens]
      exact .openParen
    by_cases closes : c = ')'
    · rw [closes]
      exact .closeParen
    rw [Kind.ofChar, if_neg opens, if_neg closes, if_neg (mt Kind.ofChar_eq_marker.mpr not_marker)]
      at not_text ⊢
    cases found : Operator.ofChar? c with
    | none => simp [found] at not_text
    | some o =>
      rw [Operator.ofChar?_eq_some_iff.mp found]
      exact .operator o

theorem Sign.utf8Size_eq {c : Char} {kind : Kind} (sign : Sign c kind) : c.utf8Size = 1 := by
  cases sign with
  | openParen | closeParen => decide
  | operator o => exact Operator.utf8Size_symbol o

theorem Lexeme.Spelled.holder_of_letter {l : Lexeme} (spelled : l.Spelled) {left right : Text} {c : Char}
    (parts : l.text = left ++ c :: right) (letter : Kind.ofChar c = .text) : l.kind = .text ∨
    ∃ digits, left = marker :: digits ∧ (∀ d ∈ digits, d.isDigit = true) ∧ c.isDigit = true := by
  cases spelled with
  | letters _ _ => exact .inl rfl
  | @digits digits _ all =>
    cases left with
    | nil =>
      obtain ⟨rfl, _⟩ := List.cons_eq_cons.mp parts
      cases letter
    | cons d left =>
      obtain ⟨rfl, rfl⟩ := List.cons_eq_cons.mp parts
      exact .inr ⟨left, rfl, fun d hd => all d (by simp [hd]), all c (by simp)⟩
  | @single d kind same not_text =>
    cases left with
    | nil =>
      obtain ⟨rfl, _⟩ := List.cons_eq_cons.mp parts
      exact .inl (same.symm.trans letter)
    | cons e left => simp at parts

section Seams

variable {l : Lexeme} {u v : Text}

/-- No lexeme goes on at a character that is not text; a digit is text. -/
theorem lexemes_seam (other : ∀ c ∈ v.head?, Kind.ofChar c ≠ .text) (u : Text) :
    lexemes (u ++ v) = lexemes u ++ lexemes v := by
  induction u using Lexeme.induction with
  | nil => rfl
  | cons l u spelled ends ih =>
    have still : l.EndsAt (u ++ v) := by
      cases u with
      | nil =>
        intro c first grows
        rcases grows with ⟨_, text⟩ | ⟨_, digit⟩
        · exact other c first text
        · exact other c first (Kind.ofChar_digit digit)
      | cons c u => exact ends
    rw [List.append_assoc, Lexeme.lexemes_append spelled still, Lexeme.lexemes_append spelled ends, ih]
    rfl

theorem place_append (start : Nat) (ls rest : List Lexeme) :
    Token.place start (ls ++ rest) =
      Token.place start ls ++ Token.place (start + Text.size (ls.flatMap Lexeme.text)) rest := by
  induction ls generalizing start with
  | nil => rfl
  | cons l ls ih =>
    rw [List.cons_append, Token.place, Token.place, ih, List.flatMap_cons, Text.size_append, Nat.add_assoc]
    rfl

theorem lexemes_around (spelled : l.Spelled) (other : l.kind ≠ .text) (ends : l.EndsAt v) (u : Text) :
    lexemes (u ++ (l.text ++ v)) = lexemes u ++ l :: lexemes v := by
  have no_text : ∀ c ∈ (l.text ++ v).head?, Kind.ofChar c ≠ .text := by
    obtain ⟨d, rest, front⟩ := spelled.exists_first
    intro c first text
    rw [front] at first
    cases first
    exact other ((spelled.sort front).1.mpr text)
  rw [lexemes_seam no_text, Lexeme.lexemes_append spelled ends]

theorem tokenize_around (spelled : l.Spelled) (other : l.kind ≠ .text) (ends : l.EndsAt v) (u : Text) :
    tokenize (u ++ (l.text ++ v)) = tokenize u ++
      ⟨Text.size u, Text.size u + Text.size l.text, l.kind, l.text⟩ ::
        Token.place (Text.size u + Text.size l.text) (lexemes v) := by
  rw [tokenize, lexemes_around spelled other ends, place_append, join_lexemes, Nat.zero_add]
  rfl

theorem mem_tokenize_around (spelled : l.Spelled) (other : l.kind ≠ .text) (ends : l.EndsAt v) (u : Text) :
    ⟨Text.size u, Text.size u + Text.size l.text, l.kind, l.text⟩ ∈ tokenize (u ++ (l.text ++ v)) := by
  rw [tokenize_around spelled other ends u]
  exact List.mem_append_right _ List.mem_cons_self

end Seams

section Places

variable {start stop : Nat} {tokens : List Token} {token a b : Token} {ls : List Lexeme}

theorem lexeme_place (start : Nat) (ls : List Lexeme) : (Token.place start ls).map Token.lexeme = ls := by
  induction ls generalizing start with
  | nil => rfl
  | cons l ls ih => rw [Token.place, List.map_cons, ih]; rfl

theorem contiguous_place (start : Nat) (ls : List Lexeme) :
    Contiguous start (Token.place start ls) (start + Text.size (ls.flatMap Lexeme.text)) := by
  induction ls generalizing start with
  | nil => rfl
  | cons l ls ih =>
    rw [List.flatMap_cons, Text.size_append, ← Nat.add_assoc]
    exact ⟨rfl, ih _⟩

theorem mem_place (member : token ∈ Token.place start ls) : ∃ before l after, ls = before ++ l :: after ∧
    token = ⟨start + Text.size (before.flatMap Lexeme.text),
      start + Text.size (before.flatMap Lexeme.text) + Text.size l.text, l.kind, l.text⟩ := by
  induction ls generalizing start with
  | nil => cases member
  | cons l ls ih =>
    rcases List.mem_cons.mp member with rfl | later
    · exact ⟨[], l, ls, rfl, rfl⟩
    · obtain ⟨before, m, after, rfl, rfl⟩ := ih later
      refine ⟨l :: before, m, after, rfl, ?_⟩
      rw [List.flatMap_cons, Text.size_append, ← Nat.add_assoc]

theorem Contiguous.eq_place (contiguous : Contiguous start tokens stop)
    (sized : ∀ token ∈ tokens, token.stop = token.start + Text.size token.text) :
    tokens = Token.place start (tokens.map Token.lexeme) := by
  induction tokens generalizing start with
  | nil => rfl
  | cons token tokens ih =>
    obtain ⟨rfl, rest⟩ := contiguous
    obtain ⟨size, sizes⟩ := List.forall_mem_cons.mp sized
    rw [List.map_cons, Token.place]
    change token :: tokens = ⟨token.start, token.start + Text.size token.text, token.kind, token.text⟩ ::
      Token.place (token.start + Text.size token.text) _
    rw [← size, ← ih rest sizes]

theorem Contiguous.le_start (contiguous : Contiguous start tokens stop)
    (nonempty : ∀ token ∈ tokens, token.start < token.stop) (member : token ∈ tokens) :
    start ≤ token.start := by
  induction tokens generalizing start with
  | nil => cases member
  | cons first tokens ih =>
    obtain ⟨rfl, rest⟩ := contiguous
    obtain ⟨some_byte, later⟩ := List.forall_mem_cons.mp nonempty
    rcases List.mem_cons.mp member with rfl | member
    · exact Nat.le_refl _
    · exact Nat.le_trans (Nat.le_of_lt some_byte) (ih rest later member)

theorem Contiguous.eq_of_overlap (contiguous : Contiguous start tokens stop)
    (nonempty : ∀ token ∈ tokens, token.start < token.stop) (ha : a ∈ tokens) (hb : b ∈ tokens)
    (after : a.start ≤ b.start) (within : b.start < a.stop) : a = b := by
  induction tokens generalizing start with
  | nil => cases ha
  | cons token tokens ih =>
    obtain ⟨rfl, rest⟩ := contiguous
    obtain ⟨some_byte, later⟩ := List.forall_mem_cons.mp nonempty
    rcases List.mem_cons.mp ha with first | a_later <;> rcases List.mem_cons.mp hb with second | b_later
    · exact first.trans second.symm
    · have := rest.le_start later b_later
      rw [first] at within
      omega
    · have := rest.le_start later a_later
      rw [second] at after
      omega
    · exact ih rest later a_later b_later

theorem Contiguous.exists_at {byte : Nat} (contiguous : Contiguous start tokens stop)
    (from_start : start ≤ byte)
    (to_stop : byte < stop) : ∃ token ∈ tokens, token.start ≤ byte ∧ byte < token.stop := by
  induction tokens generalizing start with
  | nil =>
    have empty : start = stop := contiguous
    omega
  | cons token tokens ih =>
    obtain ⟨rfl, rest⟩ := contiguous
    by_cases here : byte < token.stop
    · exact ⟨token, List.mem_cons_self, from_start, here⟩
    · obtain ⟨later, member, within⟩ := ih rest (Nat.le_of_not_lt here)
      exact ⟨later, List.mem_cons_of_mem _ member, within⟩

end Places

section Everything

variable {t : Text} {tokens : List Token} {token : Token}

theorem Tokenizes.exists_slice (whole : Tokenizes t tokens) (member : token ∈ tokens) :
    ∃ before after, t = before ++ token.text ++ after ∧ Text.size before = token.start ∧
      token.stop = token.start + Text.size token.text := by
  obtain ⟨before, after, same, start, stop⟩ := Text.slice?_eq_some_iff.mp (whole.slice token member)
  exact ⟨before, after, same, start, by omega⟩

/-- A character that is none of a run starts a token wherever it stands, and that token is a lexeme. -/
theorem Tokenizes.exists_start (whole : Tokenizes t tokens) {before after : Text} {c : Char}
    (at_c : t = before ++ c :: after) (other : Kind.ofChar c ≠ .text) :
    ∃ token ∈ tokens, token.start = Text.size before ∧ token.lexeme.Spelled := by
  by_cases marked : c = marker
  · subst marked
    obtain ⟨digits, rest, rfl, all, stop⟩ := exists_digits after
    refine ⟨_, whole.marked before digits rest at_c all (digitFirst_eq_false_iff.mp stop), rfl, ?_⟩
    by_cases bare : digits = []
    · subst bare
      exact .single rfl nofun
    · rw [if_neg bare]
      exact .digits bare all
  · have sign := sign_iff.mpr ⟨rfl, other, mt Kind.ofChar_eq_marker.mp marked⟩
    exact ⟨_, whole.sign before c after _ at_c sign, rfl, .single rfl other⟩

theorem Tokenizes.kind_of_letters (whole : Tokenizes t tokens) (member : token ∈ tokens)
    (all : ∀ c ∈ token.text, Kind.ofChar c = .text) (some_char : token.text ≠ []) : token.kind = .text := by
  obtain ⟨before, after, same, start, stop⟩ := whole.exists_slice member
  obtain ⟨c, rest, front⟩ := List.exists_cons_of_ne_nil some_char
  have letter : Kind.ofChar c = .text := all c (by simp [front])
  have at_c : t = before ++ c :: (rest ++ after) := by simp [same, front]
  have unmarked : c ≠ marker := by
    rintro rfl
    cases letter
  have no_sign (kind : Kind) : ¬ Sign c kind := by
    intro sign
    obtain ⟨rfl, not_text, _⟩ := sign_iff.mp sign
    exact not_text letter
  have some_byte := c.utf8Size_pos
  rw [front, Text.size_cons] at stop
  -- A digit that an alias takes is in the token of its marker, which would be this one.
  have of_no_alias : ∀ early digits, before = early ++ marker :: digits → (∀ d ∈ digits, d.isDigit = true) →
      c.isDigit = false := by
    rintro early digits rfl leading
    rw [← Bool.not_eq_true]
    intro digit
    obtain ⟨more, behind, rest_eq, trailing, ends⟩ := exists_digits (rest ++ after)
    have digits_here : ∀ d ∈ digits ++ c :: more, d.isDigit = true :=
      List.forall_mem_append.mpr ⟨leading, List.forall_mem_cons.mpr ⟨digit, trailing⟩⟩
    have named := whole.marked early (digits ++ c :: more) behind (by simp [at_c, rest_eq]) digits_here
      (digitFirst_eq_false_iff.mp ends)
    rw [Text.size_append, Text.size_cons, utf8Size_marker, size_digits leading] at start
    have starts_before : Text.size early ≤ token.start := by omega
    have ends_behind : token.start < Text.size early + 1 + (digits ++ c :: more).length := by
      rw [List.length_append, List.length_cons]
      omega
    rw [← whole.contiguous.eq_of_overlap whole.nonempty named member starts_before ends_behind] at all
    cases all marker List.mem_cons_self
  obtain ⟨run, hr, text, from_start, to_stop⟩ := whole.other before c _ at_c unmarked no_sign of_no_alias
  rw [← whole.contiguous.eq_of_overlap whole.nonempty hr member (by omega) (by omega)]
  exact text

theorem Tokenizes.spelled (whole : Tokenizes t tokens) (member : token ∈ tokens) : token.lexeme.Spelled := by
  obtain ⟨before, after, same, start, stop⟩ := whole.exists_slice member
  have some_byte := whole.nonempty token member
  by_cases plain : ∃ c ∈ token.text, Kind.ofChar c ≠ .text
  · obtain ⟨c, inside, other⟩ := plain
    obtain ⟨front, back, split⟩ := List.append_of_mem inside
    have at_c : t = (before ++ front) ++ c :: (back ++ after) := by simp [same, split]
    obtain ⟨started, hs, at_start, spelled⟩ := whole.exists_start at_c other
    have := c.utf8Size_pos
    rw [split, Text.size_append, Text.size_cons] at stop
    rw [Text.size_append] at at_start
    -- The token that starts at `c` overlaps this one, so it is this one, and `c` is its first character.
    rw [whole.contiguous.eq_of_overlap whole.nonempty member hs (by omega) (by omega)]
    exact spelled
  · have all : ∀ c ∈ token.text, Kind.ofChar c = .text :=
      fun c inside => Decidable.of_not_not fun other => plain ⟨c, inside, other⟩
    have some_char : token.text ≠ [] := by
      intro none
      rw [none, Text.size_nil] at stop
      omega
    rw [Token.lexeme, whole.kind_of_letters member all some_char]
    exact .letters some_char all

theorem Tokenizes.joined (whole : Tokenizes t tokens) :
    (tokens.map Token.lexeme).flatMap Lexeme.text = t := by
  suffices any : ∀ (rest : List Token) (before after : Text), t = before ++ after →
      (∀ token ∈ rest, token ∈ tokens) →
      Contiguous (Text.size before) rest (Text.size t) → (rest.map Token.lexeme).flatMap Lexeme.text =
        after from
    any tokens [] t rfl (fun _ member => member) whole.contiguous
  intro rest
  induction rest with
  | nil =>
    intro before after same _ contiguous
    have : Text.size after = 0 := by
      rw [same, Text.size_append] at contiguous
      exact Nat.add_eq_left.mp contiguous.symm
    exact (Text.size_eq_zero.mp this).symm
  | cons token rest ih =>
    intro before after same within contiguous
    obtain ⟨front, back, parts, start, stop⟩ := whole.exists_slice (within token List.mem_cons_self)
    obtain ⟨at_before, contiguous⟩ := contiguous
    rw [parts, List.append_assoc] at same
    obtain ⟨rfl, rfl⟩ := Text.append_inj_of_size same (start.trans at_before)
    rw [List.map_cons, List.flatMap_cons]
    congr 1
    refine ih (front ++ token.text) back parts (fun other later =>
      within other (List.mem_cons_of_mem _ later)) ?_
    rw [Text.size_append, start, ← stop]
    exact contiguous

theorem Tokenizes.eq_tokenize (whole : Tokenizes t tokens) : tokens = tokenize t := by
  have lexemes_eq : tokens.map Token.lexeme = lexemes t := by
    refine decomposes_iff.mp ⟨whole.joined, ?_, whole.apart⟩
    intro l member
    obtain ⟨token, hm, rfl⟩ := List.mem_map.mp member
    exact Lexeme.proper_iff.mpr (whole.spelled hm)
  have laid_out :=
    whole.contiguous.eq_place fun token member => (whole.exists_slice member).choose_spec.choose_spec.2.2
  rw [laid_out, lexemes_eq, tokenize]

theorem spelled_of_mem {l : Lexeme} (member : l ∈ lexemes t) : l.Spelled :=
  Lexeme.proper_iff.mp ((decomposes_lexemes t).proper l member)

theorem spelled_of_mem_tokenize (member : token ∈ tokenize t) : token.lexeme.Spelled := by
  apply spelled_of_mem (t := t)
  rw [← lexeme_place 0 (lexemes t)]
  exact List.mem_map_of_mem member

theorem contiguous_tokenize (t : Text) : Contiguous 0 (tokenize t) (Text.size t) := by
  have ends := contiguous_place 0 (lexemes t)
  rw [join_lexemes, Nat.zero_add] at ends
  exact ends

theorem exists_of_mem_tokenize (member : token ∈ tokenize t) :
    ∃ before after, t = before ++ token.text ++ after ∧
    Text.size before = token.start ∧ Text.size before + Text.size token.text = token.stop := by
  obtain ⟨before, l, after, split, rfl⟩ := mem_place member
  have whole := join_lexemes t
  rw [split, List.flatMap_append, List.flatMap_cons, ← List.append_assoc] at whole
  exact ⟨_, _, whole.symm, (Nat.zero_add _).symm, by rw [Nat.zero_add]⟩

theorem exists_token_around {before after : Text} {c : Char} (at_c : t = before ++ c :: after) :
    ∃ token ∈ tokenize t, ∃ front left right, before = front ++ left ∧ token.text = left ++ c :: right ∧
      Text.size front = token.start ∧ Text.size front + Text.size token.text = token.stop := by
  have some_byte := c.utf8Size_pos
  have inside : Text.size before < Text.size t := by
    rw [at_c, Text.size_append, Text.size_cons]
    omega
  obtain ⟨token, member, from_start, to_stop⟩ := (contiguous_tokenize t).exists_at (Nat.zero_le _) inside
  obtain ⟨front, back, parts, start, stop⟩ := exists_of_mem_tokenize member
  refine ⟨token, member, front, ?_⟩
  rw [at_c, List.append_assoc] at parts
  obtain ⟨left, rfl⟩ : front <+: before := by
    rcases List.append_eq_append_iff.mp parts with ⟨more, rfl, _⟩ | ⟨left, rfl, _⟩
    · rw [Text.size_append] at start
      have none : more = [] := Text.size_eq_zero.mp (by omega)
      exact ⟨[], by simp [none]⟩
    · exact List.prefix_append front left
  rw [List.append_assoc, List.append_cancel_left_eq] at parts
  rw [Text.size_append] at to_stop
  rcases List.append_eq_append_iff.mp parts with ⟨right, behind, rest⟩ | ⟨more, rfl, _⟩
  · cases right with
    | nil =>
      rw [behind, List.append_nil] at stop
      omega
    | cons d right =>
      obtain ⟨rfl, _⟩ := List.cons_eq_cons.mp rest
      exact ⟨left, right, rfl, behind, start, stop⟩
  · rw [Text.size_append] at to_stop
    omega

theorem tokenizes_tokenize (t : Text) : Tokenizes t (tokenize t) where
  nonempty := by
    intro token member
    obtain ⟨c, rest, front⟩ := (spelled_of_mem_tokenize member).exists_first
    obtain ⟨before, after, _, start, stop⟩ := exists_of_mem_tokenize member
    have := c.utf8Size_pos
    rw [show token.text = c :: rest from front, Text.size_cons] at stop
    omega
  contiguous := contiguous_tokenize t
  slice := fun token member => Text.slice?_eq_some_iff.mpr (exists_of_mem_tokenize member)
  sign := by
    rintro before c after kind rfl sign
    obtain ⟨rfl, not_text, not_marker⟩ := sign_iff.mp sign
    have ends : Lexeme.EndsAt ⟨Kind.ofChar c, [c]⟩ after := by
      intro d _ grows
      rcases grows with ⟨text, _⟩ | ⟨marked, _⟩
      · exact not_text text
      · exact not_marker (Kind.ofChar_eq_marker.mpr (Kind.isMarker_ofChar.mp marked))
    have found := mem_tokenize_around (.single rfl not_text) not_text ends before
    rw [Text.size_cons, sign.utf8Size_eq] at found
    exact found
  marked := by
    rintro before digits after rfl all stop
    have ends (kind : Kind) (other : kind ≠ .text) : Lexeme.EndsAt ⟨kind, marker :: digits⟩ after :=
      Lexeme.endsAt_of_other other (digitFirst_eq_false_iff.mpr stop)
    by_cases bare : digits = []
    · subst bare
      have spelled : Lexeme.Spelled ⟨.marker, [marker]⟩ := .single rfl nofun
      exact mem_tokenize_around spelled nofun (ends .marker nofun) before
    · have found := mem_tokenize_around (.digits bare all) nofun (ends .aliasName nofun) before
      rw [Text.size_cons, utf8Size_marker, size_digits all, ← Nat.add_assoc] at found
      rw [if_neg bare]
      exact found
  other := by
    rintro before c after same unmarked no_sign of_no_alias
    have letter : Kind.ofChar c = .text := by
      refine Decidable.of_not_not fun other => no_sign _ (sign_iff.mpr ⟨rfl, other, ?_⟩)
      exact mt Kind.ofChar_eq_marker.mp unmarked
    obtain ⟨token, member, front, left, right, split, parts, start, stop⟩ := exists_token_around same
    have text : token.kind = .text := by
      rcases (spelled_of_mem_tokenize member).holder_of_letter parts letter with
        text | ⟨digits, at_marker, leading, digit⟩
      · exact text
      · rw [at_marker] at split
        rw [of_no_alias front digits split leading] at digit
        cases digit
    rw [parts, Text.size_append, Text.size_cons] at stop
    refine ⟨token, member, text, ?_, ?_⟩ <;> rw [split, Text.size_append] <;> omega
  apart := by
    rw [tokenize, lexeme_place]
    exact (decomposes_lexemes t).apart

end Everything

/-- Whoever takes the longest match as long as there is one gets the tokens, and there are no others that
have every character where it belongs. -/
theorem tokenize_maximalRuns {t : Text} {tokens : List Token} :
    (Collected 0 t tokens ↔ tokens = tokenize t) ∧ (Tokenizes t tokens ↔ tokens = tokenize t) := by
  refine ⟨collected_iff, Tokenizes.eq_tokenize, ?_⟩
  rintro rfl
  exact tokenizes_tokenize t

end EvalOrder
