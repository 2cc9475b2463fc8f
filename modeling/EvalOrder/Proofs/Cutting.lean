import EvalOrder.Proofs.Aliases
import EvalOrder.Proofs.Binding
import EvalOrder.Theory.Cutting

/-! Main statement: the operators found in the bytes of a text are its operator tokens, and an operation
is read by itself as in its text. An operation ends at operators or at the ends of the text, and no token
goes on at an operator or behind one. -/
namespace EvalOrder

/-- Where a text may be cut: at an operator, or where nothing is left. -/
def CutAt (next : Option Char) : Prop :=
  ∀ c ∈ next, ∃ o : Operator, c = o.symbol

section Cuts

variable {t u x v : Text} {token : Token} {o : Operator}

theorem bounds_of_mem_tokenize (member : token ∈ tokenize t) :
    token.start < token.stop ∧ token.stop ≤ Text.size t := by
  refine ⟨(tokenizes_tokenize t).nonempty token member, ?_⟩
  obtain ⟨before, after, whole, _, stop⟩ := exists_of_mem_tokenize member
  rw [whole, Text.size_append, Text.size_append]
  omega

theorem bounds_of_mem_shifted {k : Nat} (member : token ∈ (tokenize t).map (Token.shift k)) :
    k ≤ token.start ∧ token.start < token.stop ∧ token.stop ≤ k + Text.size t := by
  obtain ⟨token, found, rfl⟩ := List.mem_map.mp member
  obtain ⟨some_byte, within⟩ := bounds_of_mem_tokenize found
  change k ≤ k + token.start ∧ k + token.start < k + token.stop ∧ k + token.stop ≤ k + Text.size t
  omega

theorem text_of_operator (member : token ∈ tokenize t) (kind : token.kind = .operator o) :
    token.text = [o.symbol] := by
  have spelled := spelled_of_mem_tokenize member
  obtain ⟨start, stop, kind, text⟩ := token
  subst kind
  cases spelled with
  | single same other =>
    cases sign_iff.mpr ⟨same, other, nofun⟩
    rfl

theorem readsOperators (t : Text) : ReadsOperators t := by
  have single : ∀ token ∈ tokenize t, ∀ o, token.kind = .operator o →
      token.stop = token.start + 1 ∧ token.text = [o.symbol] := by
    intro token member o kind
    have text := text_of_operator member kind
    obtain ⟨_, _, _, start, stop⟩ := exists_of_mem_tokenize member
    rw [text, Text.size_cons, Operator.utf8Size_symbol, Text.size_nil] at stop
    exact ⟨by omega, text⟩
  refine ⟨fun i o => ?_, single⟩
  rw [operatorAt_iff, mem_marksOf_iff_symbol]
  constructor
  · rintro ⟨u, v, rfl, place⟩
    have found := (tokenizes_tokenize (u ++ o.symbol :: v)).sign u o.symbol v _ rfl (.operator o)
    exact ⟨_, found, rfl, place, congrArg (· + 1) place⟩
  · rintro ⟨token, member, kind, start, _⟩
    obtain ⟨u, v, whole, place, _⟩ := exists_of_mem_tokenize member
    rw [text_of_operator member kind, List.append_assoc] at whole
    exact ⟨u, v, whole, place.trans start⟩

theorem lexemes_around_operator (u : Text) (o : Operator) (v : Text) :
    lexemes (u ++ o.symbol :: v) = lexemes u ++ ⟨.operator o, [o.symbol]⟩ :: lexemes v := by
  obtain ⟨same, other, _⟩ := sign_iff.mp (.operator o)
  have ends : Lexeme.EndsAt ⟨.operator o, [o.symbol]⟩ v := by
    rintro c _ (⟨text, _⟩ | ⟨marked, _⟩)
    · cases text
    · cases marked
  exact lexemes_around (.single same other) other ends u

theorem lexemes_behind (cut : CutAt u.getLast?) (v : Text) :
    lexemes (u ++ v) = lexemes u ++ lexemes v := by
  cases last : u.getLast? with
  | none =>
    rw [List.getLast?_eq_none_iff.mp last]
    rfl
  | some c =>
    obtain ⟨o, rfl⟩ := cut c last
    obtain ⟨u, rfl⟩ := List.getLast?_eq_some_iff.mp last
    have here := lexemes_around_operator u o []
    rw [List.append_assoc, List.singleton_append, lexemes_around_operator, here, List.append_assoc]
    rfl

theorem tokenize_append (seam : lexemes (u ++ v) = lexemes u ++ lexemes v) :
    tokenize (u ++ v) = tokenize u ++ (tokenize v).map (Token.shift (Text.size u)) := by
  rw [tokenize, seam, place_append, join_lexemes, Nat.zero_add, tokenize.eq_1 v, ← place_shift]
  rfl

theorem tokenize_between (behind : CutAt u.getLast?) (before : CutAt v.head?) :
    tokenize (u ++ x ++ v) = tokenize u ++ (tokenize x).map (Token.shift (Text.size u)) ++
      (tokenize v).map (Token.shift (Text.size u + Text.size x)) := by
  have other : ∀ c ∈ v.head?, Kind.ofChar c ≠ .text := by
    intro c first
    obtain ⟨o, rfl⟩ := before c first
    obtain ⟨same, other, _⟩ := sign_iff.mp (.operator o)
    exact same ▸ other
  rw [tokenize_append (lexemes_seam other (u ++ x)), tokenize_append (lexemes_behind behind x),
    Text.size_append]

theorem last_of_operatorAt {p : Nat} (there : OperatorAt (u ++ v) p o) (size : Text.size u = p + 1) :
    u.getLast? = some o.symbol := by
  obtain ⟨front, back, split, place⟩ := mem_marksOf_iff_symbol.mp (operatorAt_iff.mp there)
  rw [← List.singleton_append, ← List.append_assoc] at split
  have sizes : Text.size u = Text.size (front ++ [o.symbol]) := by
    rw [size, Text.size_append, place, Text.size_cons, Operator.utf8Size_symbol, Text.size_nil]
  obtain ⟨rfl, _⟩ := Text.append_inj_of_size split sizes
  exact List.getLast?_concat

theorem first_of_operatorAt {p : Nat} (there : OperatorAt (u ++ v) p o) (size : Text.size u = p) :
    v.head? = some o.symbol := by
  obtain ⟨front, back, split, place⟩ := mem_marksOf_iff_symbol.mp (operatorAt_iff.mp there)
  obtain ⟨_, rfl⟩ := Text.append_inj_of_size split (size.trans place.symm)
  rfl

end Cuts

section Operations

variable {t u v : Text} {i : Nat} {o : Operation} {token : Token}

theorem Binds.exists_edges (binds : Binds t i o) :
    ∃ u v, t = u ++ o.text ++ v ∧ Text.size u = o.start ∧ Text.size u + Text.size o.text = o.stop + 1 ∧
      CutAt u.getLast? ∧ CutAt v.head? := by
  obtain ⟨u, v, rfl, start, stop⟩ := Text.slice?_eq_some_iff.mp binds.text
  refine ⟨u, v, rfl, start, stop, fun c last => ?_, fun c first => ?_⟩
  · obtain ⟨wall, nearest, at_wall⟩ := binds.left
    cases wall with
    | none =>
      have empty : u = [] := Text.size_eq_zero.mp (start.trans at_wall)
      rw [empty] at last
      cases last
    | some p =>
      obtain ⟨_, ⟨_, w, there, _⟩, _⟩ := nearest
      rw [List.append_assoc] at there
      rw [last_of_operatorAt there (start.trans at_wall)] at last
      exact ⟨w, (Option.some.inj last).symm⟩
  · obtain ⟨wall, nearest, at_wall⟩ := binds.right
    cases wall with
    | none =>
      have inside := lt_size_of_mem (operatorAt_iff.mp binds.operator)
      change o.stop = Text.size (u ++ o.text ++ v) - 1 at at_wall
      rw [Text.size_append, Text.size_append] at inside at_wall
      have empty : v = [] := Text.size_eq_zero.mp (by omega)
      rw [empty] at first
      cases first
    | some q =>
      obtain ⟨right, ⟨w, there, _⟩, _⟩ := nearest
      change o.stop = q - 1 at at_wall
      have sizes : Text.size (u ++ o.text) = q := by
        rw [Text.size_append]
        omega
      rw [first_of_operatorAt there sizes] at first
      exact ⟨w, (Option.some.inj first).symm⟩

theorem Token.isInside_iff :
    Token.isInside o token = true ↔ o.start ≤ token.start ∧ token.stop ≤ o.stop + 1 := by
  simp only [Token.isInside, Bool.and_eq_true, decide_eq_true_eq]

theorem filter_isInside_eq_nil {tokens : List Token}
    (beside : ∀ token ∈ tokens, token.start < token.stop ∧ (token.stop ≤ o.start ∨ o.stop < token.start)) :
    tokens.filter (Token.isInside o) = [] := by
  refine List.filter_eq_nil_iff.mpr fun token member inside => ?_
  have within := Token.isInside_iff.mp inside
  have apart := beside token member
  omega

theorem keepsTokens_of_edges (start : Text.size u = o.start)
    (stop : Text.size u + Text.size o.text = o.stop + 1)
    (behind : CutAt u.getLast?) (before : CutAt v.head?) : o.KeepsTokens (u ++ o.text ++ v) := by
  -- The tokens of the whole are those of the three texts; only those of the operation have all bytes in it.
  have parts := tokenize_between (x := o.text) behind before
  rw [stop, start] at parts
  have left : ∀ token ∈ tokenize u, token.start < token.stop ∧
      (token.stop ≤ o.start ∨ o.stop < token.start) := by
    intro token member
    obtain ⟨some_byte, last⟩ := bounds_of_mem_tokenize member
    exact ⟨some_byte, .inl (start ▸ last)⟩
  have own : ∀ token ∈ (tokenize o.text).map (Token.shift o.start), Token.isInside o token = true := by
    intro token member
    obtain ⟨first, _, last⟩ := bounds_of_mem_shifted member
    exact Token.isInside_iff.mpr ⟨first, by omega⟩
  have right : ∀ token ∈ (tokenize v).map (Token.shift (o.stop + 1)),
      token.start < token.stop ∧ (token.stop ≤ o.start ∨ o.stop < token.start) := by
    intro token member
    obtain ⟨first, some_byte, _⟩ := bounds_of_mem_shifted member
    exact ⟨some_byte, .inr first⟩
  constructor
  case tokens =>
    rw [parts, List.filter_append, List.filter_append, filter_isInside_eq_nil left,
      filter_isInside_eq_nil right, List.filter_eq_self.mpr own, List.nil_append, List.append_nil]
  case uncut =>
    intro token member
    rw [parts, List.append_assoc] at member
    rcases List.mem_append.mp member with member | member
    · exact .inr (left token member).2
    rcases List.mem_append.mp member with member | member
    · exact .inl (own token member)
    · exact .inr (right token member).2

theorem Binds.keepsTokens (binds : Binds t i o) : o.KeepsTokens t := by
  obtain ⟨u, v, rfl, start, stop, behind, before⟩ := binds.exists_edges
  exact keepsTokens_of_edges start stop behind before

end Operations

/-- In any text the two readings find the same operators, and an operation split off any level is read
alone as there. -/
theorem split_keepsTokens :
    (∀ t, ReadsOperators t) ∧
      ∀ (level : Level), ∀ o ∈ level.split.operations, o.KeepsTokens level.masked := by
  refine ⟨readsOperators, fun level o made => ?_⟩
  obtain ⟨k, m, found, rfl⟩ := mem_operationsOf.mp made
  exact (binds_bound (List.mem_of_getElem? found) k).keepsTokens

theorem split_keepsTokens_aliases : ∃ (level : Level) (o : Operation), level.masked = "é@@2|@-x@01&@".toList ∧
    o ∈ level.split.operations ∧ o.text = "@-x@01".toList ∧ ReadsOperators level.masked ∧
      o.KeepsTokens level.masked ∧ (tokenize level.masked).filter (Token.isInside o) =
        [⟨6, 7, .marker, ['@']⟩, ⟨7, 8, .operator .subtract, ['-']⟩, ⟨8, 9, .text, ['x']⟩,
          ⟨9, 12, .aliasName, ['@', '0', '1']⟩] := by
  have made : (⟨6, 11, .subtract, "@-x@01".toList, 0⟩ : Operation) ∈
      { Level.outermost [] with masked := "é@@2|@-x@01&@".toList }.split.operations := by decide +kernel
  have kept := split_keepsTokens.2 _ _ made
  refine ⟨_, _, rfl, made, rfl, split_keepsTokens.1 _, kept, ?_⟩
  rw [← kept.tokens]
  decide +kernel

end EvalOrder
