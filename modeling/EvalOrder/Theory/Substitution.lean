import EvalOrder.Expansion

/-! Putting raw texts back for aliases in a single pass over the tokens of a text, from left to right.
What is put in is not read. The pass fails on the first alias that names no level, so a failure names that
one. -/
namespace EvalOrder

/-- What comes to stand in the place of a token. None for an alias that names no level. -/
def Token.filling? (levels : List Level) (level : Level) (token : Token) : Option Text :=
  if token.kind = .aliasName then do
    let index ← token.index?
    let place ← level.nested[index]?
    let other ← levels[place]?
    return other.raw
  else some token.text

def substitute (levels : List Level) (level : Level) : List Token → Except Failure Text
  | [] => .ok []
  | token :: rest =>
    match token.filling? levels level with
    | none => .error (level.unresolved token.text)
    | some front => (substitute levels level rest).map (front ++ ·)

def onePass (levels : List Level) (level : Level) (t : Text) : Except Failure Text :=
  substitute levels level (tokenize t)

def FirstWith {α : Type} (P : α → Prop) (xs : List α) (x : α) : Prop :=
  ∃ front back, xs = front ++ x :: back ∧ P x ∧ ∀ y ∈ front, ¬ P y

def Token.number (token : Token) : Nat :=
  Nat.ofDigitChars 10 token.text.tail 0

/-- An alias whose number does not fit a word, or names none of the levels nested in `level`, or one that
is not in the list. -/
def Token.Dangles (levels : List Level) (level : Level) (token : Token) : Prop :=
  token.kind = .aliasName ∧ (wordLimit ≤ token.number ∨ level.nested.length ≤ token.number ∨
    ∃ place, level.nested[token.number]? = some place ∧ levels.length ≤ place)

/-- No alias of the level stands for a text with a marker, or for one that does not start with a
parenthesis. -/
def Level.NestsParenthesized (levels : List Level) (level : Level) : Prop :=
  ∀ place ∈ level.nested, ∀ other, levels[place]? = some other →
    marker ∉ other.raw ∧ other.raw.head? = some '('

/-- The searches in a text end, one for each of its markers being enough, and they make what one pass over
its tokens makes. -/
structure InOnePass (levels : List Level) (level : Level) (t : Text) : Prop where
  ends : ∀ searches, t.count marker < searches →
    expandWithin levels level searches t = some (onePass levels level t)
  pass : expand levels level t = .ended (onePass levels level t)
  fails : (∃ failure, expand levels level t = .ended (.error failure)) ↔
    ∃ token ∈ tokenize t, token.Dangles levels level
  first : ∀ failure, expand levels level t = .ended (.error failure) →
    ∃ token, FirstWith (Token.Dangles levels level) (tokenize t) token ∧
      failure = ⟨.unresolved token.text level.nested.length, [level.span]⟩

end EvalOrder
