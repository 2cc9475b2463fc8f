import EvalOrder.Theory.Decomposition

/-! The tokens of a text, twice, and neither time by the way in which they are found: as what a reader
collects that takes the longest match each time and stops where nothing matches, and by what stands at
each byte. -/
namespace EvalOrder

def Lexeme.Longest (t : Text) (l : Lexeme) : Prop :=
  l.Proper ∧ l.text <+: t ∧ ∀ other : Lexeme, other.Proper → other.text <+: t →
    other.text.length ≤ l.text.length

/-- The tokens collected from a text at byte `start`. What is behind a place where no lexeme starts is
lost. -/
inductive Collected : Nat → Text → List Token → Prop where
  | stop {start : Nat} {t : Text} : (∀ l : Lexeme, l.Proper → ¬ l.text <+: t) → Collected start t []
  | more {start : Nat} {l : Lexeme} {t : Text} {tokens : List Token} : l.Longest (l.text ++ t) →
      Collected (start + Text.size l.text) t tokens →
      Collected start (l.text ++ t) (⟨start, start + Text.size l.text, l.kind, l.text⟩ :: tokens)

inductive Sign : Char → Kind → Prop where
  | openParen : Sign '(' .openParen
  | closeParen : Sign ')' .closeParen
  | operator (o : Operator) : Sign o.symbol (.operator o)

def Contiguous : Nat → List Token → Nat → Prop
  | start, [], stop => start = stop
  | start, token :: rest, stop => token.start = start ∧ Contiguous token.stop rest stop

def Token.lexeme (token : Token) : Lexeme := ⟨token.kind, token.text⟩

/-- Every character in its token: signs by themselves, a marker with all digits behind it, anything else
in runs. -/
structure Tokenizes (t : Text) (tokens : List Token) : Prop where
  nonempty : ∀ token ∈ tokens, token.start < token.stop
  contiguous : Contiguous 0 tokens (Text.size t)
  slice : ∀ token ∈ tokens, Text.slice? t token.start token.stop = some token.text
  sign : ∀ before c after kind, t = before ++ c :: after → Sign c kind →
    ⟨Text.size before, Text.size before + 1, kind, [c]⟩ ∈ tokens
  marked : ∀ before digits after, t = before ++ marker :: (digits ++ after) →
    (∀ d ∈ digits, d.isDigit = true) →
    (∀ c ∈ after.head?, c.isDigit = false) →
    ⟨Text.size before, Text.size before + 1 + digits.length, if digits = [] then .marker else .aliasName,
      marker :: digits⟩ ∈ tokens
  other : ∀ before c after, t = before ++ c :: after → c ≠ marker → (∀ kind, ¬ Sign c kind) →
    (∀ front digits, before = front ++ marker :: digits → (∀ d ∈ digits, d.isDigit = true) →
      c.isDigit = false) →
    ∃ token ∈ tokens, token.kind = .text ∧ token.start ≤ Text.size before ∧
      Text.size before + c.utf8Size ≤ token.stop
  apart : AllApart (tokens.map Token.lexeme)

end EvalOrder
