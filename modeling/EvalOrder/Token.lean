import EvalOrder.Operator
import EvalOrder.Text

/-! Tokens: parentheses, operators, aliases, bare markers, and runs of any other characters.
A text is read from its right end: a character joins the run to its right, and a marker takes the
digits there. No token is ever given up, so the lexemes always join to the text. -/
namespace EvalOrder

/-- The character that opens an alias. Sources may not hold it. -/
def marker : Char := '@'

inductive Kind where
  | openParen
  | closeParen
  | operator (o : Operator)
  | aliasName
  | marker
  | text
  deriving DecidableEq

namespace Kind

def ofChar (c : Char) : Kind :=
  if c = '(' then openParen
  else if c = ')' then closeParen
  else if c = EvalOrder.marker then marker
  else ((Operator.ofChar? c).map operator).getD text

/-- An alias, or a marker that names none. -/
def isMarker : Kind → Bool
  | aliasName | marker => true
  | _ => false

end Kind

structure Lexeme where
  kind : Kind
  text : Text
  deriving DecidableEq

def markRun (run : Text) (rest : List Lexeme) : List Lexeme :=
  let digits := run.takeWhile Char.isDigit
  let left := run.dropWhile Char.isDigit
  let named : Lexeme := ⟨if digits.isEmpty then .marker else .aliasName, marker :: digits⟩
  named :: if left.isEmpty then rest else ⟨.text, left⟩ :: rest

def attach (c : Char) (rest : List Lexeme) : List Lexeme :=
  match Kind.ofChar c, rest with
  | .text, ⟨.text, run⟩ :: rest => ⟨.text, c :: run⟩ :: rest
  | .marker, ⟨.text, run⟩ :: rest => markRun run rest
  | kind, rest => ⟨kind, [c]⟩ :: rest

def lexemes (t : Text) : List Lexeme :=
  t.foldr attach []

/-- A lexeme at its place, from byte `start` up to, and without, byte `stop`. -/
structure Token where
  start : Nat
  stop : Nat
  kind : Kind
  text : Text
  deriving DecidableEq

namespace Token

def place : Nat → List Lexeme → List Token
  | _, [] => []
  | start, l :: rest =>
    let stop := start + Text.size l.text
    ⟨start, stop, l.kind, l.text⟩ :: place stop rest

end Token

def tokenize (t : Text) : List Token :=
  Token.place 0 (lexemes t)

/-- One more than the greatest index an alias can carry. -/
def wordLimit : Nat := 18446744073709551616

def aliasOf (index : Nat) : Text :=
  marker :: Nat.toDigits 10 index

/-- The index in the text of an alias. None if it does not fit a word. -/
def indexOfAlias? (text : Text) : Option Nat :=
  let index := Nat.ofDigitChars 10 text.tail 0
  if index < wordLimit then some index else none

def Token.index? (token : Token) : Option Nat :=
  if token.kind = .aliasName then indexOfAlias? token.text else none

theorem join_attach (c : Char) (rest : List Lexeme) :
    (attach c rest).flatMap Lexeme.text = c :: rest.flatMap Lexeme.text := by
  unfold attach
  split
  · rfl
  · rename_i run rest hk
    have hc : c = marker := by
      unfold Kind.ofChar at hk
      split at hk
      · contradiction
      · split at hk
        · contradiction
        · split at hk
          · assumption
          · cases h : Operator.ofChar? c <;> simp [h] at hk
    have hrun : run.takeWhile Char.isDigit ++ run.dropWhile Char.isDigit = run :=
      List.takeWhile_append_dropWhile
    simp only [markRun, List.flatMap_cons, List.cons_append, hc, List.cons.injEq, true_and]
    split
    · rename_i hleft
      rw [List.isEmpty_iff.mp hleft, List.append_nil] at hrun
      rw [hrun]
    · rw [List.flatMap_cons, ← List.append_assoc, hrun]
  · simp

theorem join_lexemes (t : Text) : (lexemes t).flatMap Lexeme.text = t := by
  induction t with
  | nil => rfl
  | cons c t ih => rw [lexemes, List.foldr_cons, join_attach, ← lexemes, ih]

theorem indexOfAlias?_aliasOf {n : Nat} (h : n < wordLimit) : indexOfAlias? (aliasOf n) = some n := by
  simp [indexOfAlias?, aliasOf, h]

end EvalOrder
