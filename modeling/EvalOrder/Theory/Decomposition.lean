import EvalOrder.Token

/-! What it means for lexemes to decompose a text into longest runs, independently of how they are
found. -/
namespace EvalOrder

def Lexeme.Proper (l : Lexeme) : Prop :=
  match l.kind with
  | .text => l.text ≠ [] ∧ ∀ c ∈ l.text, Kind.ofChar c = .text
  | .aliasName => ∃ digits, l.text = marker :: digits ∧ digits ≠ [] ∧ ∀ d ∈ digits, d.isDigit = true
  | kind => ∃ c, l.text = [c] ∧ Kind.ofChar c = kind

def Lexeme.Apart (a b : Lexeme) : Prop :=
  b.kind = .text → a.kind ≠ .text ∧ (a.kind.isMarker = true → ∀ c ∈ b.text.head?, c.isDigit = false)

def AllApart : List Lexeme → Prop
  | a :: b :: rest => a.Apart b ∧ AllApart (b :: rest)
  | _ => True

structure Decomposes (t : Text) (ls : List Lexeme) : Prop where
  joined : ls.flatMap Lexeme.text = t
  proper : ∀ l ∈ ls, l.Proper
  apart : AllApart ls

end EvalOrder
