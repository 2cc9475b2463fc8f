import EvalOrder.Token
import Mathlib.Algebra.Ring.Nat

/-! What the name of a nested level says, without the reader of it. The value of digits is by their
places, and a word is read from the left by a product and a sum that may each not fit. -/
namespace EvalOrder

def Token.shift (k : Nat) (token : Token) : Token :=
  { token with start := k + token.start, stop := k + token.stop }

def digitValue (d : Char) : Nat := d.toNat - '0'.toNat

def decimal : Text → Nat
  | [] => 0
  | d :: digits => digitValue d * 10 ^ digits.length + decimal digits

def word? (n : Nat) : Option Nat :=
  if n < wordLimit then some n else none

/-- Reads the digits behind what was read already. Nothing is read past the first value that is no word. -/
def readWord (value : Nat) : Text → Option Nat
  | [] => some value
  | d :: digits => do
    let tens ← word? (value * 10)
    let next ← word? (tens + digitValue d)
    readWord next digits

/-- The token is an alias with these digits, and its index is their value, if that is a word. -/
structure Token.Numbered (token : Token) (digits : Text) : Prop where
  spelled : token.text = marker :: digits
  some_digit : digits ≠ []
  all : ∀ d ∈ digits, d.isDigit = true
  index : token.index? = word? (decimal digits)
  zeros : decimal digits = decimal (digits.dropWhile (· == '0'))
  checked : token.index? = readWord 0 digits

/-- The alias of the level `n` is one token between the tokens of the texts around it. -/
def ReadsBack (n : Nat) (u v : Text) : Prop :=
  let named : Token := ⟨Text.size u, Text.size u + Text.size (aliasOf n), .aliasName, aliasOf n⟩
  tokenize (u ++ aliasOf n ++ v) = tokenize u ++ named :: (tokenize v).map (Token.shift named.stop) ∧
    named.index? = some n

end EvalOrder
