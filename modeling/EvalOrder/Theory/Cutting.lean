import EvalOrder.Theory.Aliases
import EvalOrder.Theory.Binding

/-! Operators as bytes, at which a text is split, and as tokens, among which aliases are looked for in
what was split off. Both readings meet at the same places, so a token belongs to an operation as a whole
or not at all. -/
namespace EvalOrder

/-- The bytes that stand for an operator are the starts of its tokens, and such a token is that byte. -/
structure ReadsOperators (t : Text) : Prop where
  starts : ∀ i o, OperatorAt t i o ↔
    ∃ token ∈ tokenize t, token.kind = .operator o ∧ token.start = i ∧ token.stop = i + 1
  single : ∀ token ∈ tokenize t, ∀ o, token.kind = .operator o →
    token.stop = token.start + 1 ∧ token.text = [o.symbol]

def Token.isInside (o : Operation) (token : Token) : Bool :=
  o.start ≤ token.start && token.stop ≤ o.stop + 1

/-- By itself the operation has the tokens that it has in `t`, and there it cuts none in two. -/
structure Operation.KeepsTokens (t : Text) (o : Operation) : Prop where
  tokens : (tokenize o.text).map (Token.shift o.start) = (tokenize t).filter (Token.isInside o)
  uncut : ∀ token ∈ tokenize t, Token.isInside o token = true ∨ token.stop ≤ o.start ∨ o.stop < token.start

end EvalOrder
