import EvalOrder.Plan
import EvalOrder.Theory.Structure
import EvalOrder.Theory.Substitution

/-! When a source with its levels found has no plan, and on which alias planning fails. Levels without
operations may hold an alias that names no level: nothing reads it. -/
namespace EvalOrder

def Token.Unnamed (level : Level) (token : Token) : Prop :=
  token.kind = .aliasName ∧ (wordLimit ≤ token.number ∨ level.nested.length ≤ token.number)

def Operation.Fails (level : Level) (o : Operation) : Prop :=
  ∃ token ∈ tokenize o.text, token.Unnamed level

def Level.Fails (level : Level) : Prop :=
  ∃ o ∈ level.operations, o.Fails level

/-- The alias is the first one that names no level: first by level, then by operation, then by its place
in there. -/
def FirstUnnamed (levels : List Level) (level : Level) (token : Token) : Prop :=
  FirstWith Level.Fails levels level ∧ ∃ o, FirstWith (Operation.Fails level) level.operations o ∧
    FirstWith (Token.Unnamed level) (tokenize o.text) token

/-- Planning fails on aliases alone, and only where a digit has run into one. -/
structure FailsOnAlias (source : Text) (levels : List Level) : Prop where
  fails : (∃ failure, plan source = .error failure) ↔ ∃ level ∈ levels, level.Fails
  numbers : ∀ level ∈ levels, level.operations.map Operation.sequence = List.range level.operations.length
  first : ∀ failure, plan source = .error failure → ∃ level token, FirstUnnamed levels level token ∧
    failure = ⟨.unresolved token.text level.nested.length,
      [⟨level.start, level.start + Text.size level.raw⟩]⟩ ∧
      Text.slice? source level.start (level.start + Text.size level.raw) = some level.raw
  digit : ∀ failure, plan source = .error failure → Text.size source < wordLimit → DigitAfterClose source

end EvalOrder
