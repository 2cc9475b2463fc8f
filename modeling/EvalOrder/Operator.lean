/-! The seven infix operators and the three tiers in which they bind. An operator of an earlier tier
binds tighter. Every operator is one byte, so bytes and characters are classified by one table. -/
namespace EvalOrder

inductive Tier where
  | primary
  | conjunction
  | disjunction
  deriving DecidableEq

namespace Tier

def rank : Tier → Nat
  | primary => 0
  | conjunction => 1
  | disjunction => 2

def all : List Tier := [primary, conjunction, disjunction]

def order (a b : Tier) : Ordering := compare a.rank b.rank

theorem mem_all (tier : Tier) : tier ∈ all := by cases tier <;> decide

end Tier

inductive Operator where
  | add
  | subtract
  | greater
  | less
  | equal
  | and
  | or
  deriving DecidableEq

namespace Operator

def symbol : Operator → Char
  | add => '+'
  | subtract => '-'
  | greater => '>'
  | less => '<'
  | equal => '='
  | and => '&'
  | or => '|'

def tier : Operator → Tier
  | add | subtract | greater | less | equal => .primary
  | and => .conjunction
  | or => .disjunction

def all : List Operator := [add, subtract, greater, less, equal, and, or]

def ofChar? (c : Char) : Option Operator :=
  all.find? (·.symbol == c)

/-- The operator a byte stands for. No byte of a longer UTF-8 sequence does. -/
def ofByte? (b : UInt8) : Option Operator :=
  ofChar? (Char.ofUInt8 b)

theorem ofChar?_symbol (o : Operator) : ofChar? o.symbol = some o := by cases o <;> decide

theorem ofChar?_eq_some_iff {c : Char} {o : Operator} : ofChar? c = some o ↔ c = o.symbol := by
  constructor
  · intro h
    rw [ofChar?] at h
    have found := List.find?_some h
    exact (beq_iff_eq.mp found).symm
  · rintro rfl
    exact ofChar?_symbol o

end Operator

end EvalOrder
