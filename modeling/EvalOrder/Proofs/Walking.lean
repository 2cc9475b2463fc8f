import EvalOrder.Proofs.Discovery
import EvalOrder.Proofs.Tokens

/-! The levels read off the tokens of a source. Main statement: a walk over the tokens finds what the scan
of the characters finds. A token other than a run of text or an alias is one character, a run of text
passes by either way, and an alias stops both at its marker. -/
namespace EvalOrder

namespace Brackets

def readToken (source : Text) (token : Token) (b : Brackets) : Except Failure Brackets :=
  match token.kind with
  | .openParen => .ok { b with opened := token.start :: b.opened }
  | .closeParen =>
    match b.opened with
    | [] => .error ⟨.stray, [⟨token.start, token.stop⟩]⟩
    | start :: opened =>
      let level := (Level.opened start b.opened.length).close source token.start
      .ok ⟨opened, level :: b.closed⟩
  | kind => if kind.isMarker then .error (.ofByte .reserved token.start) else .ok b

def walk (source : Text) : List Token → Brackets → Except Failure Brackets
  | [], b => .ok b
  | token :: rest, b => do
    let next ← readToken source token b
    walk source rest next

variable {source : Text} {c : Char}

theorem walk_text (start : Nat) (run : Text) (rest : List Lexeme) (b : Brackets) :
    walk source (Token.place start (⟨.text, run⟩ :: rest)) b =
      walk source (Token.place (start + Text.size run) rest) b := rfl

theorem walk_putRun (start : Nat) (run : Text) (rest : List Lexeme) (b : Brackets) :
    walk source (Token.place start (putRun run rest)) b =
      walk source (Token.place (start + Text.size run) rest) b := by
  cases run with
  | nil => rfl
  | cons c run => exact walk_text start (c :: run) rest b

theorem read_letter (letter : Kind.ofChar c = .text) (offset : Nat) (b : Brackets) :
    read source offset c b = .ok b := by
  rw [read, letter]

theorem size_of_closeParen (closes : Kind.ofChar c = .closeParen) : Text.size [c] = 1 := by
  cases parenthesis : isParenthesis c with
  | true =>
    simp only [isParenthesis, Bool.or_eq_true, beq_iff_eq] at parenthesis
    rcases parenthesis with rfl | rfl <;> decide
  | false =>
    by_cases marked : c = marker
    · subst marked
      decide
    · rw [Kind.ofChar_of_plain parenthesis marked] at closes
      cases found : Operator.ofChar? c <;> simp [found] at closes

theorem readToken_single (offset : Nat) (b : Brackets) :
    readToken source ⟨offset, offset + Text.size [c], Kind.ofChar c, [c]⟩ b = read source offset c b := by
  rw [readToken, read]
  cases kind : Kind.ofChar c with
  | closeParen =>
    rw [size_of_closeParen kind]
    rfl
  | aliasName => exact absurd kind (Kind.ofChar_ne_aliasName c)
  | _ => rfl

theorem walk_place (t : Text) (start : Nat) (b : Brackets) :
    walk source (Token.place start (lexemes t)) b = scan source start t b := by
  induction t using alias_induction generalizing start b with
  | nil => rfl
  | cons c t bare ih =>
    by_cases letter : Kind.ofChar c = .text
    · rw [lexemes_letter letter, walk_text, Text.size_cons, ← Nat.add_assoc, ← walk_putRun, putRun_lexemes,
        scan_cons (read_letter letter start b), ih]
    · rw [lexemes_single letter bare, Token.place, walk, readToken_single, scan]
      cases read source start c b with
      | error failure => rfl
      | ok next => exact ih (start + c.utf8Size) next
  | named digits t some_digit all stop _ =>
    rw [lexemes_alias some_digit all stop]
    rfl

end Brackets

theorem levelsOf_eq_walk (source : Text) : levelsOf source = do
    let brackets ← Brackets.walk source (tokenize source) ⟨[], []⟩
    let closed ← brackets.finish
    return Level.sort (Level.outermost source :: closed) := by
  rw [tokenize, Brackets.walk_place, levelsOf]

end EvalOrder
