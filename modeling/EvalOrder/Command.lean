import EvalOrder.Plan
import EvalOrder.Report

/-! The command: which text is planned, what is written, and the exit code. The first line of the file
is the expression; nothing after it is looked at. Steps are written only if planning succeeds. After a
complaint the command waits, so that a window of its own does not close at once. The drawing of reports
and the line editor that waits are not its own, so both are parameters. -/
namespace EvalOrder

inductive Unreadable where
  | system (code : Nat) (details : Text)
  | notText
  | other (reason : Text)

namespace Unreadable

def missing : Unreadable := system 2 "No such file or directory".toList

def directory : Unreadable := system 21 "Is a directory".toList

def message : Unreadable → Text
  | system code details => details ++ " (os error ".toList ++ Nat.toDigits 10 code ++ [')']
  | notText => "stream did not contain valid UTF-8".toList
  | other reason => reason

end Unreadable

inductive Input where
  | builtIn
  | contents (bytes : List UInt8)
  | unreadable (why : Unreadable)

/-- What standard input is. The line editor at a terminal leaves something on standard output for a
prompt, and how the wait ends makes no difference. -/
inductive StandardInput where
  | piped
  | terminal (editor : Text → Text)

/-- What a wait for a key leaves on standard output. There is none if nobody can press one. -/
def StandardInput.wait : StandardInput → Text
  | piped => []
  | terminal editor => editor "press enter to exit".toList

/-- The output is what standard output gets, and the complaint stands before it on standard error. -/
structure Outcome where
  code : Nat
  output : Text
  complaint : List Line

namespace Command

def builtIn : Text :=
  "(a+(b>c)|c<(day off>another day off)|(150>879))&d=expression!".toList

def firstLine (bytes : List UInt8) : List UInt8 :=
  bytes.take (bytes.idxOf 10 + 1)

def isLineEnd (c : Char) : Bool :=
  c == '\n' || c == '\r'

def chomp (t : Text) : Text :=
  (t.reverse.dropWhile isLineEnd).reverse

def expression? (bytes : List UInt8) : Option Text :=
  (String.fromUTF8? ⟨(firstLine bytes).toArray⟩).map fun line => chomp line.toList

def listing (steps : List Text) : Text :=
  steps.flatMap fun step => step ++ ['\n']

def answer (render : Renderer) (stdin : StandardInput) (source : Text) : Outcome :=
  match plan source with
  | .ok p => ⟨0, listing p.steps, []⟩
  | .error failure => ⟨1, stdin.wait, render failure.asReport source⟩

def refuse (stdin : StandardInput) (why : Unreadable) : Outcome :=
  ⟨1, stdin.wait, [[bare ("error: ".toList ++ why.message)]]⟩

def run (render : Renderer) (stdin : StandardInput) : Input → Outcome
  | .builtIn => answer render stdin builtIn
  | .unreadable why => refuse stdin why
  | .contents bytes =>
    match expression? bytes with
    | some source => answer render stdin source
    | none => refuse stdin .notText

end Command

end EvalOrder
