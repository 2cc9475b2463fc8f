import EvalOrder.Blank
import EvalOrder.Failure

/-! The drawn report of a failure: a title, the place, the source with an arrow under the first span,
and advice. A report is lines of pieces with a colour or none, so the plain and the coloured form
cannot disagree. What is asked to be drawn is one thing, and how it is drawn another: the drawing here
is for sources of one line only, one column for each character, tabs apart. It takes the offsets of a
span for character offsets. -/
namespace EvalOrder

inductive Colour where
  | failure
  | margin
  | gutter
  | source
  | advice
  | expression
  deriving DecidableEq

def Colour.code : Colour → Text
  | failure => "31".toList
  | margin => "38;5;246".toList
  | gutter => "38;5;240".toList
  | source => "38;5;249".toList
  | advice => "38;5;115".toList
  | expression => "38;2;52;235;152".toList

structure Piece where
  colour : Option Colour
  text : Text
  deriving DecidableEq

abbrev Line := List Piece

def bare (t : Text) : Piece := ⟨none, t⟩

def paint (colour : Colour) (t : Text) : Piece := ⟨some colour, t⟩

namespace Line

def plain (line : Line) : Text :=
  line.flatMap Piece.text

def coloured (line : Line) : Text :=
  line.flatMap fun piece =>
    match piece.colour with
    | none => piece.text
    | some colour => ['\x1b', '['] ++ colour.code ++ ['m'] ++ piece.text ++ "\x1b[0m".toList

end Line

namespace Failure

def title (failure : Failure) : Text :=
  match failure.cause with
  | .unclosed | .stray => "unbalanced parentheses".toList
  | .reserved => "reserved character in expression".toList
  | .unresolved name _ => "unresolved alias `".toList ++ name ++ "`".toList

def label (failure : Failure) : Text :=
  match failure.cause with
  | .unclosed => "this parenthesis is never closed".toList
  | .stray => "this parenthesis closes nothing".toList
  | .reserved => "`@` found here".toList
  | .unresolved _ available =>
    "the level here only has ".toList ++ Nat.toDigits 10 available ++ " nested levels".toList

def advice (failure : Failure) : Line :=
  match failure.cause with
  | .unclosed => [bare "add a closing parenthesis `)` somewhere after this".toList]
  | .stray => [bare "add an opening parenthesis `(` somewhere before this".toList]
  | .reserved =>
    [bare "`@` names nested ".toList, paint .expression "sub-expressions".toList,
      bare "; rename this operand".toList]
  | .unresolved _ _ =>
    [bare "a parenthesized ".toList, paint .expression "sub-expression".toList,
      bare " may be followed directly by a digit; add an operator between them".toList]

end Failure

/-- What a report is asked to show. Labels stand at spans. -/
structure Report where
  title : Text
  offset : Nat
  labels : List (Span × Text)
  advice : Line

/-- There is one label, so only the first span gets it. -/
def Failure.asReport (failure : Failure) : Report where
  title := failure.title
  offset := (failure.spans.head?.map Span.start).getD 0
  labels := failure.spans.zip [failure.label]
  advice := failure.advice

abbrev Renderer := Report → Text → List Line

namespace Report

def width (c : Char) (i : Nat) : Nat :=
  if c = '\t' then 4 - i % 4 else 1

def trimmed (source : Text) : Text :=
  (source.reverse.dropWhile isBlank).reverse

/-- The columns of cell `i` under a line. Cells go on behind the last character. -/
def cellWidth (shown : Text) (i : Nat) : Nat :=
  (shown[i]?.map (width · i)).getD 1

def drawn (c : Char) (i : Nat) : Text :=
  if isBlank c then List.replicate (width c i) ' ' else [c]

def within (span : Span) (i : Nat) : Bool :=
  span.start ≤ i && i < span.stop

def middle (span : Span) : Nat :=
  max span.start ((span.start + span.stop) / 2)

def sourceLine (span : Span) (shown : Text) : Line :=
  shown.zipIdx.flatMap fun (c, i) =>
    let colour := if within span i then Colour.expression else .source
    (drawn c i).map fun x => paint colour [x]

def cells (span : Span) : List Nat :=
  List.range (span.stop + 2)

def underlineCell (span : Span) (shown : Text) (i : Nat) : Text :=
  let rest := if within span i then '─' else ' '
  if i = middle span then
    (if span.start = span.stop then '│' else '┬') :: List.replicate (cellWidth shown i - 1) rest
  else List.replicate (cellWidth shown i) rest

def arrowCell (span : Span) (shown : Text) (i : Nat) : Text :=
  if i < middle span then List.replicate (cellWidth shown i) ' '
  else if i = middle span then '╰' :: List.replicate (cellWidth shown i - 1) '─'
  else List.replicate (cellWidth shown i) '─'

def draw (t : Text) : Line :=
  t.map fun c => if c = ' ' then bare [c] else paint .expression [c]

def gutter : Line :=
  [bare [' '], paint .gutter "  │".toList, bare [' ']]

def numbered : Line :=
  [bare [' '], paint .margin "1 │".toList, bare [' ']]

def heading (title : Text) : Line :=
  [paint .failure "Error:".toList, bare (' ' :: title)]

def location (offset : Nat) (source : Text) : Text :=
  if source.length < offset then "?:?".toList
  else "1:".toList ++ Nat.toDigits 10 (offset + 1)

def place (offset : Nat) (source : Text) : Line :=
  [bare "   ".toList, paint .margin ['╭'], paint .margin ['─'], paint .margin ['['],
    bare ("input:".toList ++ location offset source), paint .margin [']']]

/-- Whether the span starts in the source, or right behind it, and its last byte lies beyond. -/
def runsOut (span : Span) (source : Text) : Bool :=
  span.start ≤ source.length && source.length < max (span.stop - 1) span.start

/-- The lines for the source. A span that ends beyond it has no arrow, and an empty source no line. -/
def picture (label : Text) (span : Span) (source : Text) : List Line :=
  let shown := trimmed source
  if source.isEmpty then []
  else if span.stop ≤ source.length then
    [numbered ++ sourceLine span shown,
      gutter ++ draw ((cells span).flatMap (underlineCell span shown)),
      gutter ++ draw ((cells span).flatMap (arrowCell span shown)) ++ [bare (' ' :: label)]]
  else if runsOut span source && span.start < source.length then
    [numbered ++ draw "╭─▶ ".toList ++ sourceLine span shown]
  else [gutter]

/-- The margin of the lines after the picture. They stand further right if the span runs out of the
source, and one that starts right behind the source still has its bar there. -/
def margin (span : Span) (source : Text) : Line :=
  if !runsOut span source then gutter
  else if span.start < source.length then gutter ++ draw "    ".toList
  else gutter ++ draw "│   ".toList

def tail (advice : Line) (span : Span) (source : Text) : List Line :=
  [margin span source,
    margin span source ++ [paint .advice "Help".toList, bare ": ".toList] ++ advice]

def rule : Line := [bare "   ".toList, paint .margin ['│']]

def foot : Line := [paint .margin "───╯".toList]

/-- The renderer for sources of one line and reports of one label. -/
def oneLine : Renderer := fun report source =>
  match report.labels with
  | [] => [heading report.title]
  | (span, label) :: _ =>
    [heading report.title, place report.offset source, rule] ++
      picture label span source ++ tail report.advice span source ++ [foot]

end Report

/-- The report of a failure in a source of one line. -/
def report (failure : Failure) (source : Text) : List Line :=
  Report.oneLine failure.asReport source

end EvalOrder
