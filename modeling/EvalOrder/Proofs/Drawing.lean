import EvalOrder.Report
import EvalOrder.Theory.Pointing

/-! What a report shows of a span. In a source of one line each cell under the source is one column, so
the marks stand under the characters whose numbers the span holds, whatever bytes they take. -/
namespace EvalOrder

namespace Line

@[simp] theorem plain_nil : plain [] = [] := rfl

@[simp] theorem plain_cons (piece : Piece) (line : Line) :
    plain (piece :: line) = piece.text ++ plain line := rfl

@[simp] theorem plain_append (a b : Line) : plain (a ++ b) = plain a ++ plain b := List.flatMap_append

end Line

namespace Report

theorem plain_draw (t : Text) : (draw t).plain = t := by
  induction t with
  | nil => rfl
  | cons c t ih =>
    have first : (if c = ' ' then bare [c] else paint .expression [c]).text = [c] := by
      split <;> rfl
    have split : draw (c :: t) = (if c = ' ' then bare [c] else paint .expression [c]) :: draw t := rfl
    rw [split, Line.plain_cons, first, ih, List.singleton_append]

section OneLine

variable {source : Text}

theorem mem_of_mem_trimmed {c : Char} (member : c ∈ trimmed source) : c ∈ source :=
  (List.rdropWhile_prefix isBlank source).subset member

theorem cellWidth_eq (one : OneLine source) (i : Nat) : cellWidth (trimmed source) i = 1 := by
  cases found : (trimmed source)[i]? with
  | none => simp [cellWidth, found]
  | some c =>
    have narrow := (one c (mem_of_mem_trimmed (List.mem_of_getElem? found))).2
    simp [cellWidth, found, width, narrow]

def mark (span : Span) (i : Nat) : Char :=
  if i = middle span then '┬' else if within span i then '─' else ' '

theorem within_iff {span : Span} {i : Nat} : within span i = true ↔ span.start ≤ i ∧ i < span.stop := by
  simp only [within, Bool.and_eq_true, decide_eq_true_eq]

theorem middle_within {span : Span} (some_cell : span.start < span.stop) :
    within span (middle span) = true := by
  rw [within_iff, middle]
  omega

theorem mark_ne_blank {span : Span} (some_cell : span.start < span.stop) (i : Nat) :
    mark span i ≠ ' ' ↔ span.start ≤ i ∧ i < span.stop := by
  rw [← within_iff, mark]
  by_cases here : i = middle span
  · subst here
    simp [middle_within some_cell]
  · cases inside : within span i <;> simp [here]

theorem underline_eq (one : OneLine source) {span : Span} (some_cell : span.start < span.stop) :
    (cells span).flatMap (underlineCell span (trimmed source)) =
      (List.range (span.stop + 2)).map (mark span) := by
  have column : underlineCell span (trimmed source) = fun i => [mark span i] := by
    funext i
    simp only [underlineCell, cellWidth_eq one, mark]
    by_cases here : i = middle span
    · simp [here, Nat.ne_of_lt some_cell]
    · cases within span i <;> simp [here]
  rw [column, cells, List.map_eq_flatMap]

def face (c : Char) : Char :=
  if isBlank c then ' ' else c

theorem plain_sourceLine (one : OneLine source) (span : Span) :
    (sourceLine span (trimmed source)).plain = (source.rdropWhile isBlank).map face := by
  have general : ∀ (shown : Text) (first : Nat), (∀ c ∈ shown, c ≠ '\t') →
      Line.plain ((shown.zipIdx first).flatMap fun p =>
        (drawn p.1 p.2).map fun x => paint (if within span p.2 then .expression else .source) [x]) =
        shown.map face := by
    intro shown
    induction shown with
    | nil => exact fun _ _ => rfl
    | cons c shown ih =>
      intro first plain
      have column : drawn c first = [face c] := by
        have narrow := plain c List.mem_cons_self
        cases blank : isBlank c <;> simp [drawn, face, blank, width, narrow]
      have rest := ih (first + 1) fun d member => plain d (List.mem_cons_of_mem _ member)
      simp only [List.zipIdx_cons, List.flatMap_cons, Line.plain_append, rest, column]
      rfl
  exact general _ 0 fun c member => (one c (mem_of_mem_trimmed member)).2

end OneLine

section Lines

variable {failure : Failure} {source label : Text} {advice : Line} {span : Span} {rest : List Span}

theorem report_eq (spans : failure.spans = span :: rest) :
    report failure source = [heading failure.title, place span.start source, rule] ++
      (picture failure.label span source ++ tail failure.advice span source ++ [foot]) := by
  simp [report, oneLine, Failure.asReport, spans]

theorem plain_place (offset : Nat) (source : Text) :
    (place offset source).plain = "   ╭─[input:".toList ++ location offset source ++ [']'] := by
  simp [place, bare, paint]

theorem plain_gutter : gutter.plain = "   │ ".toList := rfl

theorem plain_numbered : numbered.plain = " 1 │ ".toList := rfl

theorem location_eq_iff {offset : Nat} (n : Nat) :
    location offset source = "1:".toList ++ Nat.toDigits 10 (n + 1) ↔
      offset = n ∧ offset ≤ source.length := by
  rw [location]
  split
  · rename_i beyond
    constructor
    · intro same
      cases same
    · rintro ⟨_, within⟩
      omega
  · rename_i within
    rw [List.append_cancel_left_eq]
    constructor
    · intro same
      have value : ∀ k, Nat.ofDigitChars 10 (Nat.toDigits 10 k) 0 = k := by simp
      have numbers : offset + 1 = n + 1 := by rw [← value (offset + 1), same, value]
      omega
    · rintro ⟨rfl, _⟩
      rfl

theorem picture_within (inside : span.stop ≤ source.length) (some_cell : span.start < span.stop) :
    picture label span source =
      [numbered ++ sourceLine span (trimmed source),
        gutter ++ draw ((cells span).flatMap (underlineCell span (trimmed source))),
        gutter ++ draw ((cells span).flatMap (arrowCell span (trimmed source))) ++
          [bare (' ' :: label)]] := by
  have some_source : source.isEmpty = false := by
    cases source with
    | nil => simp at inside; omega
    | cons c t => rfl
  simp [picture, some_source, inside]

theorem gutter_ne_numbered (t u : Text) : gutter.plain ++ t ≠ " 1 │ ".toList ++ u := by
  intro same
  cases congrArg (fun t : Text => t[1]?) same

theorem exists_margin (span : Span) (source : Text) :
    ∃ t, (margin span source).plain = gutter.plain ++ t := by
  unfold margin
  split
  · exact ⟨[], (List.append_nil _).symm⟩
  · split
    · exact ⟨_, Line.plain_append _ _⟩
    · exact ⟨_, Line.plain_append _ _⟩

/-- The source is shown by itself only if the span ends within it. -/
theorem stop_le_of_shown (one : OneLine source)
    (shown : ((picture label span source ++ tail advice span source ++ [foot])[0]?).map Line.plain =
      some (" 1 │ ".toList ++ (source.rdropWhile isBlank).map face)) : span.stop ≤ source.length := by
  rw [picture] at shown
  split at shown
  · obtain ⟨t, bar⟩ := exists_margin span source
    have same : gutter.plain ++ t = " 1 │ ".toList ++ (source.rdropWhile isBlank).map face := by
      rw [← bar]
      exact Option.some.inj shown
    exact absurd same (gutter_ne_numbered _ _)
  · split at shown
    · assumption
    · split at shown
      · -- an arrow stands in front of the source, so the line is too long
        have same : " 1 │ ".toList ++ ("╭─▶ ".toList ++ (source.rdropWhile isBlank).map face) =
            " 1 │ ".toList ++ (source.rdropWhile isBlank).map face := by
          rw [← plain_sourceLine one span, ← List.append_assoc]
          have line := Option.some.inj shown
          rw [Line.plain_append, Line.plain_append, plain_draw, plain_numbered] at line
          rw [line, plain_sourceLine one span]
        have lengths := congrArg List.length (List.append_cancel_left same)
        have four : "╭─▶ ".toList.length = 4 := rfl
        rw [List.length_append, four] at lengths
        omega
      · have same : gutter.plain ++ [] = " 1 │ ".toList ++ (source.rdropWhile isBlank).map face := by
          rw [List.append_nil]
          exact Option.some.inj shown
        exact absurd same (gutter_ne_numbered _ _)

theorem marks_iff (some_cell : span.start < span.stop) (k : Nat) :
    (∃ c ∈ ((List.range (span.stop + 2)).map (mark span))[k]?, c ≠ ' ') ↔ span.start ≤ k ∧ k < span.stop := by
  rw [List.getElem?_map, ← mark_ne_blank some_cell]
  by_cases below : k < span.stop + 2
  · simp [List.getElem?_range below]
  · have beyond : mark span k = ' ' := by
      have outside := mt (mark_ne_blank some_cell k).mp (by omega)
      simpa using outside
    simp [beyond, Nat.not_lt.mp below]

theorem placed_iff {offset : Nat} (n : Nat) :
    (place offset source).plain = "   ╭─[input:1:".toList ++ Nat.toDigits 10 (n + 1) ++ [']'] ↔
      offset = n ∧ offset ≤ source.length := by
  have opening : "   ╭─[input:1:".toList = "   ╭─[input:".toList ++ "1:".toList := rfl
  rw [plain_place, opening, List.append_assoc "   ╭─[input:".toList "1:".toList, List.append_cancel_right_eq,
    List.append_cancel_left_eq, location_eq_iff]

/-- A report points at the characters whose numbers its span holds, if there are as many, and at no others. -/
theorem pointsAt_iff (one : OneLine source) (spans : failure.spans = span :: rest)
    (some_cell : span.start < span.stop) (first count : Nat) :
    PointsAt source first count (report failure source) ↔
      span.start = first ∧ span.stop = first + count ∧ span.stop ≤ source.length := by
  have underline : (gutter ++ draw ((cells span).flatMap (underlineCell span (trimmed source)))).plain =
      "   │ ".toList ++ (List.range (span.stop + 2)).map (mark span) := by
    rw [Line.plain_append, plain_draw, underline_eq one some_cell, plain_gutter]
  rw [report_eq spans]
  constructor
  · rintro ⟨here, shown, drawn, marked, fits⟩
    have inside := stop_le_of_shown one shown
    have starts := ((placed_iff first).mp (Option.some.inj here)).1
    rw [picture_within inside some_cell] at marked
    have same := (Option.some.inj marked).symm.trans underline
    obtain rfl := List.append_cancel_left same
    have cells_same := fun k => (marks_iff some_cell k).symm.trans (fits k)
    have last := (cells_same (span.stop - 1)).mp (by omega)
    have next := mt (cells_same span.stop).mpr (by omega)
    exact ⟨starts, by omega, inside⟩
  · rintro ⟨rfl, stops, inside⟩
    rw [picture_within inside some_cell]
    constructor
    · exact congrArg some ((placed_iff span.start).mpr ⟨rfl, by omega⟩)
    · exact congrArg some (by rw [Line.plain_append, plain_sourceLine one, plain_numbered]; rfl)
    · exact ⟨_, congrArg some underline, fun k => stops ▸ marks_iff some_cell k⟩

end Lines

end Report

end EvalOrder
