import EvalOrder.Proofs.Tokens
import EvalOrder.Theory.Tokenization

/-! A text that is not empty starts with one lexeme that the character behind it does not continue. It is
the longest one and the first one that is read, so there is one decomposition, and a reader of longest
matches finds it. -/
namespace EvalOrder

theorem Kind.isMarker_ofChar {c : Char} : (Kind.ofChar c).isMarker = true ↔ c = EvalOrder.marker := by
  rw [← Kind.ofChar_eq_marker]
  have not_alias := Kind.ofChar_ne_aliasName c
  cases kind : Kind.ofChar c <;> simp_all [Kind.isMarker]

namespace Lexeme

inductive Spelled : Lexeme → Prop where
  | letters {w : Text} : w ≠ [] → (∀ c ∈ w, Kind.ofChar c = .text) → Spelled ⟨.text, w⟩
  | digits {digits : Text} : digits ≠ [] → (∀ d ∈ digits, d.isDigit = true) →
    Spelled ⟨.aliasName, marker :: digits⟩
  | single {c : Char} {kind : Kind} : Kind.ofChar c = kind → kind ≠ .text → Spelled ⟨kind, [c]⟩

theorem proper_iff {l : Lexeme} : l.Proper ↔ l.Spelled := by
  obtain ⟨kind, text⟩ := l
  constructor
  · intro proper
    cases kind with
    | text => exact .letters proper.1 proper.2
    | aliasName =>
      obtain ⟨digits, rfl, some_digit, all⟩ := proper
      exact .digits some_digit all
    | openParen | closeParen | operator o | marker =>
      obtain ⟨c, rfl, same⟩ := proper
      exact .single same (by simp)
  · intro spelled
    cases spelled with
    | letters some_letter all => exact ⟨some_letter, all⟩
    | digits some_digit all => exact ⟨_, rfl, some_digit, all⟩
    | @single c _ same other =>
      cases kind with
      | text => exact absurd rfl other
      | aliasName => exact absurd same (Kind.ofChar_ne_aliasName c)
      | openParen | closeParen | operator o | marker => exact ⟨c, rfl, same⟩

section Ends

variable {l : Lexeme} {t u : Text}

theorem Spelled.exists_first (spelled : l.Spelled) : ∃ c rest, l.text = c :: rest := by
  cases spelled with
  | letters some_letter _ => exact List.exists_cons_of_ne_nil some_letter
  | digits _ _ => exact ⟨_, _, rfl⟩
  | single _ _ => exact ⟨_, _, rfl⟩

theorem Spelled.sort (spelled : l.Spelled) {c : Char} {rest : Text} (front : l.text = c :: rest) :
    (l.kind = .text ↔ Kind.ofChar c = .text) ∧ (l.kind.isMarker = true ↔ c = marker) := by
  cases spelled with
  | @letters w _ all =>
    have letter : Kind.ofChar c = .text := all c (List.mem_of_mem_head? (congrArg List.head? front))
    refine ⟨⟨fun _ => letter, fun _ => rfl⟩, nofun, ?_⟩
    rintro rfl
    cases letter
  | digits _ _ =>
    obtain ⟨rfl, _⟩ := List.cons_eq_cons.mp front
    exact ⟨⟨nofun, nofun⟩, fun _ => rfl, fun _ => rfl⟩
  | single same _ =>
    obtain ⟨rfl, _⟩ := List.cons_eq_cons.mp front
    subst same
    exact ⟨Iff.rfl, Kind.isMarker_ofChar⟩

def GrowsBy (l : Lexeme) (c : Char) : Prop :=
  l.kind = .text ∧ Kind.ofChar c = .text ∨ l.kind.isMarker = true ∧ c.isDigit = true

def EndsAt (l : Lexeme) (u : Text) : Prop :=
  ∀ c ∈ u.head?, ¬ l.GrowsBy c

theorem endsAt_of_other (other : l.kind ≠ .text) (stop : digitFirst u = false) : l.EndsAt u := by
  intro c first grows
  rcases grows with ⟨text, _⟩ | ⟨_, digit⟩
  · exact other text
  · exact Bool.eq_false_iff.mp (digitFirst_eq_false_iff.mp stop c first) digit

theorem EndsAt.digitFirst (ends : l.EndsAt u) (marked : l.kind.isMarker = true) : digitFirst u = false :=
  digitFirst_eq_false_iff.mpr fun c first => Bool.eq_false_iff.mpr fun digit =>
    ends c first (.inr ⟨marked, digit⟩)

theorem EndsAt.run (ends : l.EndsAt u) (letters : l.kind = .text) :
    leadingRun (lexemes u) = [] ∧ afterRun (lexemes u) = lexemes u := by
  cases u with
  | nil => exact ⟨rfl, rfl⟩
  | cons c u => exact run_attach_other (fun letter => ends c rfl (.inl ⟨letters, letter⟩)) (lexemes u)

theorem lexemes_append (spelled : l.Spelled) (ends : l.EndsAt u) :
    lexemes (l.text ++ u) = l :: lexemes u := by
  cases spelled with
  | letters some_letter all =>
    obtain ⟨none, rest⟩ := ends.run rfl
    rw [lexemes_letters some_letter all, none, rest, List.append_nil]
  | digits some_digit all => exact lexemes_alias some_digit all (ends.digitFirst rfl)
  | @single c _ same other =>
    subst same
    refine lexemes_single other ?_
    rintro rfl
    exact ends.digitFirst rfl

theorem exists_front (some_char : t ≠ []) :
    ∃ (l : Lexeme) (u : Text), t = l.text ++ u ∧ l.Spelled ∧ l.EndsAt u := by
  obtain ⟨c, t, rfl⟩ := List.exists_cons_of_ne_nil some_char
  by_cases letter : Kind.ofChar c = .text
  · obtain ⟨w, u, rfl, all, stop⟩ := exists_run (fun d => decide (Kind.ofChar d = .text)) t
    have letters : ∀ d ∈ c :: w, Kind.ofChar d = .text :=
      List.forall_mem_cons.mpr ⟨letter, fun d hd => of_decide_eq_true (all d hd)⟩
    refine ⟨⟨.text, c :: w⟩, u, rfl, .letters (List.cons_ne_nil c w) letters, fun d first grows => ?_⟩
    rcases grows with ⟨_, more⟩ | ⟨marked, _⟩
    · exact of_decide_eq_false (stop d first) more
    · cases marked
  · rcases alias_or_bare c t with ⟨digits, u, rfl, rfl, some_digit, all, stop⟩ | bare
    · exact ⟨⟨.aliasName, marker :: digits⟩, u, rfl, .digits some_digit all, endsAt_of_other nofun stop⟩
    · refine ⟨⟨Kind.ofChar c, [c]⟩, t, rfl, .single rfl letter, fun d first grows => ?_⟩
      rcases grows with ⟨other, _⟩ | ⟨marked, digit⟩
      · exact letter other
      · have opens : c = marker := ((Spelled.single rfl letter).sort rfl).2.mp marked
        exact Bool.eq_false_iff.mp (digitFirst_eq_false_iff.mp (bare opens) d first) digit

/-- A text is empty, or a lexeme and a text that does not continue it. -/
theorem induction {motive : Text → Prop} (nil : motive [])
    (cons : ∀ (l : Lexeme) (u : Text), l.Spelled → l.EndsAt u → motive u → motive (l.text ++ u)) (t : Text) :
    motive t := by
  induction size : t.length using Nat.strongRecOn generalizing t with
  | ind n ih =>
    subst size
    by_cases empty : t = []
    · rw [empty]
      exact nil
    · obtain ⟨l, u, rfl, spelled, ends⟩ := exists_front empty
      have shorter : u.length < (l.text ++ u).length := by
        obtain ⟨c, rest, first⟩ := spelled.exists_first
        rw [first, List.length_append, List.length_cons]
        omega
      exact cons l u spelled ends (ih _ shorter u rfl)

end Ends

section Longest

variable {l other : Lexeme} {c : Char} {rest u : Text}

theorem Spelled.grown (spelled : l.Spelled) (grows : l.GrowsBy c) :
    ∃ kind, Spelled ⟨kind, l.text ++ [c]⟩ := by
  cases spelled with
  | @letters w some_letter all =>
    rcases grows with ⟨_, letter⟩ | ⟨marked, _⟩
    · refine ⟨.text, .letters (List.append_ne_nil_of_left_ne_nil some_letter [c]) ?_⟩
      exact List.forall_mem_append.mpr ⟨all, List.forall_mem_singleton.mpr letter⟩
    · cases marked
  | @digits digits some_digit all =>
    rcases grows with ⟨text, _⟩ | ⟨_, digit⟩
    · cases text
    · refine ⟨.aliasName, .digits (List.append_ne_nil_of_left_ne_nil some_digit [c]) ?_⟩
      exact List.forall_mem_append.mpr ⟨all, List.forall_mem_singleton.mpr digit⟩
  | @single d kind same not_text =>
    rcases grows with ⟨text, _⟩ | ⟨marked, digit⟩
    · exact absurd text not_text
    · have opens : d = marker := ((Spelled.single same not_text).sort rfl).2.mp marked
      subst opens
      exact ⟨.aliasName, .digits (List.cons_ne_nil c []) (List.forall_mem_singleton.mpr digit)⟩

theorem Spelled.growsBy (spelled : l.Spelled) (longer : other.Spelled)
    (front : other.text = l.text ++ c :: rest) :
    l.GrowsBy c := by
  obtain ⟨d, more, first⟩ := spelled.exists_first
  have sort := spelled.sort first
  rw [first, List.cons_append] at front
  have sort' := longer.sort front
  cases longer with
  | @letters w _ all =>
    have behind : w = d :: (more ++ c :: rest) := front
    exact .inl ⟨sort.1.mpr (sort'.1.mp rfl), all c (by simp [behind])⟩
  | @digits digits _ all =>
    have behind : digits = more ++ c :: rest := (List.cons_eq_cons.mp front).2
    exact .inr ⟨sort.2.mpr (sort'.2.mp rfl), all c (by simp [behind])⟩
  | single _ _ => simp at front

theorem longest_iff : l.Longest (l.text ++ u) ↔ l.Spelled ∧ l.EndsAt u := by
  constructor
  · rintro ⟨proper, _, longest⟩
    have spelled := proper_iff.mp proper
    refine ⟨spelled, fun c first grows => ?_⟩
    obtain ⟨kind, grown⟩ := spelled.grown grows
    obtain ⟨u, rfl⟩ := List.head?_eq_some_iff.mp first
    have fits := longest _ (proper_iff.mpr grown) ⟨u, by simp⟩
    rw [List.length_append, List.length_singleton] at fits
    omega
  · rintro ⟨spelled, ends⟩
    refine ⟨proper_iff.mpr spelled, List.prefix_append _ _, fun other proper front => ?_⟩
    refine Nat.le_of_not_lt fun longer => ?_
    -- A longer one has `l` in front, and its next character is the first one of `u`.
    have inside : l.text <+: other.text :=
      List.prefix_of_prefix_length_le (List.prefix_append _ _) front (by omega)
    obtain ⟨more, same⟩ := inside
    cases more with
    | nil => simp [← same] at longer
    | cons c rest =>
      rw [← same, List.prefix_append_right_inj] at front
      obtain ⟨v, rfl⟩ := front
      exact ends c rfl (spelled.growsBy (proper_iff.mp proper) same.symm)

end Longest

theorem endsAt_iff_apart {a b : Lexeme} (spelled : b.Spelled) (v : Text) :
    a.EndsAt (b.text ++ v) ↔ a.Apart b := by
  obtain ⟨c, rest, front⟩ := spelled.exists_first
  have letter := (spelled.sort front).1
  have first : (b.text ++ v).head? = some c := by rw [front]; rfl
  constructor
  · intro ends text
    refine ⟨fun text' => ends c first (.inl ⟨text', letter.mp text⟩), fun marked d head => ?_⟩
    rw [front] at head
    cases head
    exact Bool.eq_false_iff.mpr fun digit => ends c first (.inr ⟨marked, digit⟩)
  · intro apart d head grows
    rw [first] at head
    cases head
    rcases grows with ⟨text', text⟩ | ⟨marked, digit⟩
    · exact (apart (letter.mpr text)).1 text'
    · have plain := (apart (letter.mpr (Kind.ofChar_digit digit))).2 marked c (by rw [front]; rfl)
      rw [digit] at plain
      cases plain

end Lexeme

section Decompositions

variable {t : Text} {l : Lexeme} {ls : List Lexeme}

theorem decomposes_nil : Decomposes t [] ↔ t = [] :=
  ⟨fun whole => whole.joined.symm, fun empty => ⟨empty.symm, nofun, trivial⟩⟩

theorem decomposes_cons :
    Decomposes t (l :: ls) ↔ ∃ u, t = l.text ++ u ∧ l.Spelled ∧ l.EndsAt u ∧ Decomposes u ls := by
  have ends_iff (proper : ∀ b ∈ ls, b.Proper) :
      l.EndsAt (ls.flatMap Lexeme.text) ∧ AllApart ls ↔ AllApart (l :: ls) := by
    cases ls with
    | nil => exact ⟨fun _ => trivial, fun _ => ⟨nofun, trivial⟩⟩
    | cons b rest =>
      have spelled := Lexeme.proper_iff.mp (proper b List.mem_cons_self)
      rw [List.flatMap_cons, Lexeme.endsAt_iff_apart spelled]
      rfl
  constructor
  · rintro ⟨rfl, proper, apart⟩
    obtain ⟨first, rest⟩ := List.forall_mem_cons.mp proper
    obtain ⟨ends, apart⟩ := (ends_iff rest).mpr apart
    exact ⟨_, rfl, Lexeme.proper_iff.mp first, ends, rfl, rest, apart⟩
  · rintro ⟨_, rfl, spelled, ends, rfl, rest, apart⟩
    exact ⟨rfl, List.forall_mem_cons.mpr ⟨Lexeme.proper_iff.mpr spelled, rest⟩,
      (ends_iff rest).mp ⟨ends, apart⟩⟩

theorem decomposes_lexemes (t : Text) : Decomposes t (lexemes t) := by
  induction t using Lexeme.induction with
  | nil => exact decomposes_nil.mpr rfl
  | cons l u spelled ends ih =>
    rw [Lexeme.lexemes_append spelled ends]
    exact decomposes_cons.mpr ⟨u, rfl, spelled, ends, ih⟩

/-- The lexemes that are read are the only ones that decompose a text. -/
theorem decomposes_iff : Decomposes t ls ↔ ls = lexemes t := by
  constructor
  · intro whole
    induction ls generalizing t with
    | nil =>
      rw [decomposes_nil.mp whole]
      rfl
    | cons l ls ih =>
      obtain ⟨u, rfl, spelled, ends, rest⟩ := decomposes_cons.mp whole
      rw [Lexeme.lexemes_append spelled ends, ih rest]
  · rintro rfl
    exact decomposes_lexemes t

/-- Taking the longest match again and again reads the whole text, and yields the lexemes at their places. -/
theorem collected_iff {start : Nat} {tokens : List Token} :
    Collected start t tokens ↔ tokens = Token.place start (lexemes t) := by
  constructor
  · intro collected
    induction collected with
    | @stop start t none =>
      by_cases empty : t = []
      · rw [empty]
        rfl
      · obtain ⟨l, u, rfl, spelled, _⟩ := Lexeme.exists_front empty
        exact absurd (List.prefix_append _ _) (none l (Lexeme.proper_iff.mpr spelled))
    | more longest _ ih =>
      obtain ⟨spelled, ends⟩ := Lexeme.longest_iff.mp longest
      rw [Lexeme.lexemes_append spelled ends, ih]
      rfl
  · rintro rfl
    induction t using Lexeme.induction generalizing start with
    | nil =>
      refine .stop fun l proper front => ?_
      obtain ⟨c, rest, first⟩ := (Lexeme.proper_iff.mp proper).exists_first
      simp [first] at front
    | cons l u spelled ends ih =>
      rw [Lexeme.lexemes_append spelled ends]
      exact .more (Lexeme.longest_iff.mpr ⟨spelled, ends⟩) ih

end Decompositions

end EvalOrder
