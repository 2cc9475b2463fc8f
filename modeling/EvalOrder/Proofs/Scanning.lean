import EvalOrder.Proofs.Discovery

/-! The scan for parentheses, step by step. What is open stands in the text read so far, so a failure of
the scan is at the character it names: the parenthesis that is not closed or not opened, or the marker. -/
namespace EvalOrder

open EvalOrder.Part

theorem sort_of_char (c : Char) : c = '(' ∨ c = ')' ∨ c = marker ∨ isParenthesis c = false ∧ c ≠ marker := by
  by_cases opening : c = '('
  · exact .inl opening
  · by_cases closing : c = ')'
    · exact .inr (.inl closing)
    · by_cases marked : c = marker
      · exact .inr (.inr (.inl marked))
      · exact .inr (.inr (.inr ⟨plain_of_ne opening closing, marked⟩))

/-- A failure at the one character that is to blame for it. -/
def Failure.AtCharacter (source : Text) (failure : Failure) : Prop :=
  ∃ u c v, source = u ++ c :: v ∧ c.utf8Size = 1 ∧ failure = .ofByte failure.cause (Text.size u) ∧
    (failure.cause = .unclosed ∧ c = '(' ∨ failure.cause = .stray ∧ c = ')' ∨
      failure.cause = .reserved ∧ c = marker)

namespace Brackets

/-- Every open parenthesis stands in the text before, and there are no more of them than bytes. -/
structure Follows (before : Text) (opened : List Nat) : Prop where
  stands : ∀ start ∈ opened, ∃ u v, before = u ++ '(' :: v ∧ Text.size u = start
  few : opened.length ≤ Text.size before

theorem follows_nil : Follows [] [] := ⟨fun _ h => absurd h List.not_mem_nil, Nat.le_refl _⟩

namespace Follows

variable {before : Text} {opened : List Nat} {start : Nat}

theorem more (h : Follows before opened) (c : Char) : Follows (before ++ [c]) opened := by
  constructor
  · intro start member
    obtain ⟨u, v, rfl, size⟩ := h.stands start member
    exact ⟨u, v ++ [c], by simp, size⟩
  · have few := h.few
    simp only [Text.size_append]
    omega

theorem push (h : Follows before opened) : Follows (before ++ ['(']) (Text.size before :: opened) := by
  constructor
  · intro start member
    rcases List.mem_cons.mp member with rfl | earlier
    · exact ⟨before, [], rfl, rfl⟩
    · exact (h.more '(').stands start earlier
  · have few := h.few
    have one : '('.utf8Size = 1 := by decide
    simp only [List.length_cons, Text.size_append, Text.size_cons, Text.size_nil, one]
    omega

theorem pop (h : Follows before (start :: opened)) : Follows before opened :=
  ⟨fun s hs => h.stands s (List.mem_cons_of_mem _ hs), Nat.le_of_succ_le h.few⟩

end Follows

theorem read_follows {source before rest : Text} {c : Char} {b : Brackets} (h : Follows before b.opened)
    (here : source = before ++ c :: rest) :
    (∃ next, read source (Text.size before) c b = .ok next ∧ Follows (before ++ [c]) next.opened) ∨
      ∃ failure, read source (Text.size before) c b = .error failure ∧ failure.AtCharacter source := by
  rcases sort_of_char c with rfl | rfl | rfl | ⟨plain, unmarked⟩
  · exact .inl ⟨_, read_open _ _ _, h.push⟩
  · obtain ⟨opened, closed⟩ := b
    cases opened with
    | nil =>
      refine .inr ⟨_, rfl, before, ')', rest, here, by decide, rfl, .inr (.inl ⟨rfl, rfl⟩)⟩
    | cons start opened => exact .inl ⟨_, read_close _ _ _ _ _, (h.more ')').pop⟩
  · exact .inr ⟨_, rfl, before, marker, rest, here, by decide, rfl, .inr (.inr ⟨rfl, rfl⟩)⟩
  · exact .inl ⟨b, read_plain plain unmarked _ _ _, h.more c⟩

theorem scan_follows {source before rest : Text} (b : Brackets) (h : Follows before b.opened)
    (here : source = before ++ rest) :
    (∃ final, scan source (Text.size before) rest b = .ok final ∧ Follows source final.opened) ∨
      ∃ failure, scan source (Text.size before) rest b = .error failure ∧ failure.AtCharacter source := by
  induction rest generalizing before b with
  | nil =>
    rw [List.append_nil] at here
    exact .inl ⟨b, rfl, here ▸ h⟩
  | cons c rest ih =>
    have next_offset : Text.size before + c.utf8Size = Text.size (before ++ [c]) := by simp
    rcases read_follows h here with ⟨next, step, follows⟩ | ⟨failure, step, located⟩
    · rw [scan_cons step, next_offset]
      exact ih next follows (by simpa using here)
    · refine .inr ⟨failure, ?_, located⟩
      rw [scan, step]
      rfl

end Brackets

/-- Discovery fails at the character it names, and at no other place. -/
theorem atCharacter_of_levelsOf {source : Text} {failure : Failure}
    (failed : levelsOf source = .error failure) :
    failure.AtCharacter source := by
  have whole : source = [] ++ source := rfl
  rcases Brackets.scan_follows ⟨[], []⟩ Brackets.follows_nil whole with
    ⟨⟨opened, closed⟩, scanned, follows⟩ | ⟨first, scanned, located⟩
  · simp only [Text.size_nil] at scanned
    rw [levelsOf, scanned] at failed
    cases opened with
    | nil => cases failed
    | cons start opened =>
      obtain ⟨u, v, split, size⟩ := follows.stands start List.mem_cons_self
      obtain rfl : Failure.ofByte .unclosed start = failure := Except.error.inj failed
      exact ⟨u, '(', v, split, by decide, by rw [size]; rfl, .inl ⟨rfl, rfl⟩⟩
  · simp only [Text.size_nil] at scanned
    rw [levelsOf, scanned] at failed
    obtain rfl : first = failure := Except.error.inj failed
    exact located

end EvalOrder
