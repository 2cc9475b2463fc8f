import EvalOrder.Precedence

/-! The operators of a text, read by characters. An operator is one byte and no byte of a longer UTF-8
sequence is one, so reading bytes and reading characters find the same operators at the same offsets. -/
namespace EvalOrder

theorem Operator.ofChar?_eq_none_of_utf8Size {c : Char} (long : c.utf8Size ≠ 1) :
    Operator.ofChar? c = none := by
  cases h : Operator.ofChar? c with
  | none => rfl
  | some o =>
    have hc := Operator.ofChar?_eq_some_iff.mp h
    subst hc
    exact absurd (by cases o <;> decide) long

theorem Operator.ofChar?_of_isDigit {c : Char} (digit : c.isDigit = true) : Operator.ofChar? c = none := by
  cases h : Operator.ofChar? c with
  | none => rfl
  | some o =>
    have symbol := Operator.ofChar?_eq_some_iff.mp h
    subst symbol
    exact absurd digit (by cases o <;> decide)

theorem Operator.utf8Size_symbol (o : Operator) : o.symbol.utf8Size = 1 := by cases o <;> decide

theorem Operator.ofByte?_eq_none {b : UInt8} (high : 128 ≤ b.toNat) : Operator.ofByte? b = none := by
  cases h : Operator.ofByte? b with
  | none => rfl
  | some o =>
    have hc : Char.ofUInt8 b = o.symbol := Operator.ofChar?_eq_some_iff.mp h
    have value : b.toNat = o.symbol.val.toNat := by
      rw [← hc]
      rfl
    have low : o.symbol.val.toNat < 128 := by cases o <;> decide
    omega

theorem high_of_mem_utf8EncodeChar {c : Char} (long : c.utf8Size ≠ 1) {b : UInt8}
    (member : b ∈ String.utf8EncodeChar c) : 128 ≤ b.toNat := by
  rw [← String.length_utf8EncodeChar] at long
  unfold String.utf8EncodeChar at long member
  dsimp only at long member
  split at member
  · rename_i short
    rw [if_pos short] at long
    exact absurd rfl long
  · split at member
    · simp only [List.mem_cons, List.not_mem_nil, or_false] at member
      rcases member with rfl | rfl <;> simp only [UInt8.toNat_ofNat'] <;> omega
    · split at member
      · simp only [List.mem_cons, List.not_mem_nil, or_false] at member
        rcases member with rfl | rfl | rfl <;> simp only [UInt8.toNat_ofNat'] <;> omega
      · simp only [List.mem_cons, List.not_mem_nil, or_false] at member
        rcases member with rfl | rfl | rfl | rfl <;> simp only [UInt8.toNat_ofNat'] <;> omega

theorem Operator.ofByte?_single {c : Char} (short : c.utf8Size = 1) :
    Operator.ofByte? c.val.toUInt8 = Operator.ofChar? c := by
  have bound : c.val.toNat < 128 := by
    have := (Char.utf8Size_eq_one_iff.mp short)
    rw [UInt32.le_iff_toNat_le] at this
    exact Nat.lt_succ_of_le this
  have same : Char.ofUInt8 c.val.toUInt8 = c := by
    apply Char.ext
    apply UInt32.toNat_inj.mp
    change c.val.toUInt8.toUInt32.toNat = c.val.toNat
    rw [UInt8.toNat_toUInt32, UInt32.toNat_toUInt8]
    omega
  rw [Operator.ofByte?, same]

def markOf (offset : Nat) (c : Char) : List Mark :=
  ((Operator.ofChar? c).map (Mark.mk offset)).toList

def marksAt : Nat → Text → List Mark
  | _, [] => []
  | offset, c :: t => markOf offset c ++ marksAt (offset + c.utf8Size) t

theorem marks_of_char (offset : Nat) (c : Char) :
    ((String.utf8EncodeChar c).zipIdx offset).filterMap
      (fun b => (Operator.ofByte? b.1).map (Mark.mk b.2)) = markOf offset c := by
  by_cases short : c.utf8Size = 1
  · rw [String.utf8EncodeChar_eq_singleton short]
    simp only [List.zipIdx_cons, List.zipIdx_nil, List.filterMap_cons, List.filterMap_nil,
      Operator.ofByte?_single short, markOf]
    cases Operator.ofChar? c <;> rfl
  · rw [markOf, Operator.ofChar?_eq_none_of_utf8Size short, List.filterMap_eq_nil_iff.mpr]
    · rfl
    · intro b hb
      have member := List.fst_mem_of_mem_zipIdx hb
      rw [Operator.ofByte?_eq_none (high_of_mem_utf8EncodeChar short member)]
      rfl

theorem marksOf_eq (t : Text) : marksOf t = marksAt 0 t := by
  have general : ∀ (offset : Nat), ((Text.bytes t).zipIdx offset).filterMap
      (fun b => (Operator.ofByte? b.1).map (Mark.mk b.2)) = marksAt offset t := by
    induction t with
    | nil => intro offset; rfl
    | cons c t ih =>
      intro offset
      rw [Text.bytes_cons, List.zipIdx_append, List.filterMap_append, marks_of_char,
        String.length_utf8EncodeChar, ih, marksAt]
  exact general 0

theorem marksAt_append (offset : Nat) (t u : Text) :
    marksAt offset (t ++ u) = marksAt offset t ++ marksAt (offset + Text.size t) u := by
  induction t generalizing offset with
  | nil => rfl
  | cons c t ih =>
    rw [List.cons_append, marksAt, ih, marksAt, List.append_assoc, Text.size_cons, Nat.add_assoc]

theorem mem_markOf {offset : Nat} {c : Char} {m : Mark} (member : m ∈ markOf offset c) :
    m.offset = offset := by
  simp only [markOf, Option.mem_toList, Option.map_eq_some_iff] at member
  obtain ⟨o, _, rfl⟩ := member
  rfl

theorem marksAt_bounds {offset : Nat} {t : Text} {m : Mark} (member : m ∈ marksAt offset t) :
    offset ≤ m.offset ∧ m.offset < offset + Text.size t := by
  induction t generalizing offset with
  | nil => simp [marksAt] at member
  | cons c t ih =>
    have positive := c.utf8Size_pos
    rw [Text.size_cons]
    rcases List.mem_append.mp member with here | later
    · have := mem_markOf here
      omega
    · have := ih later
      omega

def Ordered (marks : List Mark) : Prop :=
  marks.Pairwise fun a b => a.offset < b.offset

theorem markOf_ordered (offset : Nat) (c : Char) : Ordered (markOf offset c) := by
  unfold Ordered markOf
  cases Operator.ofChar? c with
  | none => exact List.Pairwise.nil
  | some o => exact List.pairwise_singleton _ _

theorem marksAt_ordered (offset : Nat) (t : Text) : Ordered (marksAt offset t) := by
  induction t generalizing offset with
  | nil => exact List.Pairwise.nil
  | cons c t ih =>
    have positive := c.utf8Size_pos
    refine List.pairwise_append.mpr ⟨markOf_ordered offset c, ih _, ?_⟩
    intro a ha b hb
    have := mem_markOf ha
    have := marksAt_bounds hb
    omega

section Marks

variable {t : Text}

theorem mem_marksOf {m : Mark} :
    m ∈ marksOf t ↔ ∃ b, (Text.bytes t)[m.offset]? = some b ∧ Operator.ofByte? b = some m.operator := by
  simp only [marksOf, List.mem_filterMap, Prod.exists, List.mem_zipIdx_iff_getElem?, Option.map_eq_some_iff]
  constructor
  · rintro ⟨b, i, byte, o, found, rfl⟩
    exact ⟨b, byte, found⟩
  · rintro ⟨b, byte, found⟩
    exact ⟨b, m.offset, byte, m.operator, found, rfl⟩

theorem ordered_marksOf (t : Text) : Ordered (marksOf t) := by
  rw [marksOf_eq]
  exact marksAt_ordered 0 t

theorem lt_size_of_mem {m : Mark} (member : m ∈ marksOf t) : m.offset < Text.size t := by
  rw [marksOf_eq] at member
  simpa using (marksAt_bounds member).2

def Boundary (t : Text) (i : Nat) : Prop :=
  ∃ u v, t = u ++ v ∧ Text.size u = i

theorem boundary_zero (t : Text) : Boundary t 0 := ⟨[], t, rfl, rfl⟩

theorem boundary_size (t : Text) : Boundary t (Text.size t) := ⟨t, [], by simp, rfl⟩

theorem mem_marksOf_iff_symbol {m : Mark} :
    m ∈ marksOf t ↔ ∃ u v, t = u ++ m.operator.symbol :: v ∧ Text.size u = m.offset := by
  constructor
  · intro member
    have general : ∀ (front back : Text), m ∈ marksAt (Text.size front) back →
        ∃ u v, back = u ++ m.operator.symbol :: v ∧ Text.size (front ++ u) = m.offset := by
      intro front back member
      induction back generalizing front with
      | nil => cases member
      | cons c back ih =>
        rcases List.mem_append.mp member with here | later
        · have place := mem_markOf here
          simp only [markOf, Option.mem_toList, Option.map_eq_some_iff] at here
          obtain ⟨o, symbol, rfl⟩ := here
          exact ⟨[], back, by rw [Operator.ofChar?_eq_some_iff.mp symbol]; rfl, by simp⟩
        · have next : Text.size front + c.utf8Size = Text.size (front ++ [c]) := by simp
          rw [next] at later
          obtain ⟨u, v, rfl, place⟩ := ih (front ++ [c]) later
          exact ⟨c :: u, v, rfl, by simpa using place⟩
    rw [marksOf_eq] at member
    exact general [] t member
  · rintro ⟨u, v, rfl, place⟩
    have here : m ∈ markOf (Text.size u) m.operator.symbol := by
      simp [markOf, Operator.ofChar?_symbol, place]
    rw [marksOf_eq, marksAt_append, marksAt, Nat.zero_add]
    exact List.mem_append_right _ (List.mem_append_left _ here)

theorem boundary_of_mem {m : Mark} (member : m ∈ marksOf t) :
    Boundary t m.offset ∧ Boundary t (m.offset + 1) := by
  obtain ⟨u, v, rfl, place⟩ := mem_marksOf_iff_symbol.mp member
  refine ⟨⟨u, _, rfl, place⟩, ⟨u ++ [m.operator.symbol], v, by simp, ?_⟩⟩
  simp [place, Operator.utf8Size_symbol]

theorem slice_of_boundaries {i j : Nat} (left : Boundary t i) (right : Boundary t j) (order : i ≤ j) :
    ∃ middle, Text.slice? t i j = some middle := by
  obtain ⟨u, v, rfl, rfl⟩ := left
  obtain ⟨w, x, split, rfl⟩ := right
  rcases List.append_eq_append_iff.mp split with ⟨m, rfl, rfl⟩ | ⟨m, rfl, rfl⟩
  · exact ⟨m, Text.slice?_eq_some_iff.mpr ⟨u, x, by simp, rfl, by simp⟩⟩
  · have none : m = [] := by
      rw [Text.size_append] at order
      exact Text.size_eq_zero.mp (by omega)
    subst none
    exact ⟨[], Text.slice?_eq_some_iff.mpr ⟨w, v, by simp, by simp, by simp⟩⟩

end Marks

end EvalOrder
