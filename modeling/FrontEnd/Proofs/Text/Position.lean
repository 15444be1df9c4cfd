import FrontEnd.Location
import FrontEnd.Proofs.Text.Cut

/-! Lines and columns as coordinates. Each character moves the position on, a line feed to the start
of the next line and every other one by a column, however many bytes it takes up. So positions come
in the order of the offsets that they stand for. -/
namespace FrontEnd

namespace Text

variable {text before part : List Char} {offset first last : Nat}

namespace Position

variable {p q r : Position}

/-- The position behind a character that stands at `p`. -/
def next (p : Position) (c : Char) : Position :=
  if c = '\n' then ⟨p.line + 1, 1⟩ else ⟨p.line, p.column + 1⟩

/-- On an earlier line, or on the same line in an earlier column. -/
def Precedes (p q : Position) : Prop := p.line < q.line ∨ p.line = q.line ∧ p.column < q.column

theorem Precedes.trans (h : p.Precedes q) (h' : q.Precedes r) : p.Precedes r := by
  unfold Precedes at *
  omega

theorem precedes_next (p : Position) (c : Char) : p.Precedes (p.next c) := by
  rw [next]
  split
  · exact Or.inl (Nat.lt_succ_self _)
  · exact Or.inr ⟨rfl, Nat.lt_succ_self _⟩

theorem precedes_foldl_next (hp : part ≠ []) (p : Position) : p.Precedes (part.foldl next p) := by
  induction part generalizing p with
  | nil => exact (hp rfl).elim
  | cons c part ih =>
    by_cases hn : part = []
    · subst hn
      exact p.precedes_next c
    · exact (p.precedes_next c).trans (ih hn (p.next c))

end Position

theorem positionAfter_concat (before : List Char) (c : Char) :
    positionAfter (before ++ [c]) = (positionAfter before).next c := by
  by_cases hc : c = '\n'
  · simp [positionAfter, Position.next, hc]
  · simp [positionAfter, Position.next, hc]

/-- The characters of a text move the position on one after the other. -/
theorem positionAfter_append (before part : List Char) :
    positionAfter (before ++ part) = part.foldl Position.next (positionAfter before) := by
  induction part generalizing before with
  | nil => simp
  | cons c part ih =>
    calc positionAfter (before ++ c :: part) = positionAfter (before ++ [c] ++ part) := by simp
      _ = part.foldl Position.next ((positionAfter before).next c) := by
        rw [ih, positionAfter_concat]

theorem positionAt_append (before part : List Char) :
    positionAt (before ++ part) (byteSize before) = positionAfter before := by
  rw [positionAt, takeBytes?_append, Option.getD_some]

theorem positionAt_byteSize (text : List Char) :
    positionAt text (byteSize text) = positionAfter text := by
  have h := positionAt_append text []
  rwa [List.append_nil] at h

theorem positionAt_next (before : List Char) (c : Char) (after : List Char) :
    positionAt (before ++ c :: after) (byteSize before + c.utf8Size) =
      (positionAt (before ++ c :: after) (byteSize before)).next c := by
  have h := positionAt_append (before ++ [c]) after
  rw [List.append_assoc, List.singleton_append, byteSize_append] at h
  rw [positionAt_append, ← positionAfter_concat]
  exact h

/-- The lower of two boundaries leaves less of the text in front of it. -/
theorem IsBoundary.precedes (hf : IsBoundary text first) (hl : IsBoundary text last)
    (h : first < last) : (positionAt text first).Precedes (positionAt text last) := by
  obtain ⟨a, ha, rfl, hpa⟩ := hf.exists_positionAt
  obtain ⟨b, hb, rfl, hpb⟩ := hl.exists_positionAt
  have hle := length_le_of_byteSize_le ha hb (Nat.le_of_lt h)
  obtain ⟨part, rfl⟩ := List.prefix_of_prefix_length_le ha hb hle
  rw [hpa, hpb, positionAfter_append]
  refine Position.precedes_foldl_next ?_ _
  rintro rfl
  simp at h

/-- The offset falls between two bytes of one character. -/
def InsideCharacter (text : List Char) (offset : Nat) : Prop :=
  ∃ before c after, text = before ++ c :: after ∧
    byteSize before < offset ∧ offset < byteSize before + c.utf8Size

theorem not_isBoundary_of_lt (h : byteSize text < offset) : ¬ IsBoundary text offset := by
  intro hb
  obtain ⟨before, after, rfl, rfl⟩ := isBoundary_iff.mp hb
  rw [byteSize_append] at h
  omega

theorem InsideCharacter.not_isBoundary (h : InsideCharacter text offset) :
    ¬ IsBoundary text offset := by
  intro hb
  obtain ⟨before, c, after, ht, hlt, hlt'⟩ := h
  obtain ⟨cut, rest, hc, rfl⟩ := isBoundary_iff.mp hb
  have hbt : before <+: text := ⟨c :: after, ht.symm⟩
  have hct : cut <+: text := ⟨rest, hc.symm⟩
  have hle := length_le_of_byteSize_le hbt hct (Nat.le_of_lt hlt)
  obtain ⟨part, rfl⟩ := List.prefix_of_prefix_length_le hbt hct hle
  -- The cut is behind `before`, so `c` is in front of it, and with it all bytes of `c`.
  cases part with
  | nil => simp at hlt
  | cons d part =>
    obtain ⟨rfl, -⟩ : d = c ∧ part ++ rest = after := by simpa [ht] using hc.symm
    simp only [byteSize_append, byteSize_cons] at hlt'
    omega

theorem positionAt_of_not_isBoundary (h : ¬ IsBoundary text offset) :
    positionAt text offset = positionAt text (byteSize text) := by
  rw [positionAt, Option.not_isSome_iff_eq_none.mp h, Option.getD_none, positionAt_byteSize]

theorem byteSize_eq_utf8ByteSize (text : List Char) :
    byteSize text = (String.ofList text).utf8ByteSize := by
  induction text with
  | nil => rfl
  | cons c text ih =>
    rw [byteSize_cons, ih, ← List.singleton_append, String.ofList_append,
      String.utf8ByteSize_append, ← String.singleton_eq_ofList, String.utf8ByteSize_singleton]

end Text

open Text

/-- Line and column are coordinates of the places between characters. The first is line one, column
one; a line feed leads to the start of the next line and every other character to the next column; a
place further on never has an earlier or the same position. Offsets that are no such place have the
position of the end. -/
theorem Location.position_coordinates (source : String) (file : FileId) (length : Nat) :
    let place (offset : Nat) : Position := (⟨file, offset, length⟩ : Location).position source
    place 0 = ⟨1, 1⟩ ∧
    (∀ a b, IsBoundary source.toList a → IsBoundary source.toList b → a < b →
      (place a).Precedes (place b)) ∧
    (∀ before c after, source.toList = before ++ c :: after →
      place (byteSize before + c.utf8Size) = (place (byteSize before)).next c) ∧
    ∀ offset, source.utf8ByteSize < offset ∨ InsideCharacter source.toList offset →
      place offset = place source.utf8ByteSize := by
  intro place
  have hsize : byteSize source.toList = source.utf8ByteSize := by
    rw [byteSize_eq_utf8ByteSize, String.ofList_toList]
  refine ⟨?_, ?_, ?_, ?_⟩
  · exact positionAt_append [] source.toList
  · intro a b ha hb hlt
    exact ha.precedes hb hlt
  · intro before c after hs
    simp only [place, Location.position, hs]
    exact positionAt_next before c after
  · intro offset ho
    rw [← hsize] at ho ⊢
    refine positionAt_of_not_isBoundary ?_
    rcases ho with hlt | hin
    · exact not_isBoundary_of_lt hlt
    · exact hin.not_isBoundary

/-- The two bytes of an accented letter count as one column, and the offset between them is no place
of its own. -/
theorem Location.position_coordinates_accented :
    let source := "a\nöb"
    let place (offset : Nat) : Position := (⟨⟨0⟩, offset, 1⟩ : Location).position source
    (IsBoundary source.toList 1 ∧ IsBoundary source.toList 2 ∧ (place 1).Precedes (place 2)) ∧
    (source.toList = ['a', '\n'] ++ 'ö' :: ['b'] ∧ place 4 = (place 2).next 'ö') ∧
    InsideCharacter source.toList 3 ∧ place 3 = place source.utf8ByteSize := by
  intro source place
  have h := position_coordinates source ⟨0⟩ 1
  have hs : source.toList = ['a', '\n'] ++ 'ö' :: ['b'] := by decide
  have hfirst : IsBoundary source.toList 1 := by decide
  have hlast : IsBoundary source.toList 2 := by decide
  have hin : InsideCharacter source.toList 3 := ⟨_, _, _, hs, by decide, by decide⟩
  refine ⟨⟨hfirst, hlast, h.2.1 1 2 hfirst hlast (by decide)⟩, ⟨hs, ?_⟩, hin, ?_⟩
  · exact h.2.2.1 _ _ _ hs
  · exact h.2.2.2 3 (Or.inr hin)

end FrontEnd
