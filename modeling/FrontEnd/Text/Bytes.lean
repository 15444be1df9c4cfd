/-! Text measured in UTF-8 bytes, and the line and column at a byte offset. -/

namespace FrontEnd.Text

/-- Bytes that a text takes up in UTF-8. -/
def byteSize : List Char → Nat
  | [] => 0
  | c :: text => c.utf8Size + byteSize text

@[simp] theorem byteSize_nil : byteSize [] = 0 := rfl

@[simp] theorem byteSize_cons (c : Char) (text : List Char) :
    byteSize (c :: text) = c.utf8Size + byteSize text := rfl

@[simp] theorem byteSize_append (a b : List Char) :
    byteSize (a ++ b) = byteSize a + byteSize b := by
  induction a with
  | nil => simp
  | cons c a ih => simp [ih, Nat.add_assoc]

/-- The characters that make up the first `count` bytes, unless there are fewer bytes or the cut
would fall inside a character. -/
def takeBytes? : List Char → Nat → Option (List Char)
  | _, 0 => some []
  | [], _ + 1 => none
  | c :: text, count + 1 =>
    if c.utf8Size ≤ count + 1 then (takeBytes? text (count + 1 - c.utf8Size)).map (c :: ·)
    else none

/-- A text is what its own bytes make up, whatever follows. -/
theorem takeBytes?_append (text rest : List Char) :
    takeBytes? (text ++ rest) (byteSize text) = some text := by
  induction text with
  | nil => cases rest <;> rfl
  | cons c text ih =>
    have hc := c.utf8Size_pos
    obtain ⟨n, hn⟩ : ∃ n, byteSize (c :: text) = n + 1 :=
      ⟨c.utf8Size + byteSize text - 1, by simp; omega⟩
    have hs : n + 1 - c.utf8Size = byteSize text := by rw [← hn]; simp
    have hle : c.utf8Size ≤ n + 1 := by rw [← hn]; simp
    simp [hn, takeBytes?, hle, hs, ih]

/-- A place in a text as a reader counts it: lines and columns both start at one. -/
structure Position where
  line : Nat
  column : Nat
deriving DecidableEq

/-- The position just after `text`: one line more than it has line feeds, and one column more than
it has characters after the last of them. -/
def positionAfter (text : List Char) : Position where
  line := text.count '\n' + 1
  column := (text.reverse.takeWhile (· ≠ '\n')).length + 1

/-- The position at a byte offset. An offset beyond the end, or inside a character, counts as the
end of the text. -/
def positionAt (text : List Char) (offset : Nat) : Position :=
  positionAfter ((takeBytes? text offset).getD text)

end FrontEnd.Text
