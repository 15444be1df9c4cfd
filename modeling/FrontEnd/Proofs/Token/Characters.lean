import FrontEnd.Token.Lexeme

/-! Which characters can be told apart: names, digits, operators, delimiters and blanks have no
character in common, but that names have digits too. -/
namespace FrontEnd

/-- The characters that operators are written with. -/
def Operator.isSymbol (c : Char) : Bool := all.any fun op => op.text.toList.contains c

/-- The characters that delimiters are written with. -/
def Delimiter.isMark (c : Char) : Bool := all.any fun d => d.text.toList.contains c

namespace Lexeme

variable {c : Char}

theorem toNat_of_isDigit (h : c.isDigit = true) : 48 ≤ c.toNat ∧ c.toNat ≤ 57 := by
  simp only [Char.isDigit, Bool.and_eq_true, decide_eq_true_eq] at h
  exact h

theorem not_startsName_of_isDigit (h : c.isDigit = true) : startsName c = false := by
  obtain ⟨hl, hu⟩ := toNat_of_isDigit h
  have ha : Unicode.isAlphabetic c = false := by
    -- The first letter is `A`.
    change (if c.toNat < 0x41 then false else _) = false
    exact if_pos (by omega)
  have hc : c ≠ '_' := by
    rintro rfl
    exact absurd hu (by decide)
  simp [startsName, ha, hc]

theorem continuesName_of_isDigit (h : c.isDigit = true) : continuesName c = true := by
  have hn : Unicode.isNumeric c = true :=
    (Unicode.numericTable.contains_iff _).mpr
      ⟨(0x30, 0x39), List.mem_cons_self, toNat_of_isDigit h⟩
  simp [continuesName, hn]

/-- The blanks, one by one. -/
theorem not_continuesName_of_isWhitespace (h : Unicode.isWhitespace c = true) :
    continuesName c = false := by
  obtain ⟨range, hm, hl, hu⟩ := (Unicode.whitespaceTable.contains_iff _).mp h
  have hall : ∀ range ∈ Unicode.whitespaceTable.ranges, ∀ i < range.2 + 1 - range.1,
      Unicode.alphabeticTable.contains (range.1 + i) = false ∧
      Unicode.numericTable.contains (range.1 + i) = false ∧ range.1 + i ≠ 95 := by
    decide +kernel
  obtain ⟨ha, hn, hc⟩ := hall range hm (c.toNat - range.1) (by omega)
  rw [Nat.add_sub_cancel' hl] at ha hn hc
  have hc' : c ≠ '_' := by
    rintro rfl
    exact hc rfl
  simp [continuesName, Unicode.isAlphabetic, Unicode.isNumeric, ha, hn, hc']

theorem not_isWhitespace_of_continuesName (h : continuesName c = true) :
    Unicode.isWhitespace c = false := by
  cases hw : Unicode.isWhitespace c with
  | false => rfl
  | true => simp [not_continuesName_of_isWhitespace hw] at h

theorem not_startsName (h : continuesName c = false) : startsName c = false := by
  cases hs : startsName c with
  | false => rfl
  | true => simp [continuesName_of_startsName hs] at h

theorem not_isDigit (h : continuesName c = false) : c.isDigit = false := by
  cases hd : c.isDigit with
  | false => rfl
  | true => simp [continuesName_of_isDigit hd] at h

/-- A character of neither names nor literals nor blanks. -/
structure Special (c : Char) : Prop where
  not_continuesName : continuesName c = false
  not_isWhitespace : Unicode.isWhitespace c = false
  ne_quote : c ≠ '"'
  ne_backtick : c ≠ '\x60'

/-- What holds of all characters of some symbols holds of each. -/
theorem of_symbols {α : Type} {symbols : List α} {text : α → String} {p : Char → Bool}
    (hp : (symbols.all fun s => (text s).toList.all p) = true)
    (h : (symbols.any fun s => (text s).toList.contains c) = true) : p c = true := by
  obtain ⟨s, hs, hc⟩ := List.any_eq_true.mp h
  have hall := List.all_eq_true.mp hp s hs
  exact List.all_eq_true.mp hall c (List.contains_iff_mem.mp hc)

def isSpecial (c : Char) : Bool :=
  !continuesName c && !Unicode.isWhitespace c && c != '"' && c != '\x60'

theorem special_of_isSpecial (h : isSpecial c = true) : Special c := by
  simp only [isSpecial, Bool.and_eq_true, Bool.not_eq_true', bne_iff_ne] at h
  obtain ⟨⟨⟨hn, hw⟩, hq⟩, hb⟩ := h
  exact ⟨hn, hw, hq, hb⟩

theorem special_of_isSymbol (h : Operator.isSymbol c = true) : Special c :=
  special_of_isSpecial (of_symbols (by decide +kernel) h)

theorem special_of_isMark (h : Delimiter.isMark c = true) : Special c :=
  special_of_isSpecial (of_symbols (by decide +kernel) h)

theorem not_isMark_of_isSymbol (h : Operator.isSymbol c = true) : Delimiter.isMark c = false := by
  have hall :
      (Operator.all.all fun op => op.text.toList.all fun c => !Delimiter.isMark c) = true := by
    decide +kernel
  simpa using of_symbols hall h

theorem not_isSymbol_of_isMark (h : Delimiter.isMark c = true) : Operator.isSymbol c = false := by
  cases hs : Operator.isSymbol c with
  | false => rfl
  | true => simp [not_isMark_of_isSymbol hs] at h

theorem not_isSymbol_of_continuesName (h : continuesName c = true) :
    Operator.isSymbol c = false := by
  cases hs : Operator.isSymbol c with
  | false => rfl
  | true => simp [(special_of_isSymbol hs).not_continuesName] at h

theorem not_isMark_of_continuesName (h : continuesName c = true) : Delimiter.isMark c = false := by
  cases hs : Delimiter.isMark c with
  | false => rfl
  | true => simp [(special_of_isMark hs).not_continuesName] at h

end Lexeme

end FrontEnd
