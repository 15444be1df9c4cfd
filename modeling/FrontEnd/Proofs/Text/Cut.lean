import FrontEnd.Text.Bytes

/-! Where a text can be cut: the offsets in bytes that fall between two of its characters. -/
namespace FrontEnd.Text

variable {text before part rest : List Char} {offset first last : Nat}

theorem byteSize_pos (h : text ≠ []) : 0 < byteSize text := by
  cases text with
  | nil => exact (h rfl).elim
  | cons c text =>
    have := c.utf8Size_pos
    rw [byteSize_cons]
    omega

theorem byteSize_lt_of_isPrefix {a b : List Char} (h : a <+: b) (hl : a.length < b.length) :
    byteSize a < byteSize b := by
  obtain ⟨more, rfl⟩ := h
  cases more with
  | nil => simp at hl
  | cons c more =>
    have := c.utf8Size_pos
    rw [byteSize_append, byteSize_cons]
    omega

theorem byteSize_le_of_isPrefix {a b : List Char} (h : a <+: b) : byteSize a ≤ byteSize b := by
  obtain ⟨more, rfl⟩ := h
  rw [byteSize_append]
  exact Nat.le_add_right _ _

theorem length_le_of_byteSize_le {a b input : List Char} (ha : a <+: input)
    (hb : b <+: input) (h : byteSize a ≤ byteSize b) : a.length ≤ b.length := by
  rcases Nat.lt_or_ge b.length a.length with hl | hl
  · have := byteSize_lt_of_isPrefix (List.prefix_of_prefix_length_le hb ha (Nat.le_of_lt hl)) hl
    omega
  · exact hl

theorem takeBytes?_eq_some_iff :
    takeBytes? text offset = some before ↔ before <+: text ∧ byteSize before = offset := by
  constructor
  · intro h
    fun_induction takeBytes? text offset generalizing before with
    | case1 text =>
      cases h
      exact ⟨List.nil_prefix, rfl⟩
    | case2 => cases h
    | case3 c text count hc ih =>
      obtain ⟨before, hb, rfl⟩ := Option.map_eq_some_iff.mp h
      obtain ⟨hp, hs⟩ := ih hb
      exact ⟨List.cons_prefix_cons.mpr ⟨rfl, hp⟩, by rw [byteSize_cons, hs]; omega⟩
    | case4 => cases h
  · rintro ⟨⟨after, rfl⟩, rfl⟩
    exact takeBytes?_append before after

/-- The offset is not beyond the end of the text and not inside a character. -/
def IsBoundary (text : List Char) (offset : Nat) : Prop := (takeBytes? text offset).isSome = true

instance : Decidable (IsBoundary text offset) := inferInstanceAs (Decidable (_ = true))

theorem isBoundary_iff : IsBoundary text offset ↔
    ∃ before after, text = before ++ after ∧ byteSize before = offset := by
  rw [IsBoundary, Option.isSome_iff_exists]
  constructor
  · rintro ⟨before, h⟩
    obtain ⟨⟨after, ht⟩, hs⟩ := takeBytes?_eq_some_iff.mp h
    exact ⟨before, after, ht.symm, hs⟩
  · rintro ⟨before, after, rfl, rfl⟩
    exact ⟨before, takeBytes?_append before after⟩

theorem isBoundary_zero (text : List Char) : IsBoundary text 0 :=
  isBoundary_iff.mpr ⟨[], text, rfl, rfl⟩

/-- The position at a boundary is that of the text in front of it. -/
theorem IsBoundary.exists_positionAt (h : IsBoundary text offset) :
    ∃ before, before <+: text ∧ byteSize before = offset ∧
      positionAt text offset = positionAfter before := by
  obtain ⟨before, hb⟩ := Option.isSome_iff_exists.mp h
  obtain ⟨hp, hs⟩ := takeBytes?_eq_some_iff.mp hb
  exact ⟨before, hp, hs, by rw [positionAt, hb, Option.getD_some]⟩

/-- From byte `first` up to byte `last` the text is `part`, and `rest` comes behind. -/
def Cuts (text : List Char) (first last : Nat) (part rest : List Char) : Prop :=
  ∃ before, text = before ++ (part ++ rest) ∧ byteSize before = first ∧
    first + byteSize part = last

theorem cuts_append (before part rest : List Char) :
    Cuts (before ++ (part ++ rest)) (byteSize before) (byteSize before + byteSize part) part rest :=
  ⟨before, rfl, rfl, rfl⟩

theorem Cuts.isBoundary (h : Cuts text first last part rest) :
    IsBoundary text first ∧ IsBoundary text last := by
  obtain ⟨before, rfl, rfl, rfl⟩ := h
  constructor
  · exact isBoundary_iff.mpr ⟨before, part ++ rest, rfl, rfl⟩
  · exact isBoundary_iff.mpr ⟨before ++ part, rest, by simp, byteSize_append before part⟩

end FrontEnd.Text
