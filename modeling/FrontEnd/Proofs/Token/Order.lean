import FrontEnd.Token

/-! Tokens in the order of their places, so that their offsets compare as they come. -/
namespace FrontEnd

variable {tokens : List (Located Token)} {a b last : Located Token} {i j : Nat}

/-- Tokens none of which is empty, each behind the one before. -/
structure InOrder (tokens : List (Located Token)) : Prop where
  nonempty : ∀ token ∈ tokens, 0 < token.location.length
  ordered : tokens.Pairwise fun a b => a.location.endOffset ≤ b.location.offset

namespace InOrder

theorem offset_lt_endOffset (h : InOrder tokens) (ha : a ∈ tokens) :
    a.location.offset < a.location.endOffset := by
  have := h.nonempty a ha
  rw [Location.endOffset]
  omega

theorem offset_lt (h : InOrder tokens) (hi : tokens[i]? = some a) (hj : tokens[j]? = some b)
    (hij : i < j) : a.location.offset < b.location.offset := by
  have ha := h.offset_lt_endOffset (List.mem_of_getElem? hi)
  obtain ⟨hi', rfl⟩ := List.getElem?_eq_some_iff.mp hi
  obtain ⟨hj', rfl⟩ := List.getElem?_eq_some_iff.mp hj
  exact Nat.lt_of_lt_of_le ha (List.pairwise_iff_getElem.mp h.ordered i j hi' hj' hij)

/-- Offsets are in the order of the tokens. -/
theorem offset_le_iff (h : InOrder tokens) (hi : tokens[i]? = some a) (hj : tokens[j]? = some b) :
    a.location.offset ≤ b.location.offset ↔ i ≤ j := by
  constructor
  · intro hle
    refine Nat.not_lt.mp fun hij => ?_
    exact Nat.not_lt.mpr hle (h.offset_lt hj hi hij)
  · intro hij
    rcases Nat.lt_or_eq_of_le hij with hij | rfl
    · exact Nat.le_of_lt (h.offset_lt hi hj hij)
    · exact Nat.le_of_eq (by rw [Option.some.inj (hi.symm.trans hj)])

/-- Every token starts before the end of the last. -/
theorem offset_lt_end (h : InOrder tokens) (hi : tokens[i]? = some a)
    (hl : tokens.getLast? = some last) : a.location.offset < last.location.endOffset := by
  have hlast := h.offset_lt_endOffset (List.mem_of_getLast? hl)
  rw [List.getLast?_eq_getElem?] at hl
  obtain ⟨hlt, -⟩ := List.getElem?_eq_some_iff.mp hi
  have hle := (h.offset_le_iff hi hl).mpr (by omega)
  omega

end InOrder

end FrontEnd
