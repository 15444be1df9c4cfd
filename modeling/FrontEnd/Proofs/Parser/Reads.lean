import FrontEnd.Parser.Repetition

/-! What a run of a parser reads. Each combinator has one lemma that says exactly when it succeeds,
with which value and where it stops. -/
namespace FrontEnd

namespace Cursor

variable {start mid stop : Cursor} {t : Token} {ts us : List Token}

/-- The tokens that are still to be read, without their locations. -/
def ahead (cursor : Cursor) : List Token :=
  (cursor.tokens.toList.drop cursor.index).map Located.value

/-- The tokens `ts` lead from `start` to `stop`. -/
structure Reads (start : Cursor) (ts : List Token) (stop : Cursor) : Prop where
  tokens : stop.tokens = start.tokens
  index : stop.index = start.index + ts.length
  ahead : start.ahead = ts ++ stop.ahead

@[simp] theorem length_ahead (cursor : Cursor) : cursor.ahead.length = cursor.remaining := by
  simp [ahead, remaining]

@[simp] theorem ahead_ofTokens (tokens : List (Located Token)) :
    (ofTokens tokens).ahead = tokens.map Located.value := by
  simp [ahead, ofTokens]

theorem ahead_moveTo (cursor : Cursor) (n : Nat) :
    (cursor.moveTo (cursor.index + n)).ahead = cursor.ahead.drop n := by
  simp [ahead, moveTo, List.map_drop]

namespace Reads

theorem refl (cursor : Cursor) : cursor.Reads [] cursor := ⟨rfl, rfl, rfl⟩

theorem trans (h : start.Reads ts mid) (h' : mid.Reads us stop) : start.Reads (ts ++ us) stop where
  tokens := h'.tokens.trans h.tokens
  index := by rw [h'.index, h.index, List.length_append, Nat.add_assoc]
  ahead := by rw [h.ahead, h'.ahead, List.append_assoc]

theorem cons (h : start.Reads [t] mid) (h' : mid.Reads us stop) : start.Reads (t :: us) stop :=
  h.trans h'

/-- Where a run of tokens leads is determined. -/
theorem stop_eq {stop' : Cursor} (h : start.Reads ts stop) (h' : start.Reads ts stop') :
    stop = stop' := by
  obtain ⟨tokens, index⟩ := stop
  obtain ⟨tokens', index'⟩ := stop'
  have ht := h.tokens.trans h'.tokens.symm
  have hi := h.index.trans h'.index.symm
  simp_all

theorem head_eq {t u : Token} {stop' : Cursor} (h : start.Reads (t :: ts) stop)
    (h' : start.Reads (u :: us) stop') : t = u :=
  (List.cons.inj (h.ahead.symm.trans h'.ahead)).1

theorem remaining (h : start.Reads ts stop) : start.remaining = ts.length + stop.remaining := by
  rw [← length_ahead, ← length_ahead, h.ahead, List.length_append]

theorem remaining_le (h : start.Reads ts stop) : stop.remaining ≤ start.remaining := by
  have := h.remaining
  omega

theorem remaining_lt (h : start.Reads ts stop) (hn : ts ≠ []) :
    stop.remaining < start.remaining := by
  have := h.remaining
  have := List.length_pos_iff.mpr hn
  omega

theorem index_le (h : start.Reads ts stop) : start.index ≤ stop.index := by
  rw [h.index]
  exact Nat.le_add_right _ _

end Reads

/-- There is a place behind any tokens that stand ahead. -/
theorem exists_reads (h : start.ahead = ts ++ us) :
    ∃ stop, start.Reads ts stop ∧ stop.ahead = us := by
  have ha : (start.moveTo (start.index + ts.length)).ahead = us := by
    rw [ahead_moveTo, h, List.drop_left]
  exact ⟨start.moveTo (start.index + ts.length), ⟨rfl, rfl, by rw [ha, h]⟩, ha⟩

theorem Reads.split (h : start.Reads (ts ++ us) stop) :
    ∃ mid, start.Reads ts mid ∧ mid.Reads us stop := by
  obtain ⟨mid, hm, ha⟩ := exists_reads (h.ahead.trans (List.append_assoc ts us stop.ahead))
  refine ⟨mid, hm, ⟨h.tokens.trans hm.tokens.symm, ?_, ha⟩⟩
  rw [h.index, hm.index, List.length_append, Nat.add_assoc]

theorem Reads.uncons (h : start.Reads (t :: us) stop) :
    ∃ mid, start.Reads [t] mid ∧ mid.Reads us stop := by
  rw [← List.singleton_append] at h
  exact h.split

/-- The next token and the place behind it, as both the cursor and its view see them. -/
theorem next?_eq_some_iff {found : Located Token} : start.next? = some (found, stop) ↔
    start.peek? = some found ∧ start.Reads [found.value] stop := by
  simp only [next?, Option.map_eq_some_iff, Prod.mk.injEq]
  constructor
  · rintro ⟨token, hp, rfl, rfl⟩
    refine ⟨hp, rfl, rfl, ?_⟩
    obtain ⟨hi, hv⟩ := Array.getElem?_eq_some_iff.mp hp
    have hl : start.index < start.tokens.toList.length := by simpa using hi
    simp only [ahead, List.drop_eq_getElem_cons hl, List.map_cons]
    simp [hv]
  · rintro ⟨hp, hr⟩
    refine ⟨found, hp, rfl, ?_⟩
    obtain ⟨tokens, index⟩ := stop
    have ht := hr.tokens
    have hi := hr.index
    simp_all

theorem peek?_eq_none_iff : start.peek? = none ↔ start.ahead = [] := by
  rw [← List.length_eq_zero_iff, length_ahead, remaining, peek?, Array.getElem?_eq_none_iff]
  omega

theorem next?_eq_none_iff : start.next? = none ↔ start.ahead = [] := by
  rw [next?, Option.map_eq_none_iff, peek?_eq_none_iff]

theorem Reads.next? (h : start.Reads [t] stop) :
    ∃ location, start.next? = some (⟨t, location⟩, stop) := by
  cases hn : start.next? with
  | none =>
    have := h.ahead
    simp [next?_eq_none_iff.mp hn] at this
  | some next =>
    obtain ⟨found, stop'⟩ := next
    obtain ⟨-, hr⟩ := next?_eq_some_iff.mp hn
    obtain rfl : found.value = t := by
      have := hr.ahead.symm.trans h.ahead
      simp at this
      exact this.1
    exact ⟨found.location, by rw [h.stop_eq hr]⟩

end Cursor

end FrontEnd
