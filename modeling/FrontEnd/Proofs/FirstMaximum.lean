/-! The first of the elements with the greatest key, which is how both tokens and alternatives are
chosen. -/
namespace FrontEnd

variable {α : Type} {f : α → Nat} {xs : List α} {x : α}

theorem maxOn?_cons_of_le (h : ∀ y ∈ xs, f y ≤ f x) : (x :: xs).maxOn? f = some x := by
  rw [List.maxOn?_cons]
  cases hm : xs.maxOn? f with
  | none => rfl
  | some m => simp [maxOn_eq_left (h m (List.maxOn?_mem hm))]

theorem le_of_maxOn? {y : α} (h : xs.maxOn? f = some x) (hy : y ∈ xs) : f y ≤ f x := by
  have hle := List.le_apply_get_maxOn?_of_mem (f := f) hy
  simpa only [h, Option.get_some] using hle

/-- What beats everything else is chosen. -/
theorem maxOn?_of_best (hm : x ∈ xs) (hb : ∀ y ∈ xs, y = x ∨ f y < f x) :
    xs.maxOn? f = some x := by
  obtain ⟨best, h⟩ := Option.isSome_iff_exists.mp (List.isSome_maxOn?_of_mem (f := f) hm)
  have hle := le_of_maxOn? h hm
  rcases hb best (List.maxOn?_mem h) with rfl | hlt
  · exact h
  · omega

/-- What beats all before it and is beaten by nothing behind it is chosen. -/
theorem maxOn?_of_first {before after : List α} (hb : ∀ y ∈ before, f y < f x)
    (ha : ∀ y ∈ after, f y ≤ f x) : (before ++ x :: after).maxOn? f = some x := by
  induction before with
  | nil => exact maxOn?_cons_of_le ha
  | cons a before ih =>
    have hx := hb a List.mem_cons_self
    rw [List.cons_append, List.maxOn?_cons, ih fun y hy => hb y (List.mem_cons_of_mem a hy)]
    simp [maxOn_eq_right (Nat.not_le.mpr hx)]

theorem exists_first_of_maxOn? (h : xs.maxOn? f = some x) :
    ∃ before after, xs = before ++ x :: after ∧ (∀ y ∈ before, f y < f x) ∧
      ∀ y ∈ after, f y ≤ f x := by
  induction xs generalizing x with
  | nil => simp at h
  | cons a xs ih =>
    cases hm : xs.maxOn? f with
    | none =>
      have hn : xs = [] := by
        cases xs with
        | nil => rfl
        | cons b xs => simp [List.maxOn?_cons] at hm
      subst hn
      obtain rfl : a = x := by simpa using h
      exact ⟨[], [], by simp⟩
    | some m =>
      obtain ⟨before, after, rfl, hb, ha⟩ := ih hm
      rw [List.maxOn?_cons, hm, Option.elim_some, Option.some.injEq] at h
      by_cases hle : f m ≤ f a
      · obtain rfl : a = x := by rw [← h, maxOn_eq_left hle]
        refine ⟨[], before ++ m :: after, rfl, by simp, ?_⟩
        intro y hy
        rcases List.mem_append.mp hy with hy | hy
        · have := hb y hy
          omega
        · rcases List.mem_cons.mp hy with rfl | hy
          · exact hle
          · exact Nat.le_trans (ha y hy) hle
      · obtain rfl : m = x := by rw [← h, maxOn_eq_right hle]
        refine ⟨a :: before, after, rfl, ?_, ha⟩
        intro y hy
        rcases List.mem_cons.mp hy with rfl | hy
        · omega
        · exact hb y hy

theorem maxOn?_eq_some_iff : xs.maxOn? f = some x ↔ ∃ before after, xs = before ++ x :: after ∧
    (∀ y ∈ before, f y < f x) ∧ ∀ y ∈ after, f y ≤ f x := by
  refine ⟨exists_first_of_maxOn?, ?_⟩
  rintro ⟨before, after, rfl, hb, ha⟩
  exact maxOn?_of_first hb ha

theorem zipIdx_maxOn?_of_first {before after : List α} (hb : ∀ y ∈ before, f y < f x)
    (ha : ∀ y ∈ after, f y ≤ f x) :
    (before ++ x :: after).zipIdx.maxOn? (fun y => f y.1) = some (x, before.length) := by
  rw [List.zipIdx_append, List.zipIdx_cons, Nat.zero_add]
  apply maxOn?_of_first
  · intro y hy
    exact hb y.1 (List.fst_mem_of_mem_zipIdx hy)
  · intro y hy
    exact ha y.1 (List.fst_mem_of_mem_zipIdx hy)

end FrontEnd
