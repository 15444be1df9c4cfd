import FrontEnd.Proofs.Parser.Rounds

/-! A rule that reads a token before it comes to itself again is a fixed point of its layer. The
combinators are followed twice: where their parts never go back, neither do they, and where their
parts agree near the end of the tokens, so do they. -/
namespace FrontEnd.Parser

variable {α β : Type} {p p' q q' : Parser α} {r r' : Parser β} {f f' : α → Parser β} {n m k : Nat}

namespace Moves

theorem pure (v : α) : Moves (pure v : Parser α) := by
  intro start w stop h
  obtain ⟨-, rfl⟩ := pure_ok_iff.mp h
  exact ⟨[], .refl start⟩

theorem get : Moves (get : Parser Cursor) := by
  intro start w stop h
  obtain ⟨-, rfl⟩ := get_ok_iff.mp h
  exact ⟨[], .refl start⟩

theorem bind (hp : Moves p) (hf : ∀ a, Moves (f a)) : Moves (p >>= f) := by
  intro start w stop h
  obtain ⟨a, mid, ha, hb⟩ := bind_ok_iff.mp h
  obtain ⟨ts, hr⟩ := hp ha
  obtain ⟨us, hs⟩ := hf a hb
  exact ⟨ts ++ us, hr.trans hs⟩

theorem map (g : α → β) (hp : Moves p) : Moves (g <$> p) := by
  intro start w stop h
  obtain ⟨a, ha, -⟩ := map_ok_iff.mp h
  exact hp ha

theorem atomic (hp : Moves p) : Moves (atomic p) := fun _ _ _ h => hp (atomic_ok_iff.mp h)

theorem label (hp : Moves p) (name : String) : Moves (p.label name) :=
  fun _ _ _ h => hp (label_ok_iff.mp h)

theorem andThen (hp : Moves p) (step : α → Except ParseError β) : Moves (p.andThen step) := by
  intro start w stop h
  obtain ⟨a, ha, -⟩ := andThen_ok_iff.mp h
  exact hp ha

theorem pair (hp : Moves p) (hr : Moves r) : Moves (p.pair r) :=
  atomic (bind hp fun _ => bind hr fun _ => pure _)

theorem thenSkip (hp : Moves p) (hr : Moves r) : Moves (p.thenSkip r) :=
  atomic (bind hp fun _ => bind hr fun _ => pure _)

theorem skipThen (hp : Moves p) (hr : Moves r) : Moves (p.skipThen r) :=
  atomic (bind hp fun _ => hr)

theorem orElse (hp : Moves p) (hq : Moves q) : Moves (p.orElse q) := by
  intro start w stop h
  rcases orElse_ok_iff.mp h with h | ⟨-, h⟩
  · exact hp h
  · exact hq h

theorem optional (hp : Moves p) : Moves (optional p) :=
  orElse (map some hp) (pure none)

theorem anyOf {ps : List (Parser α)} (hp : ∀ p ∈ ps, Moves p) : Moves (anyOf ps) := by
  intro start w stop h
  obtain ⟨p, hm, h⟩ := exists_of_anyOf h
  exact hp p hm h

theorem allOfRounds {ps : List (Parser α)} {rounds : Nat} (hp : ∀ p ∈ ps, Moves p) :
    Moves (allOfRounds rounds ps) := by
  induction rounds generalizing ps with
  | zero => exact pure []
  | succ rounds ih =>
    intro start vs stop h
    simp only [Parser.allOfRounds] at h
    split at h
    · cases h
      exact ⟨[], .refl start⟩
    · cases h
    · next v mid i hm =>
      obtain ⟨vs', hr, -⟩ := map_ok_iff.mp h
      obtain ⟨p, hmem, ht⟩ := List.mem_map.mp (List.fst_mem_of_mem_zipIdx (List.maxOn?_mem hm))
      obtain ⟨ts, hs⟩ := hp p hmem ht
      obtain ⟨us, hs'⟩ := ih (fun q hq => hp q (List.mem_of_mem_eraseIdx hq)) hr
      exact ⟨ts ++ us, hs.trans hs'⟩

theorem allOf {ps : List (Parser α)} (hp : ∀ p ∈ ps, Moves p) : Moves (allOf ps) :=
  atomic (allOfRounds hp)

theorem manyUpTo (hp : Moves p) : ∀ bound, Moves (manyUpTo p bound)
  | 0 => pure []
  | bound + 1 => by
    refine bind get fun start => bind (optional hp) fun found => ?_
    cases found with
    | none => exact pure []
    | some v =>
      refine bind get fun cursor => ?_
      split
      · exact pure [v]
      · exact bind (manyUpTo hp bound) fun _ => pure _

theorem many (hp : Moves p) : Moves (many p) := fun _ _ _ h => manyUpTo hp _ h

theorem separatedUpTo (hp : Moves p) (hr : Moves r) : ∀ bound, Moves (separatedUpTo p r bound)
  | 0 => pure []
  | bound + 1 => by
    refine bind (optional hr) fun found => ?_
    cases found with
    | none => exact pure []
    | some w =>
      refine bind (optional hp) fun found => ?_
      cases found with
      | none => exact pure []
      | some v => exact bind (separatedUpTo hp hr bound) fun _ => pure _

theorem separated (hp : Moves p) (hr : Moves r) : Moves (separated p r) := by
  refine bind (optional hp) fun found => ?_
  cases found with
  | none => exact pure []
  | some v => exact bind get fun _ => bind (separatedUpTo hp hr _) fun _ => pure _

theorem committedUpTo (hp : Moves p) (hf : ∀ a, Moves (f a)) :
    ∀ bound, Moves (committedUpTo p f bound)
  | 0 => pure []
  | bound + 1 => by
    refine bind (optional hp) fun found => ?_
    cases found with
    | none => exact pure []
    | some v => exact bind (hf v) fun _ => bind (committedUpTo hp hf bound) fun _ => pure _

theorem committed (hp : Moves p) (hf : ∀ a, Moves (f a)) : Moves (committed p f) :=
  bind get fun _ => committedUpTo hp hf _

end Moves

theorem advances_token (expected : String) (select : Token → Option α) :
    Advances (token expected select) := by
  intro start v stop h
  obtain ⟨t, -, hr⟩ := reads_of_token h
  exact ⟨t, [], hr⟩

theorem Advances.map (g : α → β) (hp : Advances p) : Advances (g <$> p) := by
  intro start w stop h
  obtain ⟨a, ha, -⟩ := map_ok_iff.mp h
  exact hp ha

theorem Advances.bind (hp : Advances p) (hf : ∀ a, Moves (f a)) : Advances (p >>= f) := by
  intro start w stop h
  obtain ⟨a, mid, ha, hb⟩ := bind_ok_iff.mp h
  obtain ⟨t, ts, hr⟩ := hp ha
  obtain ⟨us, hs⟩ := hf a hb
  exact ⟨t, ts ++ us, hr.trans hs⟩

theorem Advances.atomic (hp : Advances p) : Advances (atomic p) :=
  fun _ _ _ h => hp (atomic_ok_iff.mp h)

theorem Advances.thenSkip (hp : Advances p) (hr : Moves r) : Advances (p.thenSkip r) :=
  atomic (hp.bind fun _ => hr.bind fun _ => .pure _)

theorem Advances.skipThen (hp : Advances p) (hr : Moves r) : Advances (p.skipThen r) :=
  atomic (hp.bind fun _ => hr)

theorem advances_exactly (t : Token) : Advances (exactly t) :=
  (advances_token _ _).map _

/-- The two parsers do the same wherever fewer than `n` tokens remain. -/
def Agree (n : Nat) (p q : Parser α) : Prop :=
  ∀ cursor : Cursor, cursor.remaining < n → p cursor = q cursor

namespace Agree

theorem refl (n : Nat) (p : Parser α) : Agree n p p := fun _ _ => rfl

theorem mono (h : Agree n p q) (hm : m ≤ n) : Agree m p q := fun cursor hc =>
  h cursor (Nat.lt_of_lt_of_le hc hm)

theorem bind (hp : Agree n p p') (hm : Moves p) (hf : ∀ a, Agree n (f a) (f' a)) :
    Agree n (p >>= f) (p' >>= f') := by
  intro start hs
  have he := hp start hs
  simp only [Bind.bind, EStateM.bind, ← he]
  cases hv : p start with
  | ok a mid => exact hf a mid (Nat.lt_of_le_of_lt (hm.remaining_le hv) hs)
  | error => rfl

/-- Behind a token one more may remain. -/
theorem bind_of_advances (ha : Advances p) (hf : ∀ a, Agree n (f a) (f' a)) :
    Agree (n + 1) (p >>= f) (p >>= f') := by
  intro start hs
  simp only [Bind.bind, EStateM.bind]
  cases hv : p start with
  | ok a mid =>
    have := ha.remaining_lt hv
    exact hf a mid (by omega)
  | error => rfl

theorem map (g : α → β) (hp : Agree n p p') : Agree n (g <$> p) (g <$> p') := by
  intro start hs
  simp only [Functor.map, EStateM.map, hp start hs]

theorem atomic (hp : Agree n p p') : Agree n (atomic p) (atomic p') := by
  intro start hs
  simp only [Parser.atomic, hp start hs]

theorem label (hp : Agree n p p') (name : String) : Agree n (p.label name) (p'.label name) := by
  intro start hs
  simp only [Parser.label, hp start hs]

theorem andThen (hp : Agree n p p') (hm : Moves p) (step : α → Except ParseError β) :
    Agree n (p.andThen step) (p'.andThen step) :=
  atomic (bind hp hm fun _ => refl n _)

theorem pair (hp : Agree n p p') (hm : Moves p) (hr : Agree n r r') (hm' : Moves r) :
    Agree n (p.pair r) (p'.pair r') :=
  atomic (bind hp hm fun _ => bind hr hm' fun _ => refl n _)

theorem thenSkip (hp : Agree n p p') (hm : Moves p) (r : Parser β) :
    Agree n (p.thenSkip r) (p'.thenSkip r) :=
  atomic (bind hp hm fun _ => refl n _)

theorem skipThen (ha : Advances p) (hr : Agree n r r') :
    Agree (n + 1) (p.skipThen r) (p.skipThen r') :=
  atomic (bind_of_advances ha fun _ => hr)

theorem orElse (hp : Agree n p p') (hq : Agree n q q') : Agree n (p.orElse q) (p'.orElse q') := by
  intro start hs
  simp only [Parser.orElse, hp start hs, hq start hs]

theorem optional (hp : Agree n p p') : Agree n (optional p) (optional p') :=
  orElse (map some hp) (refl n _)

theorem anyOf {ps ps' : List (Parser α)}
    (h : ∀ start : Cursor, start.remaining < n → trials ps start = trials ps' start) :
    Agree n (anyOf ps) (anyOf ps') := by
  intro start hs
  simp only [Parser.anyOf, Parser.atomic, h start hs]

theorem manyUpTo (hp : Agree n p p') (hm : Moves p) :
    ∀ bound, Agree n (manyUpTo p bound) (manyUpTo p' bound)
  | 0 => refl n _
  | bound + 1 => by
    refine bind (refl n _) Moves.get fun start => bind (optional hp) hm.optional fun found => ?_
    cases found with
    | none => exact refl n _
    | some v =>
      refine bind (refl n _) Moves.get fun cursor => ?_
      split
      · exact refl n _
      · exact bind (manyUpTo hp hm bound) (hm.manyUpTo bound) fun _ => refl n _

theorem many (hp : Agree n p p') (hm : Moves p) : Agree n (many p) (many p') :=
  fun start hs => manyUpTo hp hm _ start hs

theorem separatedUpTo (hp : Agree n p p') (hm : Moves p) (hr : Moves r) :
    ∀ bound, Agree n (separatedUpTo p r bound) (separatedUpTo p' r bound)
  | 0 => refl n _
  | bound + 1 => by
    refine bind (refl n _) hr.optional fun found => ?_
    cases found with
    | none => exact refl n _
    | some w =>
      refine bind (optional hp) hm.optional fun found => ?_
      cases found with
      | none => exact refl n _
      | some v =>
        exact bind (separatedUpTo hp hm hr bound) (hm.separatedUpTo hr bound) fun _ => refl n _

theorem separated (hp : Agree n p p') (hm : Moves p) (hr : Moves r) :
    Agree n (separated p r) (separated p' r) := by
  refine bind (optional hp) hm.optional fun found => ?_
  cases found with
  | none => exact refl n _
  | some v =>
    exact bind (refl n _) Moves.get fun _ =>
      bind (separatedUpTo hp hm hr _) (hm.separatedUpTo hr _) fun _ => refl n _

theorem committedUpTo (hm : Moves p) (hf : ∀ a, Agree n (f a) (f' a))
    (hm' : ∀ a, Moves (f a)) : ∀ bound, Agree n (committedUpTo p f bound) (committedUpTo p f' bound)
  | 0 => refl n _
  | bound + 1 => by
    refine bind (refl n _) hm.optional fun found => ?_
    cases found with
    | none => exact refl n _
    | some v =>
      exact bind (hf v) (hm' v) fun _ =>
        bind (committedUpTo hm hf hm' bound) (hm.committedUpTo hm' bound) fun _ => refl n _

theorem committed (hm : Moves p) (hf : ∀ a, Agree n (f a) (f' a)) (hm' : ∀ a, Moves (f a)) :
    Agree n (committed p f) (committed p f') :=
  bind (refl n _) Moves.get fun _ => committedUpTo hm hf hm' _

end Agree

/-- A layer that reads a token before it comes to the rule inside it. -/
structure Guarded (layer : Parser α → Parser α) : Prop where
  moves : ∀ {p}, Moves p → Moves (layer p)
  agree : ∀ {n p q}, Moves p → Moves q → Agree n p q → Agree (n + 1) (layer p) (layer q)

namespace Guarded

variable {layer : Parser α → Parser α}

theorem moves_nested (h : Guarded layer) : ∀ depth, Moves (nested layer depth)
  | 0 => Moves.anyOf (by simp)
  | depth + 1 => fun _ _ _ hp => h.moves (moves_nested h depth) hp

/-- Layers deeper than the number of tokens left make no difference. -/
theorem nested_agree (h : Guarded layer) (hm : n ≤ m) (hk : n ≤ k) :
    Agree n (nested layer m) (nested layer k) := by
  induction n generalizing m k with
  | zero => intro cursor hc; omega
  | succ n ih =>
    obtain ⟨m, rfl⟩ : ∃ i, m = i + 1 := ⟨m - 1, by omega⟩
    obtain ⟨k, rfl⟩ : ∃ i, k = i + 1 := ⟨k - 1, by omega⟩
    exact h.agree (h.moves_nested m) (h.moves_nested k) (ih (by omega) (by omega))

theorem nested_agree_fix (h : Guarded layer) : Agree n (nested layer n) (fix layer) := by
  intro cursor hc
  exact h.nested_agree (n := cursor.remaining + 1) hc (Nat.le_refl _) cursor (Nat.lt_succ_self _)

theorem moves_fix (h : Guarded layer) : Moves (fix layer) := fun _ _ _ hp =>
  h.moves_nested _ hp

/-- The rule is its own layer around itself. -/
theorem fix_eq (h : Guarded layer) : fix layer = layer (fix layer) := by
  funext cursor
  exact h.agree (h.moves_nested _) h.moves_fix h.nested_agree_fix cursor (Nat.lt_succ_self _)

end Guarded

end FrontEnd.Parser
