import FrontEnd.Proofs.FirstMaximum
import FrontEnd.Proofs.Parser.Reads

/-! When each combinator succeeds, with which value, and where it stops. -/
namespace FrontEnd.Parser

variable {α β : Type} {p q : Parser α} {r : Parser β} {start mid stop : Cursor} {v : α} {w : β}

/-- No success at `start`. -/
def Rejects (p : Parser α) (start : Cursor) : Prop := ∀ value stop, p start ≠ .ok value stop

theorem ok_unique {v' : α} {stop' : Cursor} (h : p start = .ok v stop)
    (h' : p start = .ok v' stop') : v = v' ∧ stop = stop' := by
  rw [h] at h'
  simpa using h'

@[simp] theorem pure_ok_iff {v' : α} :
    (pure v : Parser α) start = .ok v' stop ↔ v = v' ∧ start = stop := by
  simp [pure, EStateM.pure]

@[simp] theorem bind_ok_iff {f : α → Parser β} :
    (p >>= f) start = .ok w stop ↔ ∃ a mid, p start = .ok a mid ∧ f a mid = .ok w stop := by
  simp only [bind, EStateM.bind]
  cases p start with
  | ok a mid =>
    constructor
    · intro h
      exact ⟨a, mid, rfl, h⟩
    · rintro ⟨a', mid', he, h⟩
      cases he
      exact h
  | error => simp

@[simp] theorem map_ok_iff {f : α → β} :
    (f <$> p) start = .ok w stop ↔ ∃ a, p start = .ok a stop ∧ f a = w := by
  simp only [Functor.map, EStateM.map]
  cases p start with
  | ok a mid =>
    constructor
    · intro h
      cases h
      exact ⟨a, rfl, rfl⟩
    · rintro ⟨a', he, rfl⟩
      cases he
      rfl
  | error => simp

@[simp] theorem get_ok_iff {c : Cursor} :
    (get : Parser Cursor) start = .ok c stop ↔ start = c ∧ start = stop := by
  constructor
  · intro h
    cases h
    exact ⟨rfl, rfl⟩
  · rintro ⟨rfl, rfl⟩
    rfl

@[simp] theorem atomic_ok_iff : atomic p start = .ok v stop ↔ p start = .ok v stop := by
  simp only [atomic]
  cases p start <;> simp

@[simp] theorem label_ok_iff {name : String} :
    p.label name start = .ok v stop ↔ p start = .ok v stop := by
  simp only [label]
  cases p start <;> simp

@[simp] theorem andThen_ok_iff {step : α → Except ParseError β} :
    p.andThen step start = .ok w stop ↔ ∃ a, p start = .ok a stop ∧ step a = .ok w := by
  simp only [andThen, atomic_ok_iff, bind_ok_iff]
  constructor
  · rintro ⟨a, mid, hp, hs⟩
    cases hw : step a with
    | ok w' =>
      obtain ⟨rfl, rfl⟩ : w' = w ∧ mid = stop := by simpa [hw] using hs
      exact ⟨a, hp, hw⟩
    | error e =>
      rw [hw] at hs
      cases hs
  · rintro ⟨a, hp, hs⟩
    exact ⟨a, stop, hp, by simp [hs]⟩

@[simp] theorem pair_ok_iff {vw : α × β} : p.pair r start = .ok vw stop ↔
    ∃ mid, p start = .ok vw.1 mid ∧ r mid = .ok vw.2 stop := by
  obtain ⟨v, w⟩ := vw
  simp only [pair, atomic_ok_iff, bind_ok_iff, pure_ok_iff, Prod.mk.injEq]
  constructor
  · rintro ⟨_, mid, hp, _, _, hr, ⟨rfl, rfl⟩, rfl⟩
    exact ⟨mid, hp, hr⟩
  · rintro ⟨mid, hp, hr⟩
    exact ⟨v, mid, hp, w, stop, hr, ⟨rfl, rfl⟩, rfl⟩

theorem pair_of_ok (hp : p start = .ok v mid) (hr : r mid = .ok w stop) :
    p.pair r start = .ok (v, w) stop :=
  pair_ok_iff.mpr ⟨mid, hp, hr⟩

@[simp] theorem thenSkip_ok_iff : p.thenSkip r start = .ok v stop ↔
    ∃ mid w, p start = .ok v mid ∧ r mid = .ok w stop := by
  simp only [thenSkip, atomic_ok_iff, bind_ok_iff, pure_ok_iff]
  constructor
  · rintro ⟨_, mid, hp, w, _, hr, rfl, rfl⟩
    exact ⟨mid, w, hp, hr⟩
  · rintro ⟨mid, w, hp, hr⟩
    exact ⟨v, mid, hp, w, stop, hr, rfl, rfl⟩

@[simp] theorem skipThen_ok_iff : p.skipThen r start = .ok w stop ↔
    ∃ v mid, p start = .ok v mid ∧ r mid = .ok w stop := by
  simp [skipThen]

theorem orElse_ok_iff : p.orElse q start = .ok v stop ↔
    p start = .ok v stop ∨ p.Rejects start ∧ q start = .ok v stop := by
  simp only [orElse, Rejects]
  cases p start <;> simp

/-- Where the first alternative does not succeed, the second runs in its place. -/
theorem orElse_of_rejects (h : p.Rejects start) (q : Parser α) : p.orElse q start = q start := by
  rw [orElse]
  cases hp : p start with
  | ok v stop => exact (h v stop hp).elim
  | error => rfl

theorem optional_ok_iff {found : Option α} : optional p start = .ok found stop ↔
    (∃ a, found = some a ∧ p start = .ok a stop) ∨
      p.Rejects start ∧ found = none ∧ stop = start := by
  simp only [optional, orElse_ok_iff, map_ok_iff, pure_ok_iff, Rejects]
  constructor
  · rintro (⟨a, hp, rfl⟩ | ⟨hr, rfl, rfl⟩)
    · exact Or.inl ⟨a, rfl, hp⟩
    · exact Or.inr ⟨fun a stop hp => hr (some a) stop (map_ok_iff.mpr ⟨a, hp, rfl⟩), rfl, rfl⟩
  · rintro (⟨a, rfl, hp⟩ | ⟨hr, rfl, rfl⟩)
    · exact Or.inl ⟨a, hp, rfl⟩
    · refine Or.inr ⟨?_, rfl, rfl⟩
      intro found stop hp
      obtain ⟨a, hp, -⟩ := map_ok_iff.mp hp
      exact hr a stop hp

/-! Single tokens. -/

section Token

variable {expected : String} {select : Token → Option α} {t : Token}

theorem reads_of_token {found : Located α} (h : token expected select start = .ok found stop) :
    ∃ t, select t = some found.value ∧ start.Reads [t] stop := by
  simp only [token] at h
  split at h
  · next token cursor hn =>
    obtain ⟨-, hr⟩ := Cursor.next?_eq_some_iff.mp hn
    split at h
    · next value hs =>
      cases h
      exact ⟨token.value, hs, hr⟩
    · cases h
  · cases h

theorem location_of_token {expected : String} {select : Token → Option α} {found : Located α}
    (h : token expected select start = .ok found stop) : found.location = start.location := by
  simp only [token] at h
  split at h
  · next t cursor hn =>
    obtain ⟨hp, -⟩ := Cursor.next?_eq_some_iff.mp hn
    split at h <;> cases h
    rw [Cursor.location, hp]
  · cases h

theorem token_of_reads (h : start.Reads [t] stop) (hs : select t = some v) :
    ∃ location, token expected select start = .ok ⟨v, location⟩ stop := by
  obtain ⟨location, hn⟩ := h.next?
  exact ⟨location, by simp [token, hn, hs]⟩

theorem map_token_of_reads {f : Located α → β} (h : start.Reads [t] stop) (hs : select t = some v)
    (hf : ∀ location, f ⟨v, location⟩ = w) : (f <$> token expected select) start = .ok w stop := by
  obtain ⟨location, ht⟩ := token_of_reads h hs
  exact map_ok_iff.mpr ⟨_, ht, hf location⟩

theorem reads_of_exactly {location : Location} (h : exactly t start = .ok location stop) :
    start.Reads [t] stop := by
  obtain ⟨found, ht, -⟩ := map_ok_iff.mp h
  obtain ⟨t', hs, hr⟩ := reads_of_token ht
  split at hs
  · next he => exact he ▸ hr
  · cases hs

theorem exactly_of_reads (h : start.Reads [t] stop) :
    ∃ location, exactly t start = .ok location stop := by
  obtain ⟨location, hn⟩ := h.next?
  exact ⟨location, map_ok_iff.mpr ⟨⟨(), location⟩, by simp [token, hn], rfl⟩⟩

theorem reads_of_identifier {name : Located String} (h : identifier start = .ok name stop) :
    start.Reads [.identifier name.value] stop := by
  obtain ⟨t, hs, hr⟩ := reads_of_token h
  cases t <;> simp_all

theorem identifier_of_reads {name : String} (h : start.Reads [.identifier name] stop) :
    ∃ location, identifier start = .ok ⟨name, location⟩ stop :=
  token_of_reads h rfl

end Token

/-! Choices. -/

theorem anyOf_ok_iff {ps : List (Parser α)} : anyOf ps start = .ok v stop ↔
    (trials ps start).maxOn? reach = some (.ok v stop) := by
  apply atomic_ok_iff.trans
  cases (trials ps start).maxOn? reach <;> simp

theorem exists_of_anyOf {ps : List (Parser α)} (h : anyOf ps start = .ok v stop) :
    ∃ p ∈ ps, p start = .ok v stop := by
  simpa [trials] using List.maxOn?_mem (anyOf_ok_iff.mp h)

/-- How far an attempt got, compared with a success. -/
theorem reach_le_of_ok (hp : p start = .ok v mid)
    (hf : ∀ w stop', q start = .ok w stop' → stop'.index ≤ mid.index) :
    reach (q start) ≤ reach (p start) := by
  rw [hp]
  cases h : q start with
  | ok w stop' => simpa [reach] using hf w stop' h
  | error => simp [reach]

theorem reach_lt_of_ok (hp : p start = .ok v mid)
    (hf : ∀ w stop', q start = .ok w stop' → stop'.index < mid.index) :
    reach (q start) < reach (p start) := by
  rw [hp]
  cases h : q start with
  | ok w stop' => simpa [reach] using hf w stop' h
  | error => simp [reach]

/-- An alternative is taken if every other success stops before it or is the same. -/
theorem anyOf_of_best {ps : List (Parser α)} (hm : p ∈ ps) (h : p start = .ok v stop)
    (hb : ∀ q ∈ ps, ∀ v' stop', q start = .ok v' stop' →
      v' = v ∧ stop' = stop ∨ stop'.index < stop.index) : anyOf ps start = .ok v stop := by
  rw [anyOf_ok_iff, ← h]
  apply maxOn?_of_best (List.mem_map_of_mem hm)
  intro trial ht
  obtain ⟨q, hq, rfl⟩ := List.mem_map.mp ht
  rw [h]
  cases hv : q start with
  | ok v' stop' =>
    rcases hb q hq v' stop' hv with ⟨rfl, rfl⟩ | hlt
    · exact Or.inl rfl
    · exact Or.inr (by simpa [reach] using hlt)
  | error => exact Or.inr (by simp [reach])

/-- One round: the parser that reads furthest, and then the others. -/
theorem allOfRounds_ok_iff {rounds : Nat} {ps : List (Parser α)} {vs : List α} (hn : ps ≠ []) :
    allOfRounds (rounds + 1) ps start = .ok vs stop ↔ ∃ v mid i rest,
      (trials ps start).zipIdx.maxOn? (fun trial => reach trial.1) = some (.ok v mid, i) ∧
      allOfRounds rounds (ps.eraseIdx i) mid = .ok rest stop ∧ rest.insertIdx i v = vs := by
  simp only [allOfRounds]
  split
  · next hm =>
    obtain ⟨p, ps, rfl⟩ := List.exists_cons_of_ne_nil hn
    simp [trials, List.maxOn?_cons] at hm
  · next hm => simp [hm]
  · next v mid i hm =>
    apply map_ok_iff.trans
    constructor
    · rintro ⟨rest, hr, rfl⟩
      exact ⟨v, mid, i, rest, hm, hr, rfl⟩
    · rintro ⟨_, _, _, rest, hm', hr, rfl⟩
      cases hm.symm.trans hm'
      exact ⟨rest, hr, rfl⟩

theorem allOfRounds_single {vs : List α} :
    allOfRounds 1 [p] start = .ok vs stop ↔ ∃ v, vs = [v] ∧ p start = .ok v stop := by
  rw [allOfRounds_ok_iff (List.cons_ne_nil p [])]
  constructor
  · rintro ⟨v, mid, i, rest, hm, hr, rfl⟩
    obtain ⟨rfl, rfl⟩ := pure_ok_iff.mp hr
    obtain ⟨hp, rfl⟩ : p start = .ok v mid ∧ 0 = i := by simpa [trials] using hm
    exact ⟨v, rfl, hp⟩
  · rintro ⟨v, rfl, hp⟩
    exact ⟨v, stop, 0, [], by simp [trials, hp], pure_ok_iff.mpr ⟨rfl, rfl⟩, rfl⟩

theorem exists_of_allOf_pair {vs : List α} (h : allOf [p, q] start = .ok vs stop) :
    ∃ v w mid, vs = [v, w] ∧ (p start = .ok v mid ∧ q mid = .ok w stop ∨
      q start = .ok w mid ∧ p mid = .ok v stop) := by
  obtain ⟨v, mid, i, rest, hm, hr, rfl⟩ :=
    (allOfRounds_ok_iff (List.cons_ne_nil p [q])).mp (atomic_ok_iff.mp h)
  have hmem : .ok v mid = p start ∧ i = 0 ∨ .ok v mid = q start ∧ i = 1 := by
    simpa [trials] using List.maxOn?_mem hm
  rcases hmem with ⟨hp, rfl⟩ | ⟨hq, rfl⟩
  · obtain ⟨w, rfl, hw⟩ := allOfRounds_single.mp hr
    exact ⟨v, w, mid, rfl, Or.inl ⟨hp.symm, hw⟩⟩
  · obtain ⟨w, rfl, hw⟩ := allOfRounds_single.mp hr
    exact ⟨w, v, mid, rfl, Or.inr ⟨hq.symm, hw⟩⟩

theorem allOf_pair_left {w : α} (hp : p start = .ok v mid)
    (hf : ∀ w' stop', q start = .ok w' stop' → stop'.index ≤ mid.index) (hq : q mid = .ok w stop) :
    allOf [p, q] start = .ok [v, w] stop := by
  have hm : (trials [p, q] start).zipIdx.maxOn? (fun trial => reach trial.1) = some (p start, 0) :=
    maxOn?_cons_of_le (by simpa [trials] using reach_le_of_ok hp hf)
  rw [hp] at hm
  exact atomic_ok_iff.mpr ((allOfRounds_ok_iff (List.cons_ne_nil p [q])).mpr
    ⟨v, mid, 0, [w], hm, allOfRounds_single.mpr ⟨w, rfl, hq⟩, rfl⟩)

theorem allOf_pair_right {w : α} (hq : q start = .ok w mid)
    (hf : ∀ v' stop', p start = .ok v' stop' → stop'.index < mid.index) (hp : p mid = .ok v stop) :
    allOf [p, q] start = .ok [v, w] stop := by
  have hm : (trials [p, q] start).zipIdx.maxOn? (fun trial => reach trial.1) =
      some (q start, 1) := by
    change ([(p start, 0)] ++ [(q start, 1)]).maxOn? _ = _
    exact maxOn?_of_first (by simpa using reach_lt_of_ok hq hf) (by simp)
  rw [hq] at hm
  exact atomic_ok_iff.mpr ((allOfRounds_ok_iff (List.cons_ne_nil p [q])).mpr
    ⟨w, mid, 1, [v], hm, allOfRounds_single.mpr ⟨v, rfl, hp⟩, rfl⟩)

end FrontEnd.Parser
