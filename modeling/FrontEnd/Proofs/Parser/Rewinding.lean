import FrontEnd.Proofs.Parser.Nesting

/-! No parser takes only part of what it reads. One that fails leaves the cursor where it was, one
that succeeds leaves it there or further on, over the same tokens. Combinators that do not put the
cursor back themselves have this from the parsers they are made of. -/
namespace FrontEnd

/-- From `start` the cursor gets to `stop` by taking tokens. -/
inductive Cursor.Onward : Cursor → Cursor → Prop
  | refl (start : Cursor) : Onward start start
  | next {start mid stop : Cursor} {found : Located Token} (h : start.next? = some (found, mid))
      (hs : Onward mid stop) : Onward start stop

namespace Cursor

variable {start mid stop : Cursor}

theorem Onward.trans (h : start.Onward mid) (h' : mid.Onward stop) : start.Onward stop := by
  induction h with
  | refl => exact h'
  | next hn _ ih => exact .next hn (ih h')

theorem onward_iff : start.Onward stop ↔ ∃ ts, start.Reads ts stop := by
  constructor
  · intro h
    induction h with
    | refl start => exact ⟨[], .refl start⟩
    | next hn _ ih =>
      obtain ⟨ts, hr⟩ := ih
      exact ⟨_, (next?_eq_some_iff.mp hn).2.trans hr⟩
  · rintro ⟨ts, hr⟩
    induction ts generalizing start with
    | nil =>
      obtain rfl := hr.stop_eq (.refl start)
      exact .refl stop
    | cons t ts ih =>
      obtain ⟨mid, ht, hs⟩ := hr.uncons
      obtain ⟨location, hn⟩ := ht.next?
      exact .next hn (ih hs)

theorem Reads.index_le_size {ts : List Token} (h : start.Reads ts stop)
    (hi : start.index ≤ start.tokens.size) : stop.index ≤ start.tokens.size := by
  have hr := h.remaining
  rw [Cursor.remaining, Cursor.remaining, h.tokens] at hr
  have := h.index
  omega

/-- The tokens between two places that are no further than the last of them can be taken. -/
theorem Onward.of_index_le (ht : stop.tokens = start.tokens) (hle : start.index ≤ stop.index)
    (hs : stop.index ≤ start.tokens.size) : start.Onward stop := by
  obtain ⟨mid, hr, -⟩ :=
    exists_reads (List.take_append_drop (stop.index - start.index) start.ahead).symm
  have hi : mid.index = stop.index := by
    rw [hr.index, List.length_take, length_ahead, remaining]
    omega
  obtain rfl : mid = stop := by
    cases mid
    cases stop
    exact congr (congrArg _ (hr.tokens.trans ht.symm)) hi
  exact onward_iff.mpr ⟨_, hr⟩

end Cursor

namespace Parser

variable {α β : Type} {p q : Parser α} {r : Parser β} {f : α → Parser β}

/-- Where a run left the cursor. -/
def leftAt : Trial α → Cursor
  | .ok _ cursor => cursor
  | .error _ cursor => cursor

/-- The cursor is moved by taking tokens and in no other way, whether `p` then succeeds or not. -/
def OnlyAdvances (p : Parser α) : Prop := ∀ start : Cursor, start.Onward (leftAt (p start))

/-- A failure leaves the cursor as it was. -/
def Restores (p : Parser α) : Prop :=
  ∀ ⦃start : Cursor⦄ ⦃error : ParseError⦄ ⦃stop : Cursor⦄,
    p start = .error error stop → stop = start

/-- Runs `p`, and sets the index back if it fails. -/
def rewind (p : Parser α) : Parser α := fun start =>
  match p start with
  | .ok value cursor => .ok value cursor
  | .error error cursor => .error error (cursor.moveTo start.index)

/-- Runs `q` where `p` fails, from wherever `p` has left the cursor. -/
def resume (p q : Parser α) : Parser α := fun start =>
  match p start with
  | .ok value cursor => .ok value cursor
  | .error _ cursor => q cursor

/-- The parsers that the combinators make. A rule that contains itself is made of layers, however
many of them. -/
inductive Built : {α : Type} → Parser α → Prop
  | atomic {α : Type} {p : Parser α} (h : OnlyAdvances p) : Built (atomic p)
  | rewind {α : Type} {p : Parser α} (h : OnlyAdvances p) : Built (rewind p)
  | token {α : Type} (expected : String) (select : Token → Option α) :
      Built (token expected select)
  | keyword (word : Keyword) : Built (keyword word)
  | operator (symbol : Operator) : Built (operator symbol)
  | delimiter (symbol : Delimiter) : Built (delimiter symbol)
  | identifier : Built identifier
  | endOfInput : Built endOfInput
  | map {α β : Type} {p : Parser α} (f : α → β) (hp : Built p) : Built (f <$> p)
  | andThen {α β : Type} {p : Parser α} (hp : Built p) (step : α → Except ParseError β) :
      Built (p.andThen step)
  | pair {α β : Type} {p : Parser α} {r : Parser β} (hp : Built p) (hr : Built r) :
      Built (p.pair r)
  | thenSkip {α β : Type} {p : Parser α} {r : Parser β} (hp : Built p) (hr : Built r) :
      Built (p.thenSkip r)
  | skipThen {α β : Type} {p : Parser α} {r : Parser β} (hp : Built p) (hr : Built r) :
      Built (p.skipThen r)
  | orElse {α : Type} {p q : Parser α} (hp : Built p) (hq : Built q) : Built (p.orElse q)
  | resume {α : Type} {p q : Parser α} (hp : Built p) (hq : Built q) : Built (p.resume q)
  | label {α : Type} {p : Parser α} (hp : Built p) (name : String) : Built (p.label name)
  | sequence {α : Type} {ps : List (Parser α)} (h : ∀ p ∈ ps, Built p) : Built (sequence ps)
  | anyOf {α : Type} {ps : List (Parser α)} (h : ∀ p ∈ ps, Built p) : Built (anyOf ps)
  | allOf {α : Type} {ps : List (Parser α)} (h : ∀ p ∈ ps, Built p) : Built (allOf ps)
  | separated {α β : Type} {p : Parser α} {r : Parser β} (hp : Built p) (hr : Built r) :
      Built (separated p r)
  | many {α : Type} {p : Parser α} (hp : Built p) : Built (many p)
  | optional {α : Type} {p : Parser α} (hp : Built p) : Built (optional p)
  | fix {α : Type} {layer : Parser α → Parser α} (h : ∀ depth, Built (nested layer depth)) :
      Built (fix layer)

/-- What every parser promises of a cursor that stands among its tokens or behind the last. -/
def Contract (p : Parser α) : Prop :=
  ∀ start : Cursor, start.index ≤ start.tokens.size →
    (∀ error stop, p start = .error error stop → stop = start) ∧
    ∀ v stop, p start = .ok v stop →
      stop.tokens = start.tokens ∧ start.index ≤ stop.index ∧ stop.index ≤ start.tokens.size

theorem Moves.contract (hm : Moves p) (hr : Restores p) : Contract p := by
  intro start hi
  refine ⟨fun error stop h => hr h, fun v stop h => ?_⟩
  obtain ⟨ts, hs⟩ := hm h
  exact ⟨hs.tokens, hs.index_le, hs.index_le_size hi⟩

/-- The promise at every place that can be reached from `start`. -/
def ContractFrom (start : Cursor) (p : Parser α) : Prop :=
  ∀ ⦃cursor : Cursor⦄, start.Onward cursor →
    (∀ error stop, p cursor = .error error stop → stop = cursor) ∧
    ∀ v stop, p cursor = .ok v stop → cursor.Onward stop

theorem ContractFrom.mono {start mid : Cursor} (h : ContractFrom start p) (hs : start.Onward mid) :
    ContractFrom mid p :=
  fun _ hc => h (hs.trans hc)

theorem Contract.contractFrom {start : Cursor} (h : Contract p)
    (hs : start.index ≤ start.tokens.size) : ContractFrom start p := by
  intro cursor hc
  obtain ⟨ts, hr⟩ := Cursor.onward_iff.mp hc
  have hi : cursor.index ≤ cursor.tokens.size := by
    rw [hr.tokens]
    exact hr.index_le_size hs
  refine ⟨(h cursor hi).1, fun v stop hv => ?_⟩
  obtain ⟨ht, hle, hsize⟩ := (h cursor hi).2 v stop hv
  exact .of_index_le ht hle hsize

/-! Closures. -/

namespace OnlyAdvances

theorem moves (h : OnlyAdvances p) : Moves p := by
  intro start v stop hp
  have hs := h start
  rw [hp] at hs
  exact Cursor.onward_iff.mp hs

theorem pure (v : α) : OnlyAdvances (pure v : Parser α) := fun start => .refl start

theorem throw (error : ParseError) : OnlyAdvances (throw error : Parser α) :=
  fun start => .refl start

theorem get : OnlyAdvances (get : Parser Cursor) := fun start => .refl start

theorem bind (hp : OnlyAdvances p) (hf : ∀ a, OnlyAdvances (f a)) : OnlyAdvances (p >>= f) := by
  intro start
  have hs := hp start
  simp only [Bind.bind, EStateM.bind]
  cases h : p start with
  | ok a mid =>
    rw [h] at hs
    exact hs.trans (hf a mid)
  | error error stop =>
    rw [h] at hs
    exact hs

theorem of_restores (hm : Moves p) (hr : Restores p) : OnlyAdvances p := by
  intro start
  cases h : p start with
  | ok v stop => exact Cursor.onward_iff.mpr (hm h)
  | error error stop =>
    rw [hr h]
    exact .refl start

end OnlyAdvances

/-- Setting the index back is enough: the tokens are the same anyway. -/
theorem rewind_eq_atomic (h : OnlyAdvances p) : rewind p = Parser.atomic p := by
  funext start
  have hs := h start
  simp only [rewind, Parser.atomic]
  cases hp : p start with
  | ok => rfl
  | error error stop =>
    rw [hp] at hs
    obtain ⟨ts, hr⟩ := Cursor.onward_iff.mp hs
    have ht : stop.moveTo start.index = start := by
      rw [Cursor.moveTo, show stop.tokens = start.tokens from hr.tokens]
    exact congrArg (EStateM.Result.error error) ht

/-- A choice need not put the cursor back if its first parser does. What is optional and what is
repeated is made of such choices. -/
theorem resume_eq_orElse (h : Restores p) (q : Parser α) : p.resume q = p.orElse q := by
  funext start
  simp only [resume, Parser.orElse]
  cases hp : p start with
  | ok => rfl
  | error error stop => rw [h hp]

/-! What a failure leaves behind. -/

theorem restores_atomic (p : Parser α) : Restores (Parser.atomic p) := by
  intro start error stop h
  simp only [Parser.atomic] at h
  split at h
  · cases h
  · cases h
    rfl

theorem restores_token (expected : String) (select : Token → Option α) :
    Restores (token expected select) := by
  intro start error stop h
  simp only [token] at h
  split at h
  · split at h
    · cases h
    · cases h
      rfl
  · cases h
    rfl

theorem restores_endOfInput : Restores endOfInput := by
  intro start error stop h
  simp only [endOfInput] at h
  split at h
  · cases h
  · cases h
    rfl

theorem moves_endOfInput : Moves endOfInput := by
  intro start v stop h
  simp only [endOfInput] at h
  split at h
  · cases h
    exact ⟨[], .refl start⟩
  · cases h

theorem Restores.map (g : α → β) (hp : Restores p) : Restores (g <$> p) := by
  intro start error stop h
  simp only [Functor.map, EStateM.map] at h
  split at h
  · cases h
  · next hs =>
    cases h
    exact hp hs

theorem restores_exactly (t : Token) : Restores (exactly t) := (restores_token _ _).map _

theorem Restores.label (hp : Restores p) (name : String) : Restores (p.label name) := by
  intro start error stop h
  simp only [Parser.label] at h
  split at h
  · cases h
  · next hs =>
    cases h
    exact hp hs

theorem Restores.orElse (p : Parser α) (hq : Restores q) : Restores (p.orElse q) := by
  intro start error stop h
  simp only [Parser.orElse] at h
  split at h
  · cases h
  · exact hq h

/-- Succeeds wherever it is run. -/
def NeverFails (p : Parser α) : Prop :=
  ∀ start : Cursor, ∃ v stop, p start = .ok v stop

namespace NeverFails

theorem restores (h : NeverFails p) : Restores p := by
  intro start error stop he
  obtain ⟨v, stop', hp⟩ := h start
  rw [he] at hp
  cases hp

theorem pure (v : α) : NeverFails (pure v : Parser α) := fun start => ⟨v, start, rfl⟩

theorem get : NeverFails (get : Parser Cursor) := fun start => ⟨start, start, rfl⟩

theorem bind (hp : NeverFails p) (hf : ∀ a, NeverFails (f a)) : NeverFails (p >>= f) := by
  intro start
  obtain ⟨a, mid, ha⟩ := hp start
  obtain ⟨w, stop, hw⟩ := hf a mid
  exact ⟨w, stop, bind_ok_iff.mpr ⟨a, mid, ha, hw⟩⟩

theorem optional (p : Parser α) : NeverFails (optional p) := by
  intro start
  cases h : p start with
  | ok v stop => exact ⟨some v, stop, optional_of_ok h⟩
  | error error stop =>
    refine ⟨none, start, optional_of_rejects fun v stop' hp => ?_⟩
    rw [h] at hp
    cases hp

theorem manyUpTo (p : Parser α) : ∀ bound, NeverFails (manyUpTo p bound)
  | 0 => pure []
  | bound + 1 => by
    refine bind get fun start => bind (optional p) fun found => ?_
    cases found with
    | none => exact pure []
    | some v =>
      refine bind get fun cursor => ?_
      split
      · exact pure [v]
      · exact bind (manyUpTo p bound) fun _ => pure _

theorem separatedUpTo (p : Parser α) (r : Parser β) : ∀ bound, NeverFails (separatedUpTo p r bound)
  | 0 => pure []
  | bound + 1 => by
    refine bind (optional r) fun found => ?_
    cases found with
    | none => exact pure []
    | some w =>
      refine bind (optional p) fun found => ?_
      cases found with
      | none => exact pure []
      | some v => exact bind (separatedUpTo p r bound) fun _ => pure _

theorem many (p : Parser α) : NeverFails (many p) := fun start => manyUpTo p _ start

theorem separated (p : Parser α) (r : Parser β) : NeverFails (separated p r) := by
  refine bind (optional p) fun found => ?_
  cases found with
  | none => exact pure []
  | some v => exact bind get fun _ => bind (separatedUpTo p r _) fun _ => pure _

end NeverFails

theorem OnlyAdvances.committedUpTo (hp : Moves p) (hf : ∀ a, OnlyAdvances (f a)) :
    ∀ bound, OnlyAdvances (committedUpTo p f bound)
  | 0 => .pure []
  | bound + 1 => by
    have ho : OnlyAdvances (Parser.optional p) :=
      .of_restores hp.optional (NeverFails.optional p).restores
    refine ho.bind fun found => ?_
    cases found with
    | none => exact .pure []
    | some v => exact (hf v).bind fun _ => (committedUpTo hp hf bound).bind fun _ => .pure _

/-- A round that has started and does not finish fails behind its start, but never before it. -/
theorem OnlyAdvances.committed (hp : Moves p) (hf : ∀ a, OnlyAdvances (f a)) :
    OnlyAdvances (committed p f) :=
  OnlyAdvances.get.bind fun _ => OnlyAdvances.committedUpTo hp hf _

theorem Moves.sequence {ps : List (Parser α)} (hp : ∀ p ∈ ps, Moves p) : Moves (sequence ps) := by
  refine Moves.atomic ?_
  induction ps with
  | nil => exact Moves.pure []
  | cons p ps ih =>
    rw [List.mapM_cons]
    exact Moves.bind (hp p List.mem_cons_self) fun _ =>
      Moves.bind (ih fun q hq => hp q (List.mem_cons_of_mem p hq)) fun _ => Moves.pure _

namespace Built

theorem moves_restores (h : Built p) : Moves p ∧ Restores p := by
  induction h with
  | atomic h => exact ⟨h.moves.atomic, restores_atomic _⟩
  | rewind h =>
    rw [rewind_eq_atomic h]
    exact ⟨h.moves.atomic, restores_atomic _⟩
  | token expected select => exact ⟨(advances_token _ _).moves, restores_token _ _⟩
  | keyword word => exact ⟨(advances_exactly _).moves, restores_exactly _⟩
  | operator symbol => exact ⟨(advances_exactly _).moves, restores_exactly _⟩
  | delimiter symbol => exact ⟨(advances_exactly _).moves, restores_exactly _⟩
  | identifier => exact ⟨(advances_token _ _).moves, restores_token _ _⟩
  | endOfInput => exact ⟨moves_endOfInput, restores_endOfInput⟩
  | map g _ ih => exact ⟨ih.1.map g, ih.2.map g⟩
  | andThen _ step ih => exact ⟨ih.1.andThen step, restores_atomic _⟩
  | pair _ _ ih ih' => exact ⟨ih.1.pair ih'.1, restores_atomic _⟩
  | thenSkip _ _ ih ih' => exact ⟨ih.1.thenSkip ih'.1, restores_atomic _⟩
  | skipThen _ _ ih ih' => exact ⟨ih.1.skipThen ih'.1, restores_atomic _⟩
  | orElse _ _ ih ih' => exact ⟨ih.1.orElse ih'.1, ih'.2.orElse _⟩
  | resume _ _ ih ih' =>
    -- The second parser starts where the whole did, only because the first put the cursor back.
    rw [resume_eq_orElse ih.2]
    exact ⟨ih.1.orElse ih'.1, ih'.2.orElse _⟩
  | label _ name ih => exact ⟨ih.1.label name, ih.2.label name⟩
  | sequence _ ih => exact ⟨.sequence fun p hp => (ih p hp).1, restores_atomic _⟩
  | anyOf _ ih => exact ⟨.anyOf fun p hp => (ih p hp).1, restores_atomic _⟩
  | allOf _ ih => exact ⟨.allOf fun p hp => (ih p hp).1, restores_atomic _⟩
  | separated _ _ ih ih' => exact ⟨ih.1.separated ih'.1, (NeverFails.separated _ _).restores⟩
  | many _ ih => exact ⟨ih.1.many, (NeverFails.many _).restores⟩
  | optional _ ih => exact ⟨ih.1.optional, (NeverFails.optional _).restores⟩
  -- How deep a rule nests depends on the cursor, so both facts are needed of every depth.
  | fix _ ih => exact ⟨fun _ _ _ h => (ih _).1 h, fun _ _ _ h => (ih _).2 h⟩

theorem contract (h : Built p) : Contract p := h.moves_restores.1.contract h.moves_restores.2

theorem onlyAdvances (h : Built p) : OnlyAdvances p :=
  .of_restores h.moves_restores.1 h.moves_restores.2

/-- A step that may refuse the value of a closure gives back all that the closure took. -/
theorem andThen_closure (h : OnlyAdvances p) (step : α → Except ParseError β) :
    Built (p.andThen step) := by
  refine .atomic (h.bind fun a => ?_)
  split
  · exact .pure _
  · exact .throw _

/-- A rule is built if its layer builds on whatever is inside it. -/
theorem of_layer {layer : Parser α → Parser α} (h : ∀ p, Built p → Built (layer p)) :
    Built (Parser.fix layer) := by
  refine .fix fun depth => ?_
  induction depth with
  | zero => exact .anyOf (by simp)
  | succ depth ih => exact h _ ih

end Built

end Parser

end FrontEnd
