import FrontEnd.Proofs.Parser.Outcome
import Mathlib.Data.List.Forall2

/-! Two runs of one parser, side by side. Both have the same tokens to read, at places of their own.
Every combinator then does the same in both: it reads the same tokens, keeps the same alternative,
and fails at the same token. -/
namespace FrontEnd

variable {α β : Type}

/-- The first maximum is at the same place in two lists whose keys compare alike. -/
theorem maxOn?_rel {R : α → α → Prop} {f : α → Nat} {xs ys : List α}
    (hf : ∀ {x y x' y'}, R x y → R x' y' → (f x ≤ f x' ↔ f y ≤ f y'))
    (h : List.Forall₂ R xs ys) : Option.Rel R (xs.maxOn? f) (ys.maxOn? f) := by
  induction h with
  | nil => exact .none
  | @cons x y xs ys hx _ ih =>
    rw [List.maxOn?_cons, List.maxOn?_cons]
    match xs.maxOn? f, ys.maxOn? f, ih with
    | _, _, .none => exact .some hx
    | some m, some m', .some hm =>
      by_cases hle : f m ≤ f x
      · simpa [maxOn_eq_left hle, maxOn_eq_left ((hf hm hx).mp hle)] using hx
      · simpa [maxOn_eq_right hle, maxOn_eq_right (mt (hf hm hx).mpr hle)] using hm

/-- The operators that apply to a variable and to nothing else. -/
def targeting : List Operator :=
  [.plusPlus, .minusMinus, .assign, .plusAssign, .minusAssign, .starAssign, .slashAssign,
    .percentAssign]

/-- What a failure may say of the token it stands at, or of there being none. -/
inductive Blames : Option Token → ParseErrorKind → Prop
  | unexpected (expected : String) (t : Token) :
      Blames (some t) (.unexpectedToken expected t.describe)
  | trailing (t : Token) : Blames (some t) (.trailingInput t.describe)
  | illegal {op : Operator} (h : op ∈ targeting) (construct : String) :
      Blames (some (.operator op)) (.illegalConstruct construct)
  | ended (expected : String) : Blames none (.endOfStream expected)

namespace ParseError

variable {e e' : ParseError}

@[simp] theorem location_expecting (name : String) : (e.expecting name).location = e.location := by
  rw [expecting]
  split <;> rfl

theorem kind_expecting_eq (h : e.kind = e'.kind) (name : String) :
    (e.expecting name).kind = (e'.expecting name).kind := by
  simp only [expecting, ← h]
  split <;> simp_all

end ParseError

namespace Cursor

/-- The cursor `count` tokens further on. -/
def forward (cursor : Cursor) (count : Nat) : Cursor := cursor.moveTo (cursor.index + count)

variable {cursor : Cursor} {k : Nat}

@[simp] theorem index_forward : (cursor.forward k).index = cursor.index + k := rfl

theorem remaining_forward : (cursor.forward k).remaining = cursor.ahead.length - k := by
  rw [← length_ahead, forward, ahead_moveTo, List.length_drop]

theorem peek?_forward : (cursor.forward k).peek? =
    cursor.ahead[k]?.map fun t => ⟨t, (cursor.forward k).location⟩ := by
  have ha : cursor.ahead[k]? = (cursor.forward k).peek?.map Located.value := by
    simp [ahead, peek?, forward, moveTo]
  rw [ha, location]
  cases (cursor.forward k).peek? <;> rfl

theorem next?_forward : (cursor.forward k).next? =
    (cursor.forward k).peek?.map fun token => (token, cursor.forward (k + 1)) := rfl

/-- Where a failure is reported `k` tokens from the start. -/
theorem location_forward_ofTokens {tokens : List (Located Token)} :
    ((ofTokens tokens).forward k).location = (tokens[k]?.map Located.location).getD
      ((tokens.getLast?.map fun last => last.location.after).getD .origin) := by
  have hp : ((ofTokens tokens).forward k).peek? = tokens[k]? := by
    simp [ofTokens, forward, moveTo, peek?]
  have hb : ((ofTokens tokens).forward k).tokens.back? = tokens.getLast? := by
    simp [ofTokens, forward, moveTo]
  rw [location, hp, hb]
  cases tokens[k]? <;> cases tokens.getLast? <;> rfl

end Cursor

/-- Both answers are values that `R` relates, or both are errors that `E` relates. -/
inductive Answers (E : ParseError → ParseError → Prop) (R : α → α → Prop) :
    Except ParseError α → Except ParseError α → Prop
  | ok {v v' : α} (h : R v v') : Answers E R (.ok v) (.ok v')
  | error {e e' : ParseError} (h : E e e') : Answers E R (.error e) (.error e')

namespace Answers

variable {E : ParseError → ParseError → Prop} {R : α → α → Prop} {S : β → β → Prop}
  {x x' : Except ParseError α}

theorem bind {f f' : α → Except ParseError β} (h : Answers E R x x')
    (hf : ∀ {v v'}, R v v' → Answers E S (f v) (f' v')) : Answers E S (x >>= f) (x' >>= f') := by
  cases h with
  | ok hv => exact hf hv
  | error he => exact .error he

theorem map {g : α → β} (h : Answers E R x x') (hg : ∀ {v v'}, R v v' → S (g v) (g v')) :
    Answers E S (g <$> x) (g <$> x') := by
  cases h with
  | ok hv => exact .ok (hg hv)
  | error he => exact .error he

end Answers

/-- Two cursors with the same tokens ahead, and which of the errors that runs from there end with
are alike. -/
structure Tandem where
  first : Cursor
  second : Cursor
  Alike : ParseError → ParseError → Prop
  ahead : first.ahead = second.ahead
  /-- What both runs say of the same token is alike. -/
  reports : ∀ {k kind}, Blames first.ahead[k]? kind →
    Alike ⟨kind, (first.forward k).location⟩ ⟨kind, (second.forward k).location⟩
  relabel : ∀ {e e'}, Alike e e' → ∀ name, Alike (e.expecting name) (e'.expecting name)

namespace Tandem

open FrontEnd.Parser

variable {T : Tandem} {R : α → α → Prop} {S : β → β → Prop} {p p' q q' : Parser α}
  {r r' : Parser β} {f f' : α → Parser β} {c c' d d' : Cursor}

/-- Both cursors are the same number of tokens past where they started. -/
inductive InStep (T : Tandem) : Cursor → Cursor → Prop
  | forward (k : Nat) : InStep T (T.first.forward k) (T.second.forward k)

theorem InStep.start (T : Tandem) : T.InStep T.first T.second := .forward 0

theorem InStep.remaining_eq (h : T.InStep c c') : c.remaining = c'.remaining := by
  obtain ⟨k⟩ := h
  rw [Cursor.remaining_forward, Cursor.remaining_forward, T.ahead]

theorem InStep.index_le_iff (h : T.InStep c c') (h' : T.InStep d d') :
    c.index ≤ d.index ↔ c'.index ≤ d'.index := by
  obtain ⟨k⟩ := h
  obtain ⟨l⟩ := h'
  simp

theorem InStep.readSince_eq (h : T.InStep c c') (h' : T.InStep d d') :
    d.readSince c.index = d'.readSince c'.index := by
  obtain ⟨k⟩ := h
  obtain ⟨l⟩ := h'
  simp only [Cursor.readSince, Cursor.index_forward]
  omega

theorem InStep.alike_expecting (h : T.InStep c c') (expected : String) :
    T.Alike (c.expecting expected) (c'.expecting expected) := by
  obtain ⟨k⟩ := h
  simp only [Cursor.expecting, Cursor.peek?_forward, ← T.ahead]
  cases ht : T.first.ahead[k]? with
  | none => exact T.reports (ht ▸ .ended expected)
  | some t => exact T.reports (ht ▸ .unexpected expected t)

/-- What `select` makes of one token ahead, in each run with the place of the token there. -/
inductive Found (T : Tandem) (select : Token → Option α) : Located α → Located α → Prop
  | at {k : Nat} {t : Token} {v : α} (ht : T.first.ahead[k]? = some t) (hv : select t = some v) :
      Found T select ⟨v, (T.first.forward k).location⟩ ⟨v, (T.second.forward k).location⟩

theorem Found.value_eq {select : Token → Option α} {a a' : Located α} (h : T.Found select a a') :
    a.value = a'.value := by
  cases h
  rfl

/-- Both runs succeed with values that `R` relates, or both fail alike, and the cursors are in
step. -/
inductive Runs (T : Tandem) (R : α → α → Prop) : Trial α → Trial α → Prop
  | ok {v v' : α} {c c' : Cursor} (h : R v v') (hc : T.InStep c c') : Runs T R (.ok v c) (.ok v' c')
  | error {e e' : ParseError} {c c' : Cursor} (h : T.Alike e e') (hc : T.InStep c c') :
      Runs T R (.error e c) (.error e' c')

theorem Runs.reach_le_iff {x x' y y' : Trial α} (h : T.Runs R x x') (h' : T.Runs R y y') :
    reach x ≤ reach y ↔ reach x' ≤ reach y' := by
  cases h <;> cases h'
  · next hc _ _ _ _ _ hc' => simpa [reach] using hc.index_le_iff hc'
  all_goals simp [reach]

/-- From cursors in step the two parsers run alike. -/
def Lockstep (T : Tandem) (R : α → α → Prop) (p p' : Parser α) : Prop :=
  ∀ ⦃c c' : Cursor⦄, T.InStep c c' → T.Runs R (p c) (p' c')

namespace Lockstep

theorem mono {R' : α → α → Prop} (h : T.Lockstep R p p') (hr : ∀ {v v'}, R v v' → R' v v') :
    T.Lockstep R' p p' := by
  intro c c' hc
  match p c, p' c', h hc with
  | _, _, .ok hv hd => exact .ok (hr hv) hd
  | _, _, .error he hd => exact .error he hd

theorem option_eq {p p' : Parser (Option α)} (h : T.Lockstep (Option.Rel Eq) p p') :
    T.Lockstep Eq p p' :=
  h.mono fun hv => by
    cases hv with
    | none => rfl
    | some hv => rw [hv]

theorem list_eq {p p' : Parser (List α)} (h : T.Lockstep (List.Forall₂ Eq) p p') :
    T.Lockstep Eq p p' :=
  h.mono fun hv => by rwa [List.forall₂_eq_eq_eq] at hv

theorem pure {v v' : α} (h : R v v') : T.Lockstep R (pure v) (pure v') :=
  fun _ _ hc => .ok h hc

theorem get : T.Lockstep T.InStep get get := fun _ _ hc => .ok hc hc

theorem bind (hp : T.Lockstep R p p') (hf : ∀ {v v'}, R v v' → T.Lockstep S (f v) (f' v')) :
    T.Lockstep S (p >>= f) (p' >>= f') := by
  intro c c' hc
  simp only [Bind.bind, EStateM.bind]
  match p c, p' c', hp hc with
  | _, _, .ok hv hd => exact hf hv hd
  | _, _, .error he hd => exact .error he hd

theorem map {g g' : α → β} (hp : T.Lockstep R p p')
    (hg : ∀ {v v'}, R v v' → S (g v) (g' v')) : T.Lockstep S (g <$> p) (g' <$> p') := by
  intro c c' hc
  simp only [Functor.map, EStateM.map]
  match p c, p' c', hp hc with
  | _, _, .ok hv hd => exact .ok (hg hv) hd
  | _, _, .error he hd => exact .error he hd

theorem atomic (hp : T.Lockstep R p p') : T.Lockstep R (atomic p) (atomic p') := by
  intro c c' hc
  have hr := hp hc
  simp only [Parser.atomic]
  generalize p c = trial, p' c' = trial' at hr ⊢
  cases hr with
  | ok hv hd => exact .ok hv hd
  | error he _ => exact .error he hc

theorem andThen {step : α → Except ParseError β} (hp : T.Lockstep R p p')
    (hs : ∀ {v v'}, R v v' → Answers T.Alike S (step v) (step v')) :
    T.Lockstep S (p.andThen step) (p'.andThen step) := by
  refine atomic (hp.bind fun hv => ?_)
  match step _, step _, hs hv with
  | _, _, .ok hw => exact pure hw
  | _, _, .error he => exact fun _ _ hc => .error he hc

theorem pair (hp : T.Lockstep R p p') (hr : T.Lockstep S r r') :
    T.Lockstep (fun vw vw' => R vw.1 vw'.1 ∧ S vw.2 vw'.2) (p.pair r) (p'.pair r') :=
  atomic (hp.bind fun hv => hr.bind fun hw => pure ⟨hv, hw⟩)

theorem thenSkip (hp : T.Lockstep R p p') (hr : T.Lockstep S r r') :
    T.Lockstep R (p.thenSkip r) (p'.thenSkip r') :=
  atomic (hp.bind fun hv => hr.bind fun _ => pure hv)

theorem skipThen (hp : T.Lockstep R p p') (hr : T.Lockstep S r r') :
    T.Lockstep S (p.skipThen r) (p'.skipThen r') :=
  atomic (hp.bind fun _ => hr)

theorem orElse (hp : T.Lockstep R p p') (hq : T.Lockstep R q q') :
    T.Lockstep R (p.orElse q) (p'.orElse q') := by
  intro c c' hc
  have hr := hp hc
  simp only [Parser.orElse]
  generalize p c = trial, p' c' = trial' at hr ⊢
  cases hr with
  | ok hv hd => exact .ok hv hd
  | error _ _ => exact hq hc

theorem optional (hp : T.Lockstep R p p') :
    T.Lockstep (Option.Rel R) (optional p) (optional p') :=
  orElse (hp.map .some) (pure .none)

theorem label (hp : T.Lockstep R p p') (name : String) :
    T.Lockstep R (p.label name) (p'.label name) := by
  intro c c' hc
  have hr := hp hc
  simp only [Parser.label]
  generalize p c = trial, p' c' = trial' at hr ⊢
  cases hr with
  | ok hv hd => exact .ok hv hd
  | error he hd => exact .error (T.relabel he name) hd

theorem token (expected : String) (select : Token → Option α) :
    T.Lockstep (T.Found select) (token expected select) (token expected select) := by
  intro c c' hc
  have he := hc.alike_expecting expected
  obtain ⟨k⟩ := hc
  simp only [Parser.token, Cursor.next?_forward, Cursor.peek?_forward, ← T.ahead]
  cases ht : T.first.ahead[k]? with
  | none => exact .error he (.forward k)
  | some t =>
    cases hs : select t with
    | none => simpa [hs] using .error he (.forward k)
    | some v => simpa [hs] using .ok (.at ht hs) (.forward (k + 1))

/-- Where the one token stands does not matter. -/
theorem exactly (t : Token) : T.Lockstep (fun _ _ => True) (exactly t) (exactly t) :=
  (token _ _).map fun _ => trivial

theorem identifier : T.Lockstep (fun name name' => name.value = name'.value) identifier identifier :=
  (token _ _).mono Found.value_eq

theorem endOfInput : T.Lockstep Eq endOfInput endOfInput := by
  rintro _ _ ⟨k⟩
  simp only [Parser.endOfInput, Cursor.peek?_forward, ← T.ahead]
  cases ht : T.first.ahead[k]? with
  | none => exact .ok rfl (.forward k)
  | some t => exact .error (T.reports (ht ▸ .trailing t)) (.forward k)

theorem sequence {ps : List (Parser α)} (h : ∀ p ∈ ps, T.Lockstep R p p) :
    T.Lockstep (List.Forall₂ R) (Parser.sequence ps) (Parser.sequence ps) := by
  refine atomic ?_
  induction ps with
  | nil => exact pure .nil
  | cons p ps ih =>
    rw [List.mapM_cons]
    refine (h p List.mem_cons_self).bind fun hv => ?_
    exact (ih fun q hq => h q (List.mem_cons_of_mem p hq)).bind fun hvs => pure (.cons hv hvs)

theorem trials {ps : List (Parser α)} (h : ∀ p ∈ ps, T.Lockstep R p p) (hc : T.InStep c c') :
    List.Forall₂ (T.Runs R) (trials ps c) (trials ps c') := by
  rw [Parser.trials, Parser.trials, List.forall₂_map_left_iff, List.forall₂_map_right_iff,
    List.forall₂_same]
  exact fun p hp => h p hp hc

theorem anyOf {ps : List (Parser α)} (h : ∀ p ∈ ps, T.Lockstep R p p) :
    T.Lockstep R (anyOf ps) (anyOf ps) := by
  refine atomic fun c c' hc => ?_
  have hm := maxOn?_rel Runs.reach_le_iff (trials h hc)
  match (Parser.trials ps c).maxOn? reach, (Parser.trials ps c').maxOn? reach, hm with
  | _, _, .none => exact .error (hc.alike_expecting _) hc
  | _, _, .some ht => exact ht

theorem zipIdx {xs xs' : List (Trial α)} (h : List.Forall₂ (T.Runs R) xs xs') (n : Nat) :
    List.Forall₂ (fun x x' => T.Runs R x.1 x'.1 ∧ x.2 = x'.2) (xs.zipIdx n) (xs'.zipIdx n) := by
  induction h generalizing n with
  | nil => exact .nil
  | cons hx _ ih => exact .cons ⟨hx, rfl⟩ (ih (n + 1))

theorem allOfRounds {rounds : Nat} {ps : List (Parser α)} (h : ∀ p ∈ ps, T.Lockstep Eq p p) :
    T.Lockstep Eq (allOfRounds rounds ps) (allOfRounds rounds ps) := by
  induction rounds generalizing ps with
  | zero => exact pure rfl
  | succ rounds ih =>
    intro c c' hc
    have hm := maxOn?_rel (f := fun trial => reach trial.1)
      (fun hx hy => Runs.reach_le_iff hx.1 hy.1) (zipIdx (trials h hc) 0)
    simp only [Parser.allOfRounds]
    generalize (Parser.trials ps c).zipIdx.maxOn? (fun trial => reach trial.1) = best at hm ⊢
    generalize (Parser.trials ps c').zipIdx.maxOn? (fun trial => reach trial.1) = best' at hm ⊢
    cases hm with
    | none => exact .ok rfl hc
    | @some winner winner' hw =>
      obtain ⟨trial, place⟩ := winner
      obtain ⟨trial', place'⟩ := winner'
      -- The same parser wins the round, so the same ones are left for the next.
      obtain ⟨hr, rfl : place = place'⟩ := hw
      rcases hr with ⟨rfl, hd⟩ | ⟨he, hd⟩
      · exact (ih fun p hp => h p (List.mem_of_mem_eraseIdx hp)).map (congrArg _) hd
      · exact .error he hd

/-- Each parser once, in the order that both runs choose. -/
theorem allOf {ps : List (Parser α)} (h : ∀ p ∈ ps, T.Lockstep Eq p p) :
    T.Lockstep Eq (allOf ps) (allOf ps) :=
  atomic (allOfRounds h)

theorem manyUpTo (hp : T.Lockstep R p p') :
    ∀ bound, T.Lockstep (List.Forall₂ R) (manyUpTo p bound) (manyUpTo p' bound)
  | 0 => pure .nil
  | bound + 1 => by
    refine get.bind fun hstart => (optional hp).bind fun hfound => ?_
    cases hfound with
    | none => exact pure .nil
    | some hv =>
      refine get.bind fun hcursor => ?_
      -- Both rounds read as many tokens, so that either ends both loops or neither.
      rw [hstart.readSince_eq hcursor]
      split
      · exact pure (.cons hv .nil)
      · exact (manyUpTo hp bound).bind fun hvs => pure (.cons hv hvs)

theorem many (hp : T.Lockstep R p p') : T.Lockstep (List.Forall₂ R) (many p) (many p') := by
  intro c c' hc
  rw [Parser.many, Parser.many, hc.remaining_eq]
  exact manyUpTo hp _ hc

theorem separatedUpTo (hp : T.Lockstep R p p') (hr : T.Lockstep S r r') :
    ∀ bound, T.Lockstep (List.Forall₂ R) (separatedUpTo p r bound) (separatedUpTo p' r' bound)
  | 0 => pure .nil
  | bound + 1 => by
    refine (optional hr).bind fun hfound => ?_
    cases hfound with
    | none => exact pure .nil
    | some _ =>
      refine (optional hp).bind fun hfound => ?_
      cases hfound with
      | none => exact pure .nil
      | some hv => exact (separatedUpTo hp hr bound).bind fun hvs => pure (.cons hv hvs)

theorem separated (hp : T.Lockstep R p p') (hr : T.Lockstep S r r') :
    T.Lockstep (List.Forall₂ R) (separated p r) (separated p' r') := by
  refine (optional hp).bind fun hfound => ?_
  cases hfound with
  | none => exact pure .nil
  | some hv =>
    refine get.bind fun hcursor => ?_
    rw [hcursor.remaining_eq]
    exact (separatedUpTo hp hr _).bind fun hvs => pure (.cons hv hvs)

theorem committedUpTo (hp : T.Lockstep R p p')
    (hf : ∀ {v v'}, R v v' → T.Lockstep S (f v) (f' v')) :
    ∀ bound, T.Lockstep (List.Forall₂ S) (committedUpTo p f bound) (committedUpTo p' f' bound)
  | 0 => pure .nil
  | bound + 1 => by
    refine (optional hp).bind fun hfound => ?_
    cases hfound with
    | none => exact pure .nil
    | some hv =>
      exact (hf hv).bind fun hw => (committedUpTo hp hf bound).bind fun hws => pure (.cons hw hws)

theorem committed (hp : T.Lockstep R p p') (hf : ∀ {v v'}, R v v' → T.Lockstep S (f v) (f' v')) :
    T.Lockstep (List.Forall₂ S) (committed p f) (committed p' f') := by
  refine get.bind fun hcursor => ?_
  rw [hcursor.remaining_eq]
  exact committedUpTo hp hf _

theorem nested {layer : Parser α → Parser α}
    (h : ∀ {p}, T.Lockstep R p p → T.Lockstep R (layer p) (layer p)) :
    ∀ depth, T.Lockstep R (nested layer depth) (nested layer depth)
  | 0 => anyOf (by simp)
  | depth + 1 => fun _ _ hc => h (nested h depth) hc

/-- As many tokens remain in both runs, so a rule nests as deep in the one as in the other. -/
theorem fix {layer : Parser α → Parser α}
    (h : ∀ {p}, T.Lockstep R p p → T.Lockstep R (layer p) (layer p)) :
    T.Lockstep R (fix layer) (fix layer) := by
  intro c c' hc
  rw [Parser.fix, Parser.fix, hc.remaining_eq]
  exact nested h _ hc

end Lockstep

end Tandem

end FrontEnd
