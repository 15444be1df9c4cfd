import FrontEnd.Grammar.Chain

/-! Precedence climbing without its bound on steps, and the two facts that everything about it
follows from: a bound may be reached in stages, and a link that waits for all before it cuts the
chain. -/
namespace FrontEnd

theorem except_bind_ok_iff {ε α β : Type} {x : Except ε α} {f : α → Except ε β} {b : β} :
    (x >>= f) = .ok b ↔ ∃ a, x = .ok a ∧ f a = .ok b := by
  cases x <;> simp [bind, Except.bind]

theorem except_bind_error_iff {ε α β : Type} {x : Except ε α} {f : α → Except ε β} {e : ε} :
    (x >>= f) = .error e ↔ x = .error e ∨ ∃ a, x = .ok a ∧ f a = .error e := by
  cases x <;> simp [bind, Except.bind]

theorem except_bind_congr {ε α β : Type} {x : Except ε α} {f g : α → Except ε β}
    (h : ∀ a, x = .ok a → f a = g a) : (x >>= f) = x >>= g := by
  cases x with
  | error => rfl
  | ok a => exact h a rfl

theorem Infix.precedence_lt_loosest {op : Infix} (h : op.associativity = .left) :
    op.precedence < loosest := by
  rcases op with op | op
  · cases op <;> decide
  · cases h

theorem Infix.eq_assign {op : Infix} (h : op.operator = .assign) : op = .assign .assign := by
  have hop := ofOperator?_operator op
  rw [h] at hop
  exact (Option.some.inj hop).symm

namespace Grammar

variable {left right e : Expression} {bound fuel m k : Nat} {link next : Link}
  {links rest : List Link} {pending : Infix}

theorem waitsFor_iff {next pending : Infix} : waitsFor next pending = true ↔
    next.associativity = .left ∧ pending.precedence ≤ next.precedence := by
  simp [waitsFor]

/-- What a climb leaves over is the end of what it was given, shorter if it could take a link. -/
theorem suffix_of_climb_absorb (fuel : Nat) :
    (∀ left bound links e rest, climb fuel left bound links = .ok (e, rest) → rest <:+ links) ∧
    ∀ pending right links e rest, absorb fuel pending right links = .ok (e, rest) →
      rest <:+ links := by
  induction fuel with
  | zero => constructor <;> intros <;> simp_all [climb, absorb]
  | succ fuel ih =>
    obtain ⟨ihc, iha⟩ := ih
    constructor
    · intro left bound links e rest h
      cases links with
      | nil => simp_all [climb]
      | cons link links =>
        rw [climb] at h
        split at h
        · obtain ⟨⟨right, mid⟩, ha, h⟩ := except_bind_ok_iff.mp h
          obtain ⟨x, -, hc⟩ := except_bind_ok_iff.mp h
          exact ((ihc _ _ _ _ _ hc).trans (iha _ _ _ _ _ ha)).trans (List.suffix_cons link links)
        · cases h
          exact List.suffix_rfl
    · intro pending right links e rest h
      cases links with
      | nil => simp_all [absorb]
      | cons next links =>
        rw [absorb] at h
        split at h
        · cases h
          exact List.suffix_rfl
        · obtain ⟨⟨x, mid⟩, hc, ha⟩ := except_bind_ok_iff.mp h
          exact (iha _ _ _ _ _ ha).trans (ihc _ _ _ _ _ hc)

theorem suffix_of_climb (h : climb fuel left bound links = .ok (e, rest)) : rest <:+ links :=
  (suffix_of_climb_absorb fuel).1 _ _ _ _ _ h

theorem suffix_of_absorb (h : absorb fuel pending right links = .ok (e, rest)) : rest <:+ links :=
  (suffix_of_climb_absorb fuel).2 _ _ _ _ _ h

theorem suffix_of_climb_cons (hp : link.op.precedence ≤ bound)
    (h : climb (fuel + 1) left bound (link :: links) = .ok (e, rest)) : rest <:+ links := by
  rw [climb, if_pos hp] at h
  obtain ⟨⟨right, mid⟩, ha, h⟩ := except_bind_ok_iff.mp h
  obtain ⟨x, -, hc⟩ := except_bind_ok_iff.mp h
  exact (suffix_of_climb hc).trans (suffix_of_absorb ha)

/-- Twice the number of links is fuel enough, and more changes nothing. -/
theorem climb_absorb_fuel (m : Nat) : ∀ (k : Nat) (links : List Link),
    (2 * links.length ≤ m + 1 → 2 * links.length ≤ k + 1 →
      ∀ left bound, climb m left bound links = climb k left bound links) ∧
    (2 * links.length ≤ m → 2 * links.length ≤ k →
      ∀ pending right, absorb m pending right links = absorb k pending right links) := by
  induction m with
  | zero =>
    intro k links
    cases links with
    | nil => cases k <;> simp [climb, absorb]
    | cons =>
      simp only [List.length_cons]
      constructor <;> intro <;> omega
  | succ m ih =>
    intro k links
    cases links with
    | nil => cases k <;> simp [climb, absorb]
    | cons link links =>
      cases k with
      | zero =>
        simp only [List.length_cons]
        constructor <;> intro <;> omega
      | succ k =>
        simp only [List.length_cons]
        constructor
        · intro hm hk left bound
          rw [climb, climb, (ih k links).2 (by omega) (by omega)]
          split
          · refine except_bind_congr fun ⟨right, rest⟩ ha => except_bind_congr fun x _ => ?_
            have := (suffix_of_absorb ha).length_le
            exact (ih k rest).1 (by omega) (by omega) x bound
          · rfl
        · intro hm hk pending right
          rw [absorb, absorb]
          split
          · rfl
          · rw [(ih k (link :: links)).1 (by simpa using by omega) (by simpa using by omega)]
            refine except_bind_congr fun ⟨x, rest⟩ hc => ?_
            obtain ⟨k, rfl⟩ : ∃ i, k = i + 1 := ⟨k - 1, by omega⟩
            have := (suffix_of_climb_cons (Nat.le_refl _) hc).length_le
            exact (ih (k + 1) rest).2 (by omega) (by omega) pending x

/-- `climb` with fuel enough. -/
def fold (left : Expression) (bound : Nat) (links : List Link) :
    Except ParseError (Expression × List Link) :=
  climb (2 * links.length + 1) left bound links

/-- `absorb` with fuel enough. -/
def side (pending : Infix) (right : Expression) (links : List Link) :
    Except ParseError (Expression × List Link) :=
  absorb (2 * links.length + 1) pending right links

theorem resolve_eq (first : Expression) (links : List Link) :
    resolve first links = Prod.fst <$> fold first Infix.loosest links := rfl

@[simp] theorem fold_nil : fold left bound [] = .ok (left, []) := rfl

theorem fold_cons_of_lt (h : bound < link.op.precedence) :
    fold left bound (link :: links) = .ok (left, link :: links) := by
  rw [fold, climb, if_neg (Nat.not_le.mpr h)]

theorem fold_cons_of_le (h : link.op.precedence ≤ bound) :
    fold left bound (link :: links) = (do
      let (right, rest) ← side link.op link.operand links
      fold (← link.join left right) bound rest) := by
  rw [fold, climb, if_pos h, side, List.length_cons,
    (climb_absorb_fuel _ (2 * links.length + 1) links).2 (by omega) (by omega)]
  refine except_bind_congr fun ⟨right, rest⟩ ha => except_bind_congr fun x _ => ?_
  have := (suffix_of_absorb ha).length_le
  exact (climb_absorb_fuel _ _ rest).1 (by omega) (by omega) x bound

theorem side_cons_of_waits (h : waitsFor next.op pending = true) :
    side pending right (next :: links) = .ok (right, next :: links) := by
  rw [side, absorb, if_pos h]

theorem side_cons (h : waitsFor next.op pending = false) :
    side pending right (next :: links) = (do
      let (x, rest) ← fold right next.op.precedence (next :: links)
      side pending x rest) := by
  rw [side, absorb, if_neg (by simp [h]), fold, (climb_absorb_fuel _
    (2 * (next :: links).length + 1) (next :: links)).1 (by omega) (by omega)]
  refine except_bind_congr fun ⟨x, rest⟩ hc => ?_
  have := (suffix_of_climb hc).length_le
  exact (climb_absorb_fuel _ _ rest).2 (by omega) (by omega) pending x

theorem suffix_of_fold_cons (hp : link.op.precedence ≤ bound)
    (h : fold left bound (link :: links) = .ok (e, rest)) : rest <:+ links :=
  suffix_of_climb_cons hp h

theorem suffix_of_side (h : side pending right links = .ok (e, rest)) : rest <:+ links :=
  suffix_of_absorb h

/-- A climb to one bound goes on from a climb to a tighter one. -/
theorem fold_staged {tighter : Nat} (h : tighter ≤ bound) (left : Expression)
    (links : List Link) : fold left bound links = (do
      let (x, rest) ← fold left tighter links
      fold x bound rest) := by
  match links with
  | [] => rfl
  | link :: links =>
    by_cases hl : link.op.precedence ≤ tighter
    · rw [fold_cons_of_le hl, fold_cons_of_le (Nat.le_trans hl h)]
      simp only [bind_assoc]
      refine except_bind_congr fun ⟨right, rest⟩ ha => except_bind_congr fun x _ => ?_
      have := (suffix_of_side ha).length_le
      exact fold_staged h x rest
    · rw [fold_cons_of_lt (Nat.not_le.mp hl)]
      rfl
termination_by links.length

/-- At the loosest bound no link is left over. -/
theorem rest_of_fold_loosest {left e : Expression} {links rest : List Link}
    (h : fold left Infix.loosest links = .ok (e, rest)) : rest = [] := by
  match links with
  | [] =>
    cases h
    rfl
  | link :: links =>
    rw [fold_cons_of_le link.op.precedence_le_loosest] at h
    obtain ⟨⟨right, mid⟩, ha, h⟩ := except_bind_ok_iff.mp h
    obtain ⟨x, -, hc⟩ := except_bind_ok_iff.mp h
    have := (suffix_of_side ha).length_le
    exact rest_of_fold_loosest hc
termination_by links.length

/-- Links none of which wait for `pending` are all folded onto its right side. -/
theorem side_eq_fold {links : List Link} (h : ∀ link ∈ links, waitsFor link.op pending = false)
    (right : Expression) : side pending right links = fold right Infix.loosest links := by
  match links with
  | [] => rfl
  | next :: links =>
    rw [side_cons (h next List.mem_cons_self),
      fold_staged (Infix.precedence_le_loosest next.op)]
    refine except_bind_congr fun ⟨x, rest⟩ hc => ?_
    have hs := suffix_of_fold_cons (Nat.le_refl _) hc
    have := hs.length_le
    exact side_eq_fold (fun link hl => h link (List.mem_cons_of_mem next (hs.subset hl))) x
termination_by links.length

theorem waitsFor_assign (next : Infix) (op : AssignOp) : waitsFor next (.assign op) = false := by
  cases hw : waitsFor next (.assign op) with
  | false => rfl
  | true =>
    obtain ⟨hl, hp⟩ := waitsFor_iff.mp hw
    exact (Nat.not_lt.mpr hp (Infix.precedence_lt_loosest hl)).elim

/-- Nothing waits for an assignment: the rest of the chain is its value. -/
theorem side_assign (op : AssignOp) (right : Expression) (links : List Link) :
    side (.assign op) right links = fold right Infix.loosest links :=
  side_eq_fold (fun link _ => waitsFor_assign link.op op) right

/-- So a chain behind an assignment is resolved as it is by itself. -/
theorem resolve_assign_ok_iff {op : AssignOp} {location : Location} {x : Expression} :
    resolve left (⟨.assign op, location, x⟩ :: links) = .ok e ↔
      ∃ target v, left = .var target ∧ e = .assign op target v ∧ resolve x links = .ok v := by
  rw [resolve_eq, resolve_eq, fold_cons_of_le (Infix.precedence_le_loosest _), side_assign]
  cases h : fold x Infix.loosest links with
  | error => simp [bind, Except.bind, Functor.map, Except.map]
  | ok folded =>
    obtain ⟨v, rest⟩ := folded
    obtain rfl := rest_of_fold_loosest h
    cases left <;> simp [bind, Except.bind, Functor.map, Except.map, Link.join, eq_comm]

/-- Of two links before `next`, the one that does not wait for the other binds tighter than
`next`. -/
theorem precedence_lt_of_waits {link next pending : Infix} (hw : waitsFor next link = true)
    (hp : waitsFor next pending = true) (hl : waitsFor link pending = false) :
    link.precedence < next.precedence := by
  obtain ⟨hn, hle⟩ := waitsFor_iff.mp hw
  obtain ⟨-, hpn⟩ := waitsFor_iff.mp hp
  have hlt := Infix.precedence_lt_loosest hn
  cases link with
  | binary op =>
    have hnp : ¬ pending.precedence ≤ (Infix.binary op).precedence := by
      intro hle
      simp [waitsFor_iff.mpr ⟨rfl, hle⟩] at hl
    omega
  | assign op => exact (Nat.not_lt.mpr hle hlt).elim

mutual

/-- A link that waits for all links before it ends a climb over them, or is what it comes to
next. -/
theorem fold_append {left e : Expression} {bound : Nat} {links rest : List Link} {next : Link}
    (hw : ∀ link ∈ links, waitsFor next.op link.op = true)
    (h : fold left bound links = .ok (e, rest)) (tail : List Link) :
    fold left bound (links ++ next :: tail) =
      if rest = [] then fold e bound (next :: tail) else .ok (e, rest ++ next :: tail) := by
  match links with
  | [] =>
    cases h
    rfl
  | link :: links =>
    by_cases hl : link.op.precedence ≤ bound
    · rw [fold_cons_of_le hl] at h
      obtain ⟨⟨right, mid⟩, ha, h⟩ := except_bind_ok_iff.mp h
      obtain ⟨x, hj, hc⟩ := except_bind_ok_iff.mp h
      have hs := suffix_of_side ha
      have := hs.length_le
      have hw' : ∀ link ∈ links, waitsFor next.op link.op = true := fun l hl =>
        hw l (List.mem_cons_of_mem link hl)
      rw [List.cons_append, fold_cons_of_le hl,
        side_append hw' (hw link List.mem_cons_self) ha tail]
      exact (congrArg (· >>= fun x => fold x bound (mid ++ next :: tail)) hj).trans
        (fold_append (fun l hl => hw' l (hs.subset hl)) hc tail)
    · rw [fold_cons_of_lt (Nat.not_le.mp hl)] at h
      cases h
      simp [fold_cons_of_lt (Nat.not_le.mp hl)]
termination_by (links.length, 0)

theorem side_append {right e : Expression} {pending : Infix} {links rest : List Link} {next : Link}
    (hw : ∀ link ∈ links, waitsFor next.op link.op = true)
    (hp : waitsFor next.op pending = true)
    (h : side pending right links = .ok (e, rest)) (tail : List Link) :
    side pending right (links ++ next :: tail) = .ok (e, rest ++ next :: tail) := by
  match links with
  | [] =>
    cases h
    exact side_cons_of_waits hp
  | link :: links =>
    cases hl : waitsFor link.op pending with
    | true =>
      rw [side_cons_of_waits hl] at h
      cases h
      exact side_cons_of_waits hl
    | false =>
      rw [side_cons hl] at h
      obtain ⟨⟨x, mid⟩, hc, ha⟩ := except_bind_ok_iff.mp h
      have hs := suffix_of_fold_cons (Nat.le_refl _) hc
      rw [List.cons_append, side_cons hl, ← List.cons_append, fold_append hw hc tail]
      cases mid with
      | nil =>
        cases ha
        have hlt := precedence_lt_of_waits (hw link List.mem_cons_self) hp hl
        simp only [if_true, fold_cons_of_lt hlt, List.nil_append]
        exact side_cons_of_waits hp
      | cons first mid =>
        have : mid.length + 1 ≤ links.length := hs.length_le
        exact side_append (fun l hl => hw l (List.mem_cons_of_mem link (hs.subset hl))) hp ha tail
termination_by (links.length, 1)

end

mutual

/-- A climb that succeeds, link by link. -/
inductive Folds : Expression → Nat → List Link → Expression → List Link → Prop
  | nil {left : Expression} {bound : Nat} : Folds left bound [] left []
  | stop {left : Expression} {bound : Nat} {link : Link} {links : List Link}
      (hl : bound < link.op.precedence) : Folds left bound (link :: links) left (link :: links)
  | take {left right x e : Expression} {bound : Nat} {link : Link} {links mid rest : List Link}
      (hl : link.op.precedence ≤ bound) (hs : Sides link.op link.operand links right mid)
      (hj : link.join left right = .ok x) (hf : Folds x bound mid e rest) :
      Folds left bound (link :: links) e rest

/-- The links that the right side of an operator takes. -/
inductive Sides : Infix → Expression → List Link → Expression → List Link → Prop
  | nil {pending : Infix} {right : Expression} : Sides pending right [] right []
  | stop {pending : Infix} {right : Expression} {next : Link} {links : List Link}
      (hw : waitsFor next.op pending = true) :
      Sides pending right (next :: links) right (next :: links)
  | take {pending : Infix} {right x e : Expression} {next : Link} {links mid rest : List Link}
      (hw : waitsFor next.op pending = false)
      (hf : Folds right next.op.precedence (next :: links) x mid)
      (hs : Sides pending x mid e rest) : Sides pending right (next :: links) e rest

end

mutual

theorem folds_of_fold {left e : Expression} {bound : Nat} {links rest : List Link}
    (h : fold left bound links = .ok (e, rest)) : Folds left bound links e rest := by
  match links with
  | [] =>
    cases h
    exact .nil
  | link :: links =>
    by_cases hl : link.op.precedence ≤ bound
    · rw [fold_cons_of_le hl] at h
      obtain ⟨⟨right, mid⟩, ha, h⟩ := except_bind_ok_iff.mp h
      obtain ⟨x, hj, hc⟩ := except_bind_ok_iff.mp h
      have := (suffix_of_side ha).length_le
      exact .take hl (sides_of_side ha) hj (folds_of_fold hc)
    · rw [fold_cons_of_lt (Nat.not_le.mp hl)] at h
      cases h
      exact .stop (Nat.not_le.mp hl)
termination_by (links.length, 0)

theorem sides_of_side {pending : Infix} {right e : Expression} {links rest : List Link}
    (h : side pending right links = .ok (e, rest)) : Sides pending right links e rest := by
  match links with
  | [] =>
    cases h
    exact .nil
  | next :: links =>
    cases hw : waitsFor next.op pending with
    | true =>
      rw [side_cons_of_waits hw] at h
      cases h
      exact .stop hw
    | false =>
      rw [side_cons hw] at h
      obtain ⟨⟨x, mid⟩, hc, ha⟩ := except_bind_ok_iff.mp h
      have := (suffix_of_fold_cons (Nat.le_refl _) hc).length_le
      exact .take hw (folds_of_fold hc) (sides_of_side ha)
termination_by (links.length, 1)

end

mutual

theorem Folds.fold_eq {left e : Expression} {bound : Nat} {links rest : List Link} :
    Folds left bound links e rest → fold left bound links = .ok (e, rest)
  | .nil => rfl
  | .stop hl => fold_cons_of_lt hl
  | .take hl hs hj hf => by
    rw [fold_cons_of_le hl, except_bind_ok_iff]
    exact ⟨_, hs.side_eq, except_bind_ok_iff.mpr ⟨_, hj, hf.fold_eq⟩⟩

theorem Sides.side_eq {pending : Infix} {right e : Expression} {links rest : List Link} :
    Sides pending right links e rest → side pending right links = .ok (e, rest)
  | .nil => rfl
  | .stop hw => side_cons_of_waits hw
  | .take hw hf hs => by
    rw [side_cons hw, except_bind_ok_iff]
    exact ⟨_, hf.fold_eq, hs.side_eq⟩

end

theorem resolve_ok_iff {first : Expression} :
    resolve first links = .ok e ↔ Folds first Infix.loosest links e [] := by
  rw [resolve_eq]
  constructor
  · intro h
    cases hf : fold first Infix.loosest links with
    | error => simp [hf, Functor.map, Except.map] at h
    | ok r =>
      obtain ⟨x, rest⟩ := r
      obtain rfl : x = e := by simpa [hf, Functor.map, Except.map] using h
      obtain rfl := rest_of_fold_loosest hf
      exact folds_of_fold hf
  · intro h
    rw [h.fold_eq]
    rfl

/-! Where the operators stand plays no part in a success. -/

/-- A link without its location. -/
def Link.bare (link : Link) : Infix × Expression := (link.op, link.operand)

theorem Link.join_moved (location : Location) (hj : link.join left right = .ok e) :
    (⟨link.op, location, link.operand⟩ : Link).join left right = .ok e := by
  obtain ⟨op, _, x⟩ := link
  cases op with
  | binary => exact hj
  | assign => cases left <;> first | exact hj | cases hj

theorem exists_cons_of_bare {links' : List Link}
    (h : (link :: links).map Link.bare = links'.map Link.bare) :
    ∃ location tail, links' = ⟨link.op, location, link.operand⟩ :: tail ∧
      links.map Link.bare = tail.map Link.bare := by
  cases links' with
  | nil => simp at h
  | cons link' tail =>
    obtain ⟨op', location', x'⟩ := link'
    simp only [List.map_cons, List.cons.injEq, Link.bare, Prod.mk.injEq] at h
    obtain ⟨⟨rfl, rfl⟩, ht⟩ := h
    exact ⟨location', tail, rfl, ht⟩

mutual

theorem Folds.of_bare {left e : Expression} {bound : Nat} {links rest links' : List Link} :
    Folds left bound links e rest → links.map Link.bare = links'.map Link.bare →
      ∃ rest', Folds left bound links' e rest' ∧ rest.map Link.bare = rest'.map Link.bare
  | .nil, hb => by
    obtain rfl : links' = [] := by simpa using hb.symm
    exact ⟨[], .nil, rfl⟩
  | .stop hl, hb => by
    obtain ⟨location, tail, rfl, ht⟩ := exists_cons_of_bare hb
    exact ⟨_, .stop hl, hb⟩
  | .take hl hs hj hf, hb => by
    obtain ⟨location, tail, rfl, ht⟩ := exists_cons_of_bare hb
    obtain ⟨mid', hs', hm⟩ := hs.of_bare ht
    obtain ⟨rest', hf', hr⟩ := hf.of_bare hm
    exact ⟨rest', .take hl hs' (Link.join_moved location hj) hf', hr⟩

theorem Sides.of_bare {pending : Infix} {right e : Expression} {links rest links' : List Link} :
    Sides pending right links e rest → links.map Link.bare = links'.map Link.bare →
      ∃ rest', Sides pending right links' e rest' ∧ rest.map Link.bare = rest'.map Link.bare
  | .nil, hb => by
    obtain rfl : links' = [] := by simpa using hb.symm
    exact ⟨[], .nil, rfl⟩
  | .stop hw, hb => by
    obtain ⟨location, tail, rfl, ht⟩ := exists_cons_of_bare hb
    exact ⟨_, .stop hw, hb⟩
  | .take hw hf hs, hb => by
    obtain ⟨mid', hf', hm⟩ := hf.of_bare hb
    obtain ⟨rest', hs', hr⟩ := hs.of_bare hm
    obtain ⟨location, tail, rfl, ht⟩ := exists_cons_of_bare hb
    exact ⟨rest', .take hw hf' hs', hr⟩

end

theorem resolve_of_bare {links' : List Link} (hb : links.map Link.bare = links'.map Link.bare)
    {first : Expression} (h : resolve first links = .ok e) : resolve first links' = .ok e := by
  obtain ⟨rest', hf, hr⟩ := (resolve_ok_iff.mp h).of_bare hb
  obtain rfl : rest' = [] := by simpa using hr.symm
  exact resolve_ok_iff.mpr hf

end Grammar

end FrontEnd
