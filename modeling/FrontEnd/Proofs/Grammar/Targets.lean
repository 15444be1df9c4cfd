import FrontEnd.Proofs.Grammar.Chain

/-! Which chains have a tree: those in which every assignment stands directly behind a variable. -/
namespace FrontEnd.Grammar

variable {left right first x e : Expression} {bound : Nat} {link : Link} {links rest : List Link}
  {pending : Infix}

/-- Every assignment among the links stands directly behind a variable; `previous` is the operand
before them. -/
def Targeted : (previous : Expression) → List Link → Prop
  | _, [] => True
  | previous, link :: links =>
    (∀ op, link.op = .assign op → ∃ target, previous = .var target) ∧ Targeted link.operand links

/-- The links can follow any operand, since they do not start with an assignment. -/
def Free (links : List Link) : Prop := ∀ previous, Targeted previous links

theorem Targeted.free (h : Targeted x links) (hx : ∀ name, x ≠ .var name) : Free links := by
  intro previous
  cases links with
  | nil => trivial
  | cons link links =>
    refine ⟨fun op hop => ?_, h.2⟩
    obtain ⟨target, ht⟩ := h.1 op hop
    exact (hx target ht).elim

theorem Targeted.free_of_left (h : Targeted x (link :: links))
    (hl : link.op.associativity = .left) : Free (link :: links) := by
  refine fun previous => ⟨fun op hop => ?_, h.2⟩
  rw [hop] at hl
  cases hl

/-- Between two chains stands an operator that is no assignment. -/
theorem Targeted.append {y : Expression} {links' : List Link} (op : BinaryOp) (location : Location)
    (h : Targeted x links) (h' : Targeted y links') :
    Targeted x (links ++ ⟨.binary op, location, y⟩ :: links') := by
  induction links generalizing x with
  | nil => exact ⟨nofun, h'⟩
  | cons link links ih => exact ⟨h.1, ih h.2⟩

/-- An assignment joins a variable with anything, and every other operator anything at all. -/
theorem exists_join_iff : (∃ e, link.join left right = .ok e) ↔
    ∀ op, link.op = .assign op → ∃ target, left = .var target := by
  obtain ⟨op, location, operand⟩ := link
  cases op with
  | binary op => simp [Link.join]
  | assign op => cases left <;> simp [Link.join]

theorem ne_var_of_join (h : link.join left right = .ok e) (name : String) : e ≠ .var name := by
  obtain ⟨op, location, operand⟩ := link
  cases op with
  | binary op =>
    cases h
    simp
  | assign op =>
    obtain ⟨target, rfl⟩ := exists_join_iff.mp ⟨e, h⟩ op rfl
    cases h
    simp

/-! A climb that takes a link never ends with a variable. -/

theorem Folds.ne_var {left e : Expression} {bound : Nat} {links rest : List Link} :
    Folds left bound links e rest → (∀ name, left ≠ .var name) → ∀ name, e ≠ .var name
  | .nil, hl => hl
  | .stop _, hl => hl
  | .take _ _ hj hf, _ => hf.ne_var (ne_var_of_join hj)

theorem Folds.ne_var_of_le (h : Folds left bound (link :: links) e rest)
    (hp : link.op.precedence ≤ bound) : ∀ name, e ≠ .var name := by
  cases h with
  | stop hl => omega
  | take _ _ hj hf => exact hf.ne_var (ne_var_of_join hj)

theorem eq_of_resolve_var {name : String} (h : resolve first links = .ok (.var name)) :
    first = .var name ∧ links = [] := by
  have hf := resolve_ok_iff.mp h
  cases links with
  | nil =>
    cases hf
    exact ⟨rfl, rfl⟩
  | cons link links => exact (hf.ne_var_of_le link.op.precedence_le_loosest name rfl).elim

mutual

/-- What a climb takes was targeted if what it leaves can follow anything. -/
theorem Folds.targeted {left e : Expression} {bound : Nat} {links rest : List Link} :
    Folds left bound links e rest → Free rest → Targeted left links
  | .nil, _ => trivial
  | .stop _, hr => hr left
  | .take _ hs hj hf, hr => by
    have hmid := (hf.targeted hr).free (ne_var_of_join hj)
    exact ⟨exists_join_iff.mp ⟨_, hj⟩, hs.targeted hmid⟩

theorem Sides.targeted {pending : Infix} {right e : Expression} {links rest : List Link} :
    Sides pending right links e rest → Free rest → Targeted right links
  | .nil, _ => trivial
  | .stop _, hr => hr right
  | .take _ hf hs, hr =>
    hf.targeted ((hs.targeted hr).free (hf.ne_var_of_le (Nat.le_refl _)))

end

mutual

/-- A climb over targeted links succeeds. What it leaves over is targeted behind its result. -/
theorem Targeted.exists_folds {left : Expression} {links : List Link} (h : Targeted left links)
    (bound : Nat) : ∃ e rest, Folds left bound links e rest ∧ Targeted e rest := by
  match links with
  | [] => exact ⟨left, [], .nil, trivial⟩
  | link :: links =>
    by_cases hl : link.op.precedence ≤ bound
    · obtain ⟨right, mid, hs, hmid⟩ := Targeted.exists_sides h.2 link.op
      obtain ⟨x, hj⟩ : ∃ x, link.join left right = .ok x := exists_join_iff.mpr h.1
      have := (suffix_of_side hs.side_eq).length_le
      obtain ⟨e, rest, hf, hr⟩ := (hmid x).exists_folds bound
      exact ⟨e, rest, .take hl hs hj hf, hr⟩
    · exact ⟨left, link :: links, .stop (Nat.not_le.mp hl), h⟩
termination_by (links.length, 0)

/-- The right side of an operator ends before a link that waits, which is no assignment. -/
theorem Targeted.exists_sides {right : Expression} {links : List Link} (h : Targeted right links)
    (pending : Infix) : ∃ e rest, Sides pending right links e rest ∧ Free rest := by
  match links with
  | [] => exact ⟨right, [], .nil, fun _ => trivial⟩
  | next :: links =>
    cases hw : waitsFor next.op pending with
    | true => exact ⟨right, next :: links, .stop hw, h.free_of_left (waitsFor_iff.mp hw).1⟩
    | false =>
      obtain ⟨inner, mid, hs, hmid⟩ := Targeted.exists_sides h.2 next.op
      obtain ⟨x, hj⟩ : ∃ x, next.join right inner = .ok x := exists_join_iff.mpr h.1
      have := (suffix_of_side hs.side_eq).length_le
      obtain ⟨y, mid', hf, hy⟩ := (hmid x).exists_folds next.op.precedence
      have hf : Folds right next.op.precedence (next :: links) y mid' :=
        .take (Nat.le_refl _) hs hj hf
      have := (suffix_of_fold_cons (Nat.le_refl _) hf.fold_eq).length_le
      obtain ⟨e, rest, hs', hr⟩ := hy.exists_sides pending
      exact ⟨e, rest, .take hw hf hs', hr⟩
termination_by (links.length, 1)

end

/-- A chain has a tree exactly if every assignment in it stands directly behind a variable. -/
theorem exists_resolve_iff : (∃ e, resolve first links = .ok e) ↔ Targeted first links := by
  constructor
  · rintro ⟨e, h⟩
    exact (resolve_ok_iff.mp h).targeted fun _ => trivial
  · intro h
    obtain ⟨e, rest, hf, -⟩ := h.exists_folds Infix.loosest
    obtain rfl := rest_of_fold_loosest hf.fold_eq
    exact ⟨e, resolve_ok_iff.mpr hf⟩

end FrontEnd.Grammar
