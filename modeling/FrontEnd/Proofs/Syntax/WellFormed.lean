import FrontEnd.Syntax.Tree
import FrontEnd.Token.Lexeme

/-! The trees that can be written down: every name, number and unit in them has a spelling, and
statements stand where statements may. -/
namespace FrontEnd

/-- A text without a backtick, which backticks around it make a name. -/
def IsName (name : String) : Prop := '\x60' ∉ name.toList

def IsDigits (text : List Char) : Prop := text ≠ [] ∧ ∀ c ∈ text, c.isDigit = true

/-- Digits, or digits on both sides of a point. -/
def IsNumeral (value : String) : Prop :=
  IsDigits value.toList ∨ ∃ whole fraction, IsDigits whole ∧ IsDigits fraction ∧
    value.toList = whole ++ '.' :: fraction

/-- A letter or an underscore, and then letters, numbers and underscores. -/
def IsNameRun : List Char → Prop
  | [] => False
  | c :: rest => Lexeme.startsName c = true ∧ ∀ d ∈ rest, Lexeme.continuesName d = true

/-- A unit is a plain name, keywords not excepted. -/
def IsUnit (unit : Option String) : Prop := ∀ name ∈ unit, IsNameRun name.toList

/-- The tokens that have a spelling. -/
def Token.Legible : Token → Prop
  | .identifier name => IsName name
  | .numeric value unit => IsNumeral value ∧ IsUnit unit
  | .textual _ unit => IsUnit unit
  | .keyword _ | .operator _ | .delimiter _ => True

mutual

def Expression.WellFormed : Expression → Prop
  | .boolean _ => True
  | .numeric value unit => IsNumeral value ∧ IsUnit unit
  | .textual _ unit => IsUnit unit
  | .var name => IsName name
  | .call function arguments => IsName function ∧ Argument.AllWellFormed arguments
  | .unary _ operand => operand.WellFormed
  | .step _ target => IsName target
  | .binary _ left right => left.WellFormed ∧ right.WellFormed
  | .assign _ target value => IsName target ∧ value.WellFormed

def Argument.WellFormed : Argument → Prop
  | .positional value => value.WellFormed
  | .named name value => IsName name ∧ value.WellFormed

def Argument.AllWellFormed : List Argument → Prop
  | [] => True
  | first :: rest => first.WellFormed ∧ Argument.AllWellFormed rest

end

/-- What may follow an `else`. -/
def Statement.IsBranch : Statement → Prop
  | .block _ | .ifElse _ _ _ => True
  | _ => False

mutual

/-- An item of a block, where an expression needs its semicolon. -/
def Node.WellFormed : Node → Prop
  | .expression _ => False
  | .statement value => value.WellFormed
  | .definition value => value.WellFormed

def Node.AllWellFormed : List Node → Prop
  | [] => True
  | first :: rest => first.WellFormed ∧ Node.AllWellFormed rest

def Statement.WellFormed : Statement → Prop
  | .expression value => value.WellFormed
  | .block items => Node.AllWellFormed items
  | .ifElse condition items none => condition.WellFormed ∧ Node.AllWellFormed items
  | .ifElse condition items (some otherwise) =>
    condition.WellFormed ∧ Node.AllWellFormed items ∧ otherwise.IsBranch ∧ otherwise.WellFormed
  | .whileLoop condition body => condition.WellFormed ∧ Node.AllWellFormed body
  | .ret none => True
  | .ret (some value) => value.WellFormed

def Definition.WellFormed : Definition → Prop
  | .var name none => IsName name
  | .var name (some value) => IsName name ∧ value.WellFormed
  | .function name _ parameters none => IsName name ∧ ∀ parameter ∈ parameters, IsName parameter
  | .function name _ parameters (some body) =>
    IsName name ∧ (∀ parameter ∈ parameters, IsName parameter) ∧ Node.AllWellFormed body

end

/-- Items, the last of which may be an expression without its semicolon. -/
def WellFormedProgram : List Node → Prop
  | [] => True
  | [.expression value] => value.WellFormed
  | .expression _ :: _ :: _ => False
  | .statement value :: rest => value.WellFormed ∧ WellFormedProgram rest
  | .definition value :: rest => value.WellFormed ∧ WellFormedProgram rest

/-! All of this can be checked. -/

instance (name : String) : Decidable (IsName name) := inferInstanceAs (Decidable (_ ∉ _))

instance (text : List Char) : Decidable (IsDigits text) :=
  @instDecidableAnd _ _ inferInstance (List.decidableBAll _ text)

/-- A point can only be looked for within the text. -/
theorem isNumeral_iff (value : String) : IsNumeral value ↔ IsDigits value.toList ∨
    ∃ i, i < value.toList.length ∧ IsDigits (value.toList.take i) ∧
      IsDigits (value.toList.drop (i + 1)) ∧ value.toList[i]? = some '.' := by
  apply or_congr_right
  constructor
  · rintro ⟨whole, fraction, hw, hf, hv⟩
    refine ⟨whole.length, ?_, ?_, ?_, ?_⟩ <;> simp [hv, hw, hf]
  · rintro ⟨i, hi, hw, hf, hp⟩
    refine ⟨_, _, hw, hf, ?_⟩
    rw [List.getElem?_eq_getElem hi] at hp
    rw [← Option.some.inj hp, ← List.drop_eq_getElem_cons hi, List.take_append_drop]

instance (value : String) : Decidable (IsNumeral value) :=
  decidable_of_iff _ (isNumeral_iff value).symm

instance : (text : List Char) → Decidable (IsNameRun text)
  | [] => inferInstanceAs (Decidable False)
  | _ :: rest => @instDecidableAnd _ _ inferInstance (List.decidableBAll _ rest)

instance (unit : Option String) : Decidable (IsUnit unit) :=
  inferInstanceAs (Decidable (∀ _ ∈ unit, _))

mutual

def Expression.decideWellFormed : (e : Expression) → Decidable e.WellFormed
  | .boolean _ => inferInstanceAs (Decidable True)
  | .numeric value unit => inferInstanceAs (Decidable (IsNumeral value ∧ IsUnit unit))
  | .textual _ unit => inferInstanceAs (Decidable (IsUnit unit))
  | .var name => inferInstanceAs (Decidable (IsName name))
  | .call function arguments =>
    @instDecidableAnd (IsName function) _ inferInstance (Argument.decideAllWellFormed arguments)
  | .unary _ operand => operand.decideWellFormed
  | .step _ target => inferInstanceAs (Decidable (IsName target))
  | .binary _ left right => @instDecidableAnd _ _ left.decideWellFormed right.decideWellFormed
  | .assign _ target value =>
    @instDecidableAnd (IsName target) _ inferInstance value.decideWellFormed

def Argument.decideWellFormed : (a : Argument) → Decidable a.WellFormed
  | .positional value => value.decideWellFormed
  | .named name value => @instDecidableAnd (IsName name) _ inferInstance value.decideWellFormed

def Argument.decideAllWellFormed : (as : List Argument) → Decidable (Argument.AllWellFormed as)
  | [] => inferInstanceAs (Decidable True)
  | first :: rest =>
    @instDecidableAnd _ _ first.decideWellFormed (Argument.decideAllWellFormed rest)

end

instance : DecidablePred Expression.WellFormed := Expression.decideWellFormed

instance : DecidablePred Statement.IsBranch
  | .block _ | .ifElse _ _ _ => inferInstanceAs (Decidable True)
  | .expression _ | .whileLoop _ _ | .ret _ => inferInstanceAs (Decidable False)

mutual

def Node.decideWellFormed : (n : Node) → Decidable n.WellFormed
  | .expression _ => inferInstanceAs (Decidable False)
  | .statement value => value.decideWellFormed
  | .definition value => value.decideWellFormed

def Node.decideAllWellFormed : (ns : List Node) → Decidable (Node.AllWellFormed ns)
  | [] => inferInstanceAs (Decidable True)
  | first :: rest => @instDecidableAnd _ _ first.decideWellFormed (Node.decideAllWellFormed rest)

def Statement.decideWellFormed : (s : Statement) → Decidable s.WellFormed
  | .expression value => inferInstanceAs (Decidable value.WellFormed)
  | .block items => Node.decideAllWellFormed items
  | .ifElse condition items none =>
    @instDecidableAnd condition.WellFormed _ inferInstance (Node.decideAllWellFormed items)
  | .ifElse condition items (some otherwise) =>
    @instDecidableAnd condition.WellFormed _ inferInstance
      (@instDecidableAnd _ _ (Node.decideAllWellFormed items)
        (@instDecidableAnd otherwise.IsBranch _ inferInstance otherwise.decideWellFormed))
  | .whileLoop condition body =>
    @instDecidableAnd condition.WellFormed _ inferInstance (Node.decideAllWellFormed body)
  | .ret none => inferInstanceAs (Decidable True)
  | .ret (some value) => inferInstanceAs (Decidable value.WellFormed)

def Definition.decideWellFormed : (d : Definition) → Decidable d.WellFormed
  | .var name none => inferInstanceAs (Decidable (IsName name))
  | .var name (some value) => inferInstanceAs (Decidable (IsName name ∧ value.WellFormed))
  | .function name _ parameters none =>
    inferInstanceAs (Decidable (IsName name ∧ ∀ parameter ∈ parameters, IsName parameter))
  | .function name _ parameters (some body) =>
    @instDecidableAnd (IsName name) _ inferInstance
      (@instDecidableAnd (∀ parameter ∈ parameters, IsName parameter) _ inferInstance
        (Node.decideAllWellFormed body))

end

def decideWellFormedProgram : (nodes : List Node) → Decidable (WellFormedProgram nodes)
  | [] => inferInstanceAs (Decidable True)
  | [.expression value] => inferInstanceAs (Decidable value.WellFormed)
  | .expression _ :: _ :: _ => inferInstanceAs (Decidable False)
  | .statement value :: rest =>
    @instDecidableAnd _ _ value.decideWellFormed (decideWellFormedProgram rest)
  | .definition value :: rest =>
    @instDecidableAnd _ _ value.decideWellFormed (decideWellFormedProgram rest)

instance : DecidablePred WellFormedProgram := decideWellFormedProgram

theorem WellFormedProgram.append {items rest : List Node} (hi : Node.AllWellFormed items)
    (hr : WellFormedProgram rest) : WellFormedProgram (items ++ rest) := by
  induction items with
  | nil => exact hr
  | cons node items ih =>
    obtain ⟨hn, hi⟩ := hi
    cases node with
    | expression => exact hn.elim
    | statement => exact ⟨hn, ih hi⟩
    | definition => exact ⟨hn, ih hi⟩

end FrontEnd
