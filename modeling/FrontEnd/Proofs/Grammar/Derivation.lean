import FrontEnd.Grammar.Program

/-! The grammar as relations between tokens and trees, apart from any parser. A rule holds of the
tokens it stands for and of the tree that they are read as. -/
namespace FrontEnd.Grammar

variable {α : Type}

mutual

/-- Operands with infix operators between them. -/
inductive ExpressionOf : List Token → Expression → Prop
  | chain {ts us : List Token} {first e : Expression} {links : List Link} (hf : OperandOf ts first)
      (hl : LinksOf us links) (he : resolve first links = .ok e) : ExpressionOf (ts ++ us) e

/-- The part of a chain behind its first operand. -/
inductive LinksOf : List Token → List Link → Prop
  | nil : LinksOf [] []
  | cons {ts us : List Token} {x : Expression} {links : List Link} (op : Infix)
      (location : Location) (hx : OperandOf ts x) (hl : LinksOf us links) :
      LinksOf (.operator op.operator :: (ts ++ us)) (⟨op, location, x⟩ :: links)

/-- A leaf, or an operand behind another operator. A step applies to a variable. -/
inductive OperandOf : List Token → Expression → Prop
  | leaf {ts : List Token} {x : Expression} (hx : LeafOf ts x) : OperandOf ts x
  | behind {ts : List Token} {target : String} (op : StepOp) (hop : op.isPre = false)
      (hx : LeafOf ts (.var target)) : OperandOf (ts ++ [.operator op.operator]) (.step op target)
  | unary {ts : List Token} {x : Expression} (op : UnaryOp) (hx : OperandOf ts x) :
      OperandOf (.operator op.operator :: ts) (.unary op x)
  | before {ts : List Token} {target : String} (op : StepOp) (hop : op.isPre = true)
      (hx : OperandOf ts (.var target)) :
      OperandOf (.operator op.operator :: ts) (.step op target)

inductive LeafOf : List Token → Expression → Prop
  | boolean (value : Bool) :
      LeafOf [.keyword (if value then .trueWord else .falseWord)] (.boolean value)
  | numeric (value : String) (unit : Option String) :
      LeafOf [.numeric value unit] (.numeric value unit)
  | textual (value : String) (unit : Option String) :
      LeafOf [.textual value unit] (.textual value unit)
  | var (name : String) : LeafOf [.identifier name] (.var name)
  | call {ts : List Token} {arguments : List Argument} (function : String)
      (ha : ArgumentsOf ts arguments) :
      LeafOf (.identifier function :: .delimiter .openParen :: (ts ++ [.delimiter .closeParen]))
        (.call function arguments)
  | group {ts : List Token} {e : Expression} (he : ExpressionOf ts e) :
      LeafOf (.delimiter .openParen :: (ts ++ [.delimiter .closeParen])) e

/-- Arguments with commas between them; the last may have one behind it. -/
inductive ArgumentsOf : List Token → List Argument → Prop
  | nil : ArgumentsOf [] []
  | single {ts : List Token} {a : Argument} (ha : ArgumentOf ts a) : ArgumentsOf ts [a]
  | cons {ts us : List Token} {a : Argument} {as : List Argument} (ha : ArgumentOf ts a)
      (has : ArgumentsOf us as) : ArgumentsOf (ts ++ .delimiter .comma :: us) (a :: as)

/-- What starts like a named argument is one. -/
inductive ArgumentOf : List Token → Argument → Prop
  | named {ts : List Token} {e : Expression} (name : String) (he : ExpressionOf ts e) :
      ArgumentOf (.identifier name :: .operator .assign :: ts) (.named name e)
  | positional {ts : List Token} {e : Expression} (he : ExpressionOf ts e)
      (hn : ∀ name us, ts ≠ .identifier name :: .operator .assign :: us) :
      ArgumentOf ts (.positional e)

end

/-- A list with commas between its elements; the last may have one behind it. -/
inductive Listed (rule : List Token → α → Prop) : List Token → List α → Prop
  | nil : Listed rule [] []
  | single {ts : List Token} {v : α} (hv : rule ts v) : Listed rule ts [v]
  | cons {ts us : List Token} {v : α} {vs : List α} (hv : rule ts v) (hvs : Listed rule us vs) :
      Listed rule (ts ++ .delimiter .comma :: us) (v :: vs)

def ParameterOf (ts : List Token) (name : String) : Prop := ts = [.identifier name]

/-- Each modifier at most once, in either order. -/
inductive ModifiersOf : List Token → Modifiers → Prop
  | plain : ModifiersOf [] ⟨false, false⟩
  | exported : ModifiersOf [.keyword .exportWord] ⟨true, false⟩
  | inlined : ModifiersOf [.keyword .inlineWord] ⟨false, true⟩
  | both : ModifiersOf [.keyword .exportWord, .keyword .inlineWord] ⟨true, true⟩
  | swapped : ModifiersOf [.keyword .inlineWord, .keyword .exportWord] ⟨true, true⟩

/-- What an `if` or a `while` tests. -/
inductive ConditionOf : List Token → Expression → Prop
  | parenthesized {ts : List Token} {e : Expression} (he : ExpressionOf ts e) :
      ConditionOf (.delimiter .openParen :: (ts ++ [.delimiter .closeParen])) e

mutual

inductive ItemsOf : List Token → List Node → Prop
  | nil : ItemsOf [] []
  | cons {ts us : List Token} {item : Node} {items : List Node} (hi : ItemOf ts item)
      (his : ItemsOf us items) : ItemsOf (ts ++ us) (item :: items)

inductive ItemOf : List Token → Node → Prop
  | definition {ts : List Token} {d : Definition} (hd : DefinitionOf ts d) :
      ItemOf ts (.definition d)
  | statement {ts : List Token} {s : Statement} (hs : StatementOf ts s) : ItemOf ts (.statement s)

inductive BlockOf : List Token → List Node → Prop
  | braced {ts : List Token} {items : List Node} (hi : ItemsOf ts items) :
      BlockOf (.delimiter .openBrace :: (ts ++ [.delimiter .closeBrace])) items

inductive StatementOf : List Token → Statement → Prop
  | block {ts : List Token} {items : List Node} (hb : BlockOf ts items) :
      StatementOf ts (.block items)
  | ifElse {ts : List Token} {s : Statement} (hs : IfOf ts s) : StatementOf ts s
  | whileLoop {ts us : List Token} {c : Expression} {body : List Node} (hc : ConditionOf ts c)
      (hb : BlockOf us body) : StatementOf (.keyword .whileWord :: (ts ++ us)) (.whileLoop c body)
  | ret : StatementOf [.keyword .returnWord, .delimiter .semicolon] (.ret none)
  | retValue {ts : List Token} {e : Expression} (he : ExpressionOf ts e) :
      StatementOf (.keyword .returnWord :: (ts ++ [.delimiter .semicolon])) (.ret (some e))
  | expression {ts : List Token} {e : Expression} (he : ExpressionOf ts e) :
      StatementOf (ts ++ [.delimiter .semicolon]) (.expression e)

inductive IfOf : List Token → Statement → Prop
  | plain {ts us : List Token} {c : Expression} {items : List Node} (hc : ConditionOf ts c)
      (hb : BlockOf us items) : IfOf (.keyword .ifWord :: (ts ++ us)) (.ifElse c items none)
  | withElse {ts us ws : List Token} {c : Expression} {items : List Node} {o : Statement}
      (hc : ConditionOf ts c) (hb : BlockOf us items) (ho : ElseOf ws o) :
      IfOf (.keyword .ifWord :: (ts ++ (us ++ .keyword .elseWord :: ws)))
        (.ifElse c items (some o))

inductive ElseOf : List Token → Statement → Prop
  | nested {ts : List Token} {s : Statement} (hs : IfOf ts s) : ElseOf ts s
  | block {ts : List Token} {items : List Node} (hb : BlockOf ts items) :
      ElseOf ts (.block items)

inductive DefinitionOf : List Token → Definition → Prop
  | var (name : String) :
      DefinitionOf [.keyword .varWord, .identifier name, .delimiter .semicolon] (.var name none)
  | varValue {ts : List Token} {e : Expression} (name : String) (he : ExpressionOf ts e) :
      DefinitionOf (.keyword .varWord :: .identifier name :: .operator .assign ::
        (ts ++ [.delimiter .semicolon])) (.var name (some e))
  | function {ts us ws : List Token} {m : Modifiers} {parameters : List String}
      {body : Option (List Node)} (name : String) (hm : ModifiersOf ts m)
      (hp : Listed ParameterOf us parameters) (hb : BodyOf ws body) :
      DefinitionOf (ts ++ .keyword .fnWord :: .identifier name :: .delimiter .openParen ::
        (us ++ .delimiter .closeParen :: ws)) (.function name m parameters body)

/-- A body, or the semicolon of a function that is declared ahead. -/
inductive BodyOf : List Token → Option (List Node) → Prop
  | forward : BodyOf [.delimiter .semicolon] none
  | block {ts : List Token} {items : List Node} (hb : BlockOf ts items) : BodyOf ts (some items)

end

/-- Items, and after them perhaps an expression without its semicolon. -/
inductive ProgramOf : List Token → List Node → Prop
  | items {ts : List Token} {items : List Node} (hi : ItemsOf ts items) : ProgramOf ts items
  | tail {ts us : List Token} {items : List Node} {e : Expression} (hi : ItemsOf ts items)
      (he : ExpressionOf us e) : ProgramOf (ts ++ us) (items ++ [.expression e])

/-- The tokens that a leaf can start with. -/
def StartsLeaf : Token → Prop
  | .identifier _ | .numeric _ _ | .textual _ _ | .keyword .trueWord | .keyword .falseWord
  | .delimiter .openParen => True
  | _ => False

/-- The tokens that an expression can start with. -/
def StartsExpression : Token → Prop
  | .operator .plus | .operator .minus | .operator .bang | .operator .plusPlus
  | .operator .minusMinus => True
  | t => StartsLeaf t

def StartsStatement : Token → Prop
  | .delimiter .openBrace | .keyword .ifWord | .keyword .whileWord | .keyword .returnWord => True
  | t => StartsExpression t

def StartsDefinition : Token → Prop
  | .keyword .varWord | .keyword .fnWord | .keyword .exportWord | .keyword .inlineWord => True
  | _ => False

theorem StartsLeaf.expression {t : Token} (h : StartsLeaf t) : StartsExpression t := by
  unfold StartsExpression
  split <;> trivial

theorem StartsExpression.statement {t : Token} (h : StartsExpression t) : StartsStatement t := by
  unfold StartsStatement
  split <;> trivial

theorem LeafOf.start {ts : List Token} {e : Expression} (h : LeafOf ts e) :
    ∃ t us, ts = t :: us ∧ StartsLeaf t := by
  cases h with
  | boolean value => cases value <;> exact ⟨_, _, rfl, trivial⟩
  | _ => exact ⟨_, _, rfl, trivial⟩

theorem OperandOf.start {ts : List Token} {e : Expression} :
    OperandOf ts e → ∃ t us, ts = t :: us ∧ StartsExpression t
  | .leaf hx => by
    obtain ⟨t, us, rfl, ht⟩ := hx.start
    exact ⟨t, us, rfl, ht.expression⟩
  | .behind op _ hx => by
    obtain ⟨t, us, rfl, ht⟩ := hx.start
    exact ⟨t, us ++ _, rfl, ht.expression⟩
  | .unary op hx => ⟨_, _, rfl, by cases op <;> trivial⟩
  | .before op _ hx => ⟨_, _, rfl, by cases op <;> trivial⟩

theorem ExpressionOf.start {ts : List Token} {e : Expression} (h : ExpressionOf ts e) :
    ∃ t us, ts = t :: us ∧ StartsExpression t := by
  obtain ⟨hf, hl, he⟩ := h
  obtain ⟨t, us, rfl, ht⟩ := hf.start
  exact ⟨t, us ++ _, rfl, ht⟩

theorem StatementOf.start {ts : List Token} {s : Statement} (h : StatementOf ts s) :
    ∃ t us, ts = t :: us ∧ StartsStatement t := by
  cases h with
  | block hb =>
    cases hb
    exact ⟨_, _, rfl, trivial⟩
  | ifElse hs => cases hs <;> exact ⟨_, _, rfl, trivial⟩
  | expression he =>
    obtain ⟨t, us, rfl, ht⟩ := he.start
    exact ⟨t, us ++ _, rfl, ht.statement⟩
  | _ => exact ⟨_, _, rfl, trivial⟩

theorem DefinitionOf.start {ts : List Token} {d : Definition} (h : DefinitionOf ts d) :
    ∃ t us, ts = t :: us ∧ StartsDefinition t := by
  cases h with
  | function name hm => cases hm <;> exact ⟨_, _, rfl, trivial⟩
  | _ => exact ⟨_, _, rfl, trivial⟩

theorem ItemOf.start {ts : List Token} {item : Node} (h : ItemOf ts item) :
    ∃ t us, ts = t :: us ∧ (StartsDefinition t ∨ StartsStatement t) := by
  cases h with
  | definition hd =>
    obtain ⟨t, us, rfl, ht⟩ := hd.start
    exact ⟨t, us, rfl, Or.inl ht⟩
  | statement hs =>
    obtain ⟨t, us, rfl, ht⟩ := hs.start
    exact ⟨t, us, rfl, Or.inr ht⟩

/-- A name that no parenthesis follows is a leaf of its own. -/
theorem LeafOf.eq_name {ts us ws : List Token} {e : Expression} {t : Token} {name : String}
    (h : LeafOf ts e) (he : ts ++ us = .identifier name :: t :: ws)
    (ht : t ≠ .delimiter .openParen) : ts = [.identifier name] := by
  cases h with
  | var => simp_all
  | call => simp_all
  | _ => simp at he

theorem OperandOf.eq_name {ts us ws : List Token} {e : Expression} {name : String}
    (h : OperandOf ts e) (he : ts ++ us = .identifier name :: .operator .assign :: ws) :
    ts = [.identifier name] := by
  cases h with
  | leaf hx => exact hx.eq_name he (by simp)
  | behind op hop hx =>
    rw [List.append_assoc] at he
    obtain rfl := hx.eq_name he (by simp)
    cases op <;> cases he
  | _ => simp at he

/-- A semicolon or a closing brace, one of which every item has and no expression. -/
def EndsItem (t : Token) : Prop := t = .delimiter .semicolon ∨ t = .delimiter .closeBrace

theorem BlockOf.exists_end {ts : List Token} {items : List Node} (h : BlockOf ts items) :
    ∃ t ∈ ts, EndsItem t := by
  cases h
  exact ⟨_, by simp, Or.inr rfl⟩

theorem IfOf.exists_end {ts : List Token} {s : Statement} (h : IfOf ts s) :
    ∃ t ∈ ts, EndsItem t := by
  cases h with
  | plain hc hb =>
    obtain ⟨t, ht, he⟩ := hb.exists_end
    exact ⟨t, by simp [ht], he⟩
  | withElse hc hb ho =>
    obtain ⟨t, ht, he⟩ := hb.exists_end
    exact ⟨t, by simp [ht], he⟩

theorem StatementOf.exists_end {ts : List Token} {s : Statement} (h : StatementOf ts s) :
    ∃ t ∈ ts, EndsItem t := by
  cases h with
  | block hb => exact hb.exists_end
  | ifElse hs => exact hs.exists_end
  | whileLoop hc hb =>
    obtain ⟨t, ht, he⟩ := hb.exists_end
    exact ⟨t, by simp [ht], he⟩
  | _ => exact ⟨_, by simp, Or.inl rfl⟩

theorem DefinitionOf.exists_end {ts : List Token} {d : Definition} (h : DefinitionOf ts d) :
    ∃ t ∈ ts, EndsItem t := by
  cases h with
  | function name hm hp hb =>
    cases hb with
    | forward => exact ⟨_, by simp, Or.inl rfl⟩
    | block hb =>
      obtain ⟨t, ht, he⟩ := hb.exists_end
      exact ⟨t, by simp [ht], he⟩
  | _ => exact ⟨_, by simp, Or.inl rfl⟩

theorem ItemOf.exists_end {ts : List Token} {item : Node} (h : ItemOf ts item) :
    ∃ t ∈ ts, EndsItem t := by
  cases h with
  | definition hd => exact hd.exists_end
  | statement hs => exact hs.exists_end

mutual

theorem ExpressionOf.not_ends {ts : List Token} {e : Expression} :
    ExpressionOf ts e → ∀ t ∈ ts, ¬ EndsItem t
  | .chain hf hl _ => by
    intro t ht
    rcases List.mem_append.mp ht with ht | ht
    · exact hf.not_ends t ht
    · exact hl.not_ends t ht

theorem LinksOf.not_ends {ts : List Token} {links : List Link} :
    LinksOf ts links → ∀ t ∈ ts, ¬ EndsItem t
  | .nil => by simp
  | .cons op location hx hl => by
    have hx := hx.not_ends
    have hl := hl.not_ends
    simp only [List.mem_cons, List.mem_append]
    rintro t (rfl | ht | ht)
    · simp [EndsItem]
    · exact hx t ht
    · exact hl t ht

theorem OperandOf.not_ends {ts : List Token} {e : Expression} :
    OperandOf ts e → ∀ t ∈ ts, ¬ EndsItem t
  | .leaf hx => hx.not_ends
  | .behind op _ hx => by
    have hx := hx.not_ends
    simp only [List.mem_append, List.mem_singleton]
    rintro t (ht | rfl)
    · exact hx t ht
    · simp [EndsItem]
  | .unary op hx => by
    have hx := hx.not_ends
    simpa [EndsItem] using hx
  | .before op _ hx => by
    have hx := hx.not_ends
    simpa [EndsItem] using hx

theorem LeafOf.not_ends {ts : List Token} {e : Expression} :
    LeafOf ts e → ∀ t ∈ ts, ¬ EndsItem t
  | .boolean _ | .numeric _ _ | .textual _ _ | .var _ => by simp [EndsItem]
  | .call function ha => by
    have ha := ha.not_ends
    simp only [List.mem_cons, List.mem_append, List.not_mem_nil, or_false]
    rintro t (rfl | rfl | ht | rfl)
    · simp [EndsItem]
    · simp [EndsItem]
    · exact ha t ht
    · simp [EndsItem]
  | .group he => by
    have he := he.not_ends
    simp only [List.mem_cons, List.mem_append, List.not_mem_nil, or_false]
    rintro t (rfl | ht | rfl)
    · simp [EndsItem]
    · exact he t ht
    · simp [EndsItem]

theorem ArgumentsOf.not_ends {ts : List Token} {as : List Argument} :
    ArgumentsOf ts as → ∀ t ∈ ts, ¬ EndsItem t
  | .nil => by simp
  | .single ha => ha.not_ends
  | .cons ha has => by
    have ha := ha.not_ends
    have has := has.not_ends
    simp only [List.mem_append, List.mem_cons]
    rintro t (ht | rfl | ht)
    · exact ha t ht
    · simp [EndsItem]
    · exact has t ht

theorem ArgumentOf.not_ends {ts : List Token} {a : Argument} :
    ArgumentOf ts a → ∀ t ∈ ts, ¬ EndsItem t
  | .named name he => by
    have he := he.not_ends
    simpa [EndsItem] using he
  | .positional he _ => he.not_ends

end

end FrontEnd.Grammar
