import FrontEnd.Proofs.Printer.Tokens
import FrontEnd.Proofs.Token.Stream

/-! The printed text of a tree spells the tokens of the tree. -/
namespace FrontEnd

open Printer

variable {t : Token} {c : Char} {text : String} {rest : List Char} {ts us : List Token}

/-- Whether the character could be taken for more of the token before it. -/
def Token.goesOn (c : Char) : Bool :=
  Lexeme.continuesName c || c == '.' || Operator.isSymbol c

/-- A place where every token ends. -/
def Ends (rest : List Char) : Prop := NotNext Token.goesOn rest

theorem Ends.cons (hc : Token.goesOn c = false) (rest : List Char) : Ends (c :: rest) := by
  rintro d ⟨⟩
  exact hc

theorem Ends.blank (rest : List Char) : Ends (' ' :: rest) := .cons (by decide) rest

theorem Ends.newline (rest : List Char) : Ends ('\n' :: rest) := .cons (by decide) rest

theorem Ends.openParen (rest : List Char) : Ends ('(' :: rest) := .cons (by decide) rest

theorem Ends.closeParen (rest : List Char) : Ends (')' :: rest) := .cons (by decide) rest

theorem Ends.comma (rest : List Char) : Ends (',' :: rest) := .cons (by decide) rest

theorem Ends.semicolon (rest : List Char) : Ends (';' :: rest) := .cons (by decide) rest

theorem Ends.notNext_isSymbol (h : Ends rest) : NotNext Operator.isSymbol rest :=
  NotNext.mono h fun _ hc => (Bool.or_eq_false_iff.mp hc).2

theorem Ends.apart (h : Ends rest) (t : Token) : t.Apart rest := by
  cases t with
  | delimiter => trivial
  | operator => exact h.notNext_isSymbol
  | _ => exact NotNext.mono h fun _ hc => (Bool.or_eq_false_iff.mp hc).1

/-! The marks and blanks around the parts of a tree. -/

namespace Spelled

theorem space (h : Spelled rest ts) : Spelled (' ' :: rest) ts := .blank (by decide) h

theorem newline (h : Spelled rest ts) : Spelled ('\n' :: rest) ts := .blank (by decide) h

theorem openParen (h : Spelled rest ts) : Spelled ('(' :: rest) (.delimiter .openParen :: ts) :=
  .token (t := .delimiter .openParen) trivial trivial h

theorem closeParen (h : Spelled rest ts) : Spelled (')' :: rest) (.delimiter .closeParen :: ts) :=
  .token (t := .delimiter .closeParen) trivial trivial h

theorem openBrace (h : Spelled rest ts) : Spelled ('\x7b' :: rest) (.delimiter .openBrace :: ts) :=
  .token (t := .delimiter .openBrace) trivial trivial h

theorem closeBrace (h : Spelled rest ts) :
    Spelled ('\x7d' :: rest) (.delimiter .closeBrace :: ts) :=
  .token (t := .delimiter .closeBrace) trivial trivial h

theorem comma (h : Spelled rest ts) : Spelled (',' :: rest) (.delimiter .comma :: ts) :=
  .token (t := .delimiter .comma) trivial trivial h

theorem semicolon (h : Spelled rest ts) : Spelled (';' :: rest) (.delimiter .semicolon :: ts) :=
  .token (t := .delimiter .semicolon) trivial trivial h

theorem keyword (word : Keyword) (hr : Ends rest) (h : Spelled rest ts) :
    Spelled (word.text.toList ++ rest) (.keyword word :: ts) :=
  .token (t := .keyword word) trivial (hr.apart _) h

theorem operator (symbol : Operator) (hr : NotNext Operator.isSymbol rest) (h : Spelled rest ts) :
    Spelled (symbol.text.toList ++ rest) (.operator symbol :: ts) :=
  .token (t := .operator symbol) trivial hr h

theorem identifier {name : String} (hn : IsName name) (hr : Ends rest) (h : Spelled rest ts) :
    Spelled ((Printer.name name).toList ++ rest) (.identifier name :: ts) :=
  .token (t := .identifier name) hn (hr.apart _) h

end Spelled

/-- The text spells the tokens in front of any place where tokens end. -/
def Prints (text : String) (ts : List Token) : Prop :=
  ∀ ⦃rest : List Char⦄ ⦃us : List Token⦄, Ends rest → Spelled rest us →
    Spelled (text.toList ++ rest) (ts ++ us)

theorem Prints.spelled (h : Prints text ts) : Spelled text.toList ts := by
  have hn : Ends [] := by simp [Ends, NotNext]
  simpa using h hn .nil

theorem Prints.parenthesized (h : Prints text ts) (needed : Bool) :
    Prints (parenthesized needed text) (grouped needed ts) := by
  cases needed with
  | false => exact h
  | true =>
    intro rest us hr hs
    have ho := (h (.closeParen _) hs.closeParen).openParen
    simpa [Printer.parenthesized, grouped] using ho

theorem Prints.around {other : String} (h : Prints text ts) (h' : Prints other us) (op : Infix) :
    Prints (around op text other) (ts ++ .operator op.operator :: us) := by
  intro rest ws hr hs
  have ho := (h' hr hs).space.operator op.operator (Ends.blank _).notNext_isSymbol
  simpa [Printer.around, Infix.symbol] using h (.blank _) ho.space

theorem Prints.listed {α : Type} {f : α → String} {g : α → List Token} :
    {xs : List α} → (∀ x ∈ xs, Prints (f x) (g x)) →
      Prints (", ".intercalate (xs.map f)) (listed (xs.map g))
  | [], _ => fun _ _ _ hs => by simpa [Printer.listed] using hs
  | [x], h => by simpa [Printer.listed] using h x List.mem_cons_self
  | x :: y :: xs, h => by
    intro rest us hr hs
    have hrest := Prints.listed (fun z hz => h z (List.mem_cons_of_mem x hz)) hr hs
    have hx := h x List.mem_cons_self (.comma _) hrest.space.comma
    simpa [Printer.listed] using hx

theorem Printer.argumentTexts_eq (as : List Argument) : argumentTexts as = as.map argument := by
  induction as with
  | nil => rfl
  | cons a as ih => rw [argumentTexts, ih, List.map_cons]

theorem Argument.listTokens_eq (as : List Argument) :
    Argument.listTokens as = as.map Argument.tokens := by
  induction as with
  | nil => rfl
  | cons a as ih => rw [Argument.listTokens, ih, List.map_cons]

/-- What needs no parentheses behind a unary operator does not start with an operator. -/
theorem Expression.opening_of_unary {e : Expression} (h : e.WellFormed)
    (hn : unaryNeeds e = false) : Token.Opening (Printer.expression e).toList := by
  cases e with
  | boolean value => cases value <;> exact ⟨_, _, rfl, by decide⟩
  | numeric value unit =>
    simpa [Printer.expression] using (Token.opening_numeral h.1).append (unit.getD "").toList
  | textual value unit =>
    simpa [Printer.expression] using (Token.opening_text value).append (unit.getD "").toList
  | var name => exact Token.opening_name name
  | call function arguments =>
    simp only [Printer.expression, String.toList_append, List.append_assoc]
    exact (Token.opening_name function).append _
  | step op target =>
    have hp : op.isPre = false := hn
    simpa [Printer.expression, hp] using (Token.opening_name target).append op.symbol.toList
  | unary | binary | assign => cases hn

theorem Expression.opening_grouped {e : Expression} (h : e.WellFormed) :
    Token.Opening (parenthesized (unaryNeeds e) (Printer.expression e)).toList := by
  cases hn : unaryNeeds e with
  | true => exact ⟨'(', (Printer.expression e).toList ++ [')'], by simp [parenthesized], by decide⟩
  | false => exact opening_of_unary h hn

/-- A word ends where an operator starts. -/
theorem apart_of_operator (symbol : Operator) (name : String) :
    (Token.identifier name).Apart (symbol.text.toList ++ rest) := by
  cases symbol <;>
  · rintro d ⟨⟩
    decide

mutual

theorem Expression.prints : (e : Expression) → e.WellFormed → Prints (Printer.expression e) e.tokens
  | .boolean value, _ => by
    intro rest us hr hs
    have h := hs.keyword (if value then .trueWord else .falseWord) hr
    cases value <;> exact h
  | .numeric value unit, h => by
    intro rest us hr hs
    have h := Spelled.token (t := .numeric value unit) h (hr.apart _) hs
    simpa [Printer.expression, Expression.tokens, Token.spelling] using h
  | .textual value unit, h => by
    intro rest us hr hs
    have h := Spelled.token (t := .textual value unit) h (hr.apart _) hs
    simpa [Printer.expression, Expression.tokens, Token.spelling] using h
  | .var name, h => fun rest us hr hs => hs.identifier h hr
  | .call function arguments, h => by
    intro rest us hr hs
    have ha := Prints.listed (Argument.allPrint arguments h.2) (.closeParen _) hs.closeParen
    have hf := ha.openParen.identifier h.1 (.openParen _)
    simpa [Printer.expression, Expression.tokens, argumentTexts_eq, Argument.listTokens_eq] using hf
  | .unary op operand, h => by
    intro rest us hr hs
    have hx := (operand.prints h).parenthesized (unaryNeeds operand) hr hs
    have hn := ((Expression.opening_grouped (e := operand) h).append rest).notNext_isSymbol
    have ho := hx.operator op.operator hn
    simpa [Printer.expression, Expression.tokens, UnaryOp.symbol] using ho
  | .step op target, h => by
    intro rest us hr hs
    cases hp : op.isPre with
    | true =>
      have hn := ((Token.opening_name target).append rest).notNext_isSymbol
      have ho := (hs.identifier h hr).operator op.operator hn
      simpa [Printer.expression, Expression.tokens, StepOp.symbol, hp] using ho
    | false =>
      have ho := hs.operator op.operator hr.notNext_isSymbol
      have hn := Spelled.token (t := .identifier target) h (apart_of_operator _ _) ho
      simpa [Printer.expression, Expression.tokens, StepOp.symbol, Token.spelling, hp] using hn
  | .binary op left right, h =>
    ((left.prints h.1).parenthesized _).around ((right.prints h.2).parenthesized _) (.binary op)
  | .assign op target value, h => by
    have ht : Prints (name target) [.identifier target] := fun _ _ hr hs => hs.identifier h.1 hr
    exact ht.around ((value.prints h.2).parenthesized _) (.assign op)

theorem Argument.prints : (a : Argument) → a.WellFormed → Prints (Printer.argument a) a.tokens
  | .positional value, h => (value.prints h).parenthesized (argumentNeeds value)
  | .named name value, h => by
    intro rest us hr hs
    have hv := value.prints h.2 hr hs
    have ho := hv.space.operator .assign (Ends.blank _).notNext_isSymbol
    have hn := ho.space.identifier h.1 (.blank _)
    simpa [Printer.argument, Argument.tokens, Operator.text] using hn

theorem Argument.allPrint : (as : List Argument) → Argument.AllWellFormed as →
    ∀ a ∈ as, Prints (Printer.argument a) a.tokens
  | a :: as, h, _, hm => by
    rcases List.mem_cons.mp hm with ha | hm
    · exact ha ▸ Argument.prints a h.1
    · exact Argument.allPrint as h.2 _ hm

end

/-! Items stand on lines of their own, so what follows them does not matter. -/

theorem Spelled.margin (depth : Nat) (h : Spelled rest ts) :
    Spelled ((Text.margin depth).toList ++ rest) ts := by
  induction depth with
  | zero => simpa [Text.margin] using h
  | succ depth ih => simpa [Text.margin] using ih.space.space.space.space

theorem Spelled.lines (depth : Nat) {level : Nat} {items : List Node}
    (hi : ∀ item ∈ items, Prints (Printer.node level item) item.tokens) (h : Spelled rest us) :
    Spelled ((lines depth (nodes level items)).toList ++ rest) (Node.listTokens items ++ us) := by
  induction items with
  | nil => simpa [nodes, Printer.lines, Node.listTokens] using h
  | cons item items ih =>
    have hrest := ih fun other hm => hi other (List.mem_cons_of_mem item hm)
    have hitem := (hi item List.mem_cons_self (.newline _) hrest.newline).margin depth
    simpa [nodes, Printer.lines, Node.listTokens] using hitem

theorem Prints.braced {depth : Nat} {items : List Node}
    (hi : ∀ item ∈ items, Prints (Printer.node (depth + 1) item) item.tokens) :
    Prints (braced depth (nodes (depth + 1) items)) (bracedTokens (Node.listTokens items)) := by
  intro rest us hr hs
  cases items with
  | nil =>
    have hb := hs.closeBrace.openBrace
    simpa [Printer.braced, nodes, Node.listTokens, bracedTokens] using hb
  | cons item items =>
    have hl := (hs.closeBrace.margin depth).lines (depth + 1) hi
    simpa [Printer.braced, nodes, bracedTokens] using hl.newline.openBrace

theorem Modifiers.spelled (modifiers : Modifiers) (h : Spelled rest us) :
    Spelled ((Printer.modifiers modifiers).toList ++ rest) (modifiers.tokens ++ us) := by
  have hi := h.space.keyword .inlineWord (.blank _)
  obtain ⟨exported, inlined⟩ := modifiers
  cases exported <;> cases inlined
  · exact h
  · exact hi
  · exact h.space.keyword .exportWord (.blank _)
  · exact hi.space.keyword .exportWord (.blank _)

theorem Prints.parameters {names : List String} (h : ∀ name ∈ names, IsName name) :
    Prints (", ".intercalate (names.map name)) (parameterTokens names) :=
  Prints.listed fun name hm _ _ hr hs => hs.identifier (h name hm) hr

mutual

theorem Node.prints (depth : Nat) :
    (n : Node) → n.WellFormed → Prints (Printer.node depth n) n.tokens
  | .statement value, h => value.prints depth h
  | .definition value, h => value.prints depth h

theorem Node.allPrint (depth : Nat) : (ns : List Node) → Node.AllWellFormed ns →
    ∀ n ∈ ns, Prints (Printer.node depth n) n.tokens
  | n :: ns, h, _, hm => by
    rcases List.mem_cons.mp hm with hn | hm
    · exact hn ▸ Node.prints depth n h.1
    · exact Node.allPrint depth ns h.2 _ hm

theorem Statement.prints (depth : Nat) :
    (s : Statement) → s.WellFormed → Prints (Printer.statement depth s) s.tokens
  | .expression value, h => by
    intro rest us hr hs
    have hv := value.prints h (.semicolon _) hs.semicolon
    simpa [Printer.statement, Statement.tokens] using hv
  | .block items, h => Prints.braced (Node.allPrint (depth + 1) items h)
  | .ifElse condition items none, h => by
    intro rest us hr hs
    have hi := Prints.braced (Node.allPrint (depth + 1) items h.2) hr hs
    have hc := (condition.prints h.1).parenthesized true (.blank _) hi.space
    have hk := hc.space.keyword .ifWord (.blank _)
    simpa [Printer.statement, Statement.tokens, conditionTokens, grouped, parenthesized,
      Keyword.text] using hk
  | .ifElse condition items (some otherwise), h => by
    intro rest us hr hs
    have ho := (otherwise.prints depth h.2.2.2 hr hs).space.keyword .elseWord (.blank _)
    have hi := Prints.braced (Node.allPrint (depth + 1) items h.2.1) (.blank _) ho.space
    have hc := (condition.prints h.1).parenthesized true (.blank _) hi.space
    have hk := hc.space.keyword .ifWord (.blank _)
    simpa [Printer.statement, Statement.tokens, conditionTokens, grouped, parenthesized,
      Keyword.text] using hk
  | .whileLoop condition body, h => by
    intro rest us hr hs
    have hi := Prints.braced (Node.allPrint (depth + 1) body h.2) hr hs
    have hc := (condition.prints h.1).parenthesized true (.blank _) hi.space
    have hk := hc.space.keyword .whileWord (.blank _)
    simpa [Printer.statement, Statement.tokens, conditionTokens, grouped, parenthesized,
      Keyword.text] using hk
  | .ret none, _ => by
    intro rest us hr hs
    have hk := hs.semicolon.keyword .returnWord (.semicolon _)
    simpa [Printer.statement, Statement.tokens, Keyword.text] using hk
  | .ret (some value), h => by
    intro rest us hr hs
    have hv := value.prints h (.semicolon _) hs.semicolon
    have hk := hv.space.keyword .returnWord (.blank _)
    simpa [Printer.statement, Statement.tokens, Keyword.text] using hk

theorem Definition.prints (depth : Nat) :
    (d : Definition) → d.WellFormed → Prints (Printer.definition depth d) d.tokens
  | .var name none, h => by
    intro rest us hr hs
    have hn := hs.semicolon.identifier h (.semicolon _)
    have hk := hn.space.keyword .varWord (.blank _)
    simpa [Printer.definition, Definition.tokens, Keyword.text] using hk
  | .var name (some value), h => by
    intro rest us hr hs
    have hv := value.prints h.2 (.semicolon _) hs.semicolon
    have ho := hv.space.operator .assign (Ends.blank _).notNext_isSymbol
    have hn := ho.space.identifier h.1 (.blank _)
    have hk := hn.space.keyword .varWord (.blank _)
    simpa [Printer.definition, Definition.tokens, Keyword.text, Operator.text] using hk
  | .function name modifiers parameters none, h => by
    intro rest us hr hs
    have hp := Prints.parameters h.2 (.closeParen _) hs.semicolon.closeParen
    have hn := hp.openParen.identifier h.1 (.openParen _)
    have hk := modifiers.spelled (hn.space.keyword .fnWord (.blank _))
    simpa [Printer.definition, Definition.tokens, Keyword.text] using hk
  | .function name modifiers parameters (some body), h => by
    intro rest us hr hs
    have hb := Prints.braced (Node.allPrint (depth + 1) body h.2.2) hr hs
    have hp := Prints.parameters h.2.1 (.closeParen _) hb.space.closeParen
    have hn := hp.openParen.identifier h.1 (.openParen _)
    have hk := modifiers.spelled (hn.space.keyword .fnWord (.blank _))
    simpa [Printer.definition, Definition.tokens, Keyword.text] using hk

end

theorem Expression.WellFormed.spelled {e : Expression} (h : e.WellFormed) :
    Spelled (Printer.expression e).toList e.tokens := (e.prints h).spelled

theorem WellFormedProgram.allPrint : {nodes : List Node} → WellFormedProgram nodes →
    ∀ n ∈ nodes, Prints (Printer.node 0 n) n.tokens
  | [.expression value], h, _, hm => by
    rw [List.mem_singleton.mp hm]
    exact value.prints h
  | .statement value :: _, h, _, hm => by
    rcases List.mem_cons.mp hm with rfl | hm
    · exact value.prints 0 h.1
    · exact WellFormedProgram.allPrint h.2 _ hm
  | .definition value :: _, h, _, hm => by
    rcases List.mem_cons.mp hm with rfl | hm
    · exact value.prints 0 h.1
    · exact WellFormedProgram.allPrint h.2 _ hm

theorem WellFormedProgram.spelled {nodes : List Node} (h : WellFormedProgram nodes) :
    Spelled (Printer.program nodes).toList (Node.listTokens nodes) := by
  simpa [Printer.program] using Spelled.nil.lines 0 h.allPrint

end FrontEnd
