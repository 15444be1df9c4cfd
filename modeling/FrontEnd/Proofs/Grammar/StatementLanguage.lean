import FrontEnd.Proofs.Grammar.StatementCompleteness

/-! Programs as runs of tokens. The grammar of statements and definitions is stated over the tokens
themselves, with one kind of slot for expressions: a run that is an expression when it is parsed
alone. What surrounds a slot plays no part in it. -/
namespace FrontEnd.Grammar

/-- Tokens as they stand in a source, each with its place. -/
abbrev TokenRun := List (Located Token)

/-- The tokens of the run, without their places. -/
def TokenRun.values (run : TokenRun) : List Token := run.map Located.value

@[simp] theorem TokenRun.values_append (run last : TokenRun) :
    (run ++ last).values = run.values ++ last.values :=
  List.map_append

/-- The run is an expression all by itself. -/
def ExpressionRun (run : TokenRun) (e : Expression) : Prop := parseExpression run = .ok e

/-- What an `if` or a `while` tests. -/
inductive ConditionRun : TokenRun → Expression → Prop
  | parenthesized {opening run closing : TokenRun} {e : Expression}
      (ho : opening.values = [.delimiter .openParen]) (he : ExpressionRun run e)
      (hc : closing.values = [.delimiter .closeParen]) :
      ConditionRun (opening ++ (run ++ closing)) e

mutual

inductive ItemsRun : TokenRun → List Node → Prop
  | nil : ItemsRun [] []
  | cons {run runs : TokenRun} {item : Node} {items : List Node} (hi : ItemRun run item)
      (his : ItemsRun runs items) : ItemsRun (run ++ runs) (item :: items)

inductive ItemRun : TokenRun → Node → Prop
  | definition {run : TokenRun} {d : Definition} (hd : DefinitionRun run d) :
      ItemRun run (.definition d)
  | statement {run : TokenRun} {s : Statement} (hs : StatementRun run s) :
      ItemRun run (.statement s)

inductive BlockRun : TokenRun → List Node → Prop
  | braced {opening run closing : TokenRun} {items : List Node}
      (ho : opening.values = [.delimiter .openBrace]) (hi : ItemsRun run items)
      (hc : closing.values = [.delimiter .closeBrace]) :
      BlockRun (opening ++ (run ++ closing)) items

inductive StatementRun : TokenRun → Statement → Prop
  | block {run : TokenRun} {items : List Node} (hb : BlockRun run items) :
      StatementRun run (.block items)
  | ifElse {run : TokenRun} {s : Statement} (hs : IfRun run s) : StatementRun run s
  | whileLoop {word test body : TokenRun} {c : Expression} {items : List Node}
      (hw : word.values = [.keyword .whileWord]) (hc : ConditionRun test c)
      (hb : BlockRun body items) : StatementRun (word ++ (test ++ body)) (.whileLoop c items)
  | ret {word : TokenRun} (hw : word.values = [.keyword .returnWord, .delimiter .semicolon]) :
      StatementRun word (.ret none)
  | retValue {word run semicolon : TokenRun} {e : Expression}
      (hw : word.values = [.keyword .returnWord]) (he : ExpressionRun run e)
      (hs : semicolon.values = [.delimiter .semicolon]) :
      StatementRun (word ++ (run ++ semicolon)) (.ret (some e))
  | expression {run semicolon : TokenRun} {e : Expression} (he : ExpressionRun run e)
      (hs : semicolon.values = [.delimiter .semicolon]) :
      StatementRun (run ++ semicolon) (.expression e)

inductive IfRun : TokenRun → Statement → Prop
  | plain {word test body : TokenRun} {c : Expression} {items : List Node}
      (hw : word.values = [.keyword .ifWord]) (hc : ConditionRun test c)
      (hb : BlockRun body items) : IfRun (word ++ (test ++ body)) (.ifElse c items none)
  | withElse {word test body other branch : TokenRun} {c : Expression} {items : List Node}
      {o : Statement} (hw : word.values = [.keyword .ifWord]) (hc : ConditionRun test c)
      (hb : BlockRun body items) (hew : other.values = [.keyword .elseWord])
      (ho : ElseRun branch o) :
      IfRun (word ++ (test ++ (body ++ (other ++ branch)))) (.ifElse c items (some o))

inductive ElseRun : TokenRun → Statement → Prop
  | nested {run : TokenRun} {s : Statement} (hs : IfRun run s) : ElseRun run s
  | block {run : TokenRun} {items : List Node} (hb : BlockRun run items) :
      ElseRun run (.block items)

inductive DefinitionRun : TokenRun → Definition → Prop
  | var {word : TokenRun} (name : String)
      (hw : word.values = [.keyword .varWord, .identifier name, .delimiter .semicolon]) :
      DefinitionRun word (.var name none)
  | varValue {word run semicolon : TokenRun} {e : Expression} (name : String)
      (hw : word.values = [.keyword .varWord, .identifier name, .operator .assign])
      (he : ExpressionRun run e) (hs : semicolon.values = [.delimiter .semicolon]) :
      DefinitionRun (word ++ (run ++ semicolon)) (.var name (some e))
  | function {words head names closing body : TokenRun} {m : Modifiers} {parameters : List String}
      {items : Option (List Node)} (name : String) (hm : ModifiersOf words.values m)
      (hh : head.values = [.keyword .fnWord, .identifier name, .delimiter .openParen])
      (hp : Listed ParameterOf names.values parameters)
      (hc : closing.values = [.delimiter .closeParen]) (hb : BodyRun body items) :
      DefinitionRun (words ++ (head ++ (names ++ (closing ++ body))))
        (.function name m parameters items)

/-- A body, or the semicolon of a function that is declared ahead. -/
inductive BodyRun : TokenRun → Option (List Node) → Prop
  | forward {semicolon : TokenRun} (hs : semicolon.values = [.delimiter .semicolon]) :
      BodyRun semicolon none
  | block {run : TokenRun} {items : List Node} (hb : BlockRun run items) :
      BodyRun run (some items)

end

/-- Items, and after them perhaps an expression without its semicolon. -/
inductive ProgramRun : TokenRun → List Node → Prop
  | items {run : TokenRun} {items : List Node} (hi : ItemsRun run items) : ProgramRun run items
  | tail {run last : TokenRun} {items : List Node} {e : Expression} (hi : ItemsRun run items)
      (he : ExpressionRun last e) : ProgramRun (run ++ last) (items ++ [.expression e])

/-! From runs to the token values that they hold. -/

theorem ExpressionRun.values {run : TokenRun} {e : Expression} (h : ExpressionRun run e) :
    ExpressionOf run.values e :=
  parseExpression_ok_iff.mp h

theorem ConditionRun.values {run : TokenRun} {e : Expression} (h : ConditionRun run e) :
    ConditionOf run.values e := by
  obtain ⟨ho, he, hc⟩ := h
  simp only [TokenRun.values_append, ho, hc, List.singleton_append]
  exact .parenthesized he.values

mutual

theorem ItemsRun.values {run : TokenRun} {items : List Node} :
    ItemsRun run items → ItemsOf run.values items
  | .nil => .nil
  | .cons hi his => by
    rw [TokenRun.values_append]
    exact .cons hi.values his.values

theorem ItemRun.values {run : TokenRun} {item : Node} : ItemRun run item → ItemOf run.values item
  | .definition hd => .definition hd.values
  | .statement hs => .statement hs.values

theorem BlockRun.values {run : TokenRun} {items : List Node} :
    BlockRun run items → BlockOf run.values items
  | .braced ho hi hc => by
    simp only [TokenRun.values_append, ho, hc, List.singleton_append]
    exact .braced hi.values

theorem StatementRun.values {run : TokenRun} {s : Statement} :
    StatementRun run s → StatementOf run.values s
  | .block hb => .block hb.values
  | .ifElse hs => .ifElse hs.values
  | .whileLoop hw hc hb => by
    simp only [TokenRun.values_append, hw, List.singleton_append]
    exact .whileLoop hc.values hb.values
  | .ret hw => hw ▸ .ret
  | .retValue hw he hs => by
    simp only [TokenRun.values_append, hw, hs, List.singleton_append]
    exact .retValue he.values
  | .expression he hs => by
    simp only [TokenRun.values_append, hs]
    exact .expression he.values

theorem IfRun.values {run : TokenRun} {s : Statement} : IfRun run s → IfOf run.values s
  | .plain hw hc hb => by
    simp only [TokenRun.values_append, hw, List.singleton_append]
    exact .plain hc.values hb.values
  | .withElse hw hc hb hew ho => by
    simp only [TokenRun.values_append, hw, hew, List.singleton_append]
    exact .withElse hc.values hb.values ho.values

theorem ElseRun.values {run : TokenRun} {s : Statement} : ElseRun run s → ElseOf run.values s
  | .nested hs => .nested hs.values
  | .block hb => .block hb.values

theorem DefinitionRun.values {run : TokenRun} {d : Definition} :
    DefinitionRun run d → DefinitionOf run.values d
  | .var name hw => hw ▸ .var name
  | .varValue name hw he hs => by
    simp only [TokenRun.values_append, hw, hs]
    exact .varValue name he.values
  | .function name hm hh hp hc hb => by
    simp only [TokenRun.values_append, hh, hc]
    exact .function name hm hp hb.values

theorem BodyRun.values {run : TokenRun} {body : Option (List Node)} :
    BodyRun run body → BodyOf run.values body
  | .forward hs => hs ▸ .forward
  | .block hb => .block hb.values

end

/-! From token values to any run that holds them. -/

theorem exists_append_of_values {run : TokenRun} {ts us : List Token}
    (h : run.values = ts ++ us) :
    ∃ first last, run = first ++ last ∧ first.values = ts ∧ last.values = us :=
  List.map_eq_append_iff.mp h

theorem exists_cons_of_values {run : TokenRun} {t : Token} {us : List Token}
    (h : run.values = t :: us) :
    ∃ first last, run = first ++ last ∧ first.values = [t] ∧ last.values = us :=
  exists_append_of_values (show run.values = [t] ++ us from h)

theorem ExpressionOf.run {run : TokenRun} {ts : List Token} {e : Expression}
    (h : ExpressionOf ts e) (hr : run.values = ts) : ExpressionRun run e := by
  subst hr
  exact parseExpression_ok_iff.mpr h

theorem ConditionOf.run {run : TokenRun} {ts : List Token} {e : Expression}
    (h : ConditionOf ts e) (hr : run.values = ts) : ConditionRun run e := by
  obtain ⟨he⟩ := h
  obtain ⟨opening, rest, rfl, ho, hr⟩ := exists_cons_of_values hr
  obtain ⟨inside, closing, rfl, hi, hc⟩ := exists_append_of_values hr
  exact .parenthesized ho (he.run hi) hc

mutual

theorem ItemsOf.run {run : TokenRun} {ts : List Token} {items : List Node} :
    ItemsOf ts items → run.values = ts → ItemsRun run items
  | .nil, hr => by
    obtain rfl := List.map_eq_nil_iff.mp hr
    exact .nil
  | .cons hi his, hr => by
    obtain ⟨first, last, rfl, hf, hl⟩ := exists_append_of_values hr
    exact .cons (hi.run hf) (his.run hl)

theorem ItemOf.run {run : TokenRun} {ts : List Token} {item : Node} :
    ItemOf ts item → run.values = ts → ItemRun run item
  | .definition hd, hr => .definition (hd.run hr)
  | .statement hs, hr => .statement (hs.run hr)

theorem BlockOf.run {run : TokenRun} {ts : List Token} {items : List Node} :
    BlockOf ts items → run.values = ts → BlockRun run items
  | .braced hi, hr => by
    obtain ⟨opening, rest, rfl, ho, hr⟩ := exists_cons_of_values hr
    obtain ⟨inside, closing, rfl, hin, hc⟩ := exists_append_of_values hr
    exact .braced ho (hi.run hin) hc

theorem StatementOf.run {run : TokenRun} {ts : List Token} {s : Statement} :
    StatementOf ts s → run.values = ts → StatementRun run s
  | .block hb, hr => .block (hb.run hr)
  | .ifElse hs, hr => .ifElse (hs.run hr)
  | .whileLoop hc hb, hr => by
    obtain ⟨word, rest, rfl, hw, hr⟩ := exists_cons_of_values hr
    obtain ⟨test, body, rfl, ht, hbody⟩ := exists_append_of_values hr
    exact .whileLoop hw (hc.run ht) (hb.run hbody)
  | .ret, hr => .ret hr
  | .retValue he, hr => by
    obtain ⟨word, rest, rfl, hw, hr⟩ := exists_cons_of_values hr
    obtain ⟨value, semicolon, rfl, hv, hs⟩ := exists_append_of_values hr
    exact .retValue hw (he.run hv) hs
  | .expression he, hr => by
    obtain ⟨value, semicolon, rfl, hv, hs⟩ := exists_append_of_values hr
    exact .expression (he.run hv) hs

theorem IfOf.run {run : TokenRun} {ts : List Token} {s : Statement} :
    IfOf ts s → run.values = ts → IfRun run s
  | .plain hc hb, hr => by
    obtain ⟨word, rest, rfl, hw, hr⟩ := exists_cons_of_values hr
    obtain ⟨test, body, rfl, ht, hbody⟩ := exists_append_of_values hr
    exact .plain hw (hc.run ht) (hb.run hbody)
  | .withElse hc hb ho, hr => by
    obtain ⟨word, rest, rfl, hw, hr⟩ := exists_cons_of_values hr
    obtain ⟨test, rest, rfl, ht, hr⟩ := exists_append_of_values hr
    obtain ⟨body, rest, rfl, hbody, hr⟩ := exists_append_of_values hr
    obtain ⟨other, branch, rfl, hew, hbranch⟩ := exists_cons_of_values hr
    exact .withElse hw (hc.run ht) (hb.run hbody) hew (ho.run hbranch)

theorem ElseOf.run {run : TokenRun} {ts : List Token} {s : Statement} :
    ElseOf ts s → run.values = ts → ElseRun run s
  | .nested hs, hr => .nested (hs.run hr)
  | .block hb, hr => .block (hb.run hr)

theorem DefinitionOf.run {run : TokenRun} {ts : List Token} {d : Definition} :
    DefinitionOf ts d → run.values = ts → DefinitionRun run d
  | .var name, hr => .var name hr
  | .varValue name he, hr => by
    obtain ⟨word, rest, rfl, hw, hr⟩ := exists_append_of_values
      (show _ = [.keyword .varWord, .identifier name, .operator .assign] ++ _ from hr)
    obtain ⟨value, semicolon, rfl, hv, hs⟩ := exists_append_of_values hr
    exact .varValue name hw (he.run hv) hs
  | .function name hm hp hb, hr => by
    obtain ⟨words, rest, rfl, hws, hr⟩ := exists_append_of_values hr
    obtain ⟨head, rest, rfl, hh, hr⟩ := exists_append_of_values
      (show _ = [.keyword .fnWord, .identifier name, .delimiter .openParen] ++ _ from hr)
    obtain ⟨names, rest, rfl, hns, hr⟩ := exists_append_of_values hr
    obtain ⟨closing, body, rfl, hc, hbody⟩ := exists_cons_of_values hr
    exact .function name (hws ▸ hm) hh (hns ▸ hp) hc (hb.run hbody)

theorem BodyOf.run {run : TokenRun} {ts : List Token} {body : Option (List Node)} :
    BodyOf ts body → run.values = ts → BodyRun run body
  | .forward, hr => .forward hr
  | .block hb, hr => .block (hb.run hr)

end

theorem programRun_iff {run : TokenRun} {nodes : List Node} :
    ProgramRun run nodes ↔ ProgramOf run.values nodes := by
  constructor
  · intro h
    cases h with
    | items hi => exact .items hi.values
    | tail hi he =>
      rw [TokenRun.values_append]
      exact .tail hi.values he.values
  · intro h
    generalize hr : run.values = ts at h
    cases h with
    | items hi => exact .items (hi.run hr)
    | tail hi he =>
      obtain ⟨first, last, rfl, hf, hl⟩ := exists_append_of_values hr
      exact .tail (hi.run hf) (he.run hl)

/-- A list of tokens is read as a program exactly if it is split into one by the grammar, with
every expression in it an expression when it is parsed alone. -/
theorem parseProgram_ok_iff_programRun {tokens : List (Located Token)} {nodes : List Node} :
    parseProgram tokens = .ok nodes ↔ ProgramRun tokens nodes :=
  parseProgram_ok_iff.trans programRun_iff.symm

end FrontEnd.Grammar
