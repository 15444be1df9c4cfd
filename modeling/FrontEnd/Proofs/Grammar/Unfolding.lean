import FrontEnd.Grammar.Program
import FrontEnd.Proofs.Parser.Nesting

/-! The recursive rules satisfy the equations that their layers describe. -/
namespace FrontEnd.Grammar

open FrontEnd.Parser

variable {n : Nat} {inner inner' : Parser Expression} {blk blk' : Parser (List Node)}

theorem advances_identifier : Advances identifier := advances_token _ _

theorem advances_delimiter (symbol : Delimiter) : Advances (delimiter symbol) := advances_exactly _

theorem advances_keyword (word : Keyword) : Advances (keyword word) := advances_exactly _

theorem advances_operator (symbol : Operator) : Advances (operator symbol) := advances_exactly _

namespace Layer

theorem moves_parenthesized (hm : Moves inner) : Moves (parenthesized inner) :=
  ((advances_delimiter _).moves.skipThen hm).thenSkip (advances_delimiter _).moves

theorem moves_argument (hm : Moves inner) : Moves (argument inner) :=
  (((advances_identifier.moves.thenSkip (advances_operator _).moves).pair hm).map _).orElse
    (hm.map _)

theorem moves_arguments (hm : Moves inner) : Moves (arguments inner) :=
  ((advances_delimiter _).moves.skipThen
    ((moves_argument hm).separated (advances_delimiter _).moves)).thenSkip
      (advances_delimiter _).moves

theorem moves_call (hm : Moves inner) : Moves (call inner) :=
  (advances_identifier.moves.pair (moves_arguments hm)).map _

theorem moves_leaf (hm : Moves inner) : Moves (leaf inner) := by
  refine Moves.label (Moves.anyOf ?_) _
  intro p hp
  simp only [List.mem_cons, List.not_mem_nil, or_false] at hp
  rcases hp with rfl | rfl | rfl | rfl | rfl | rfl
  · exact ((advances_token _ _).map _).moves
  · exact ((advances_token _ _).map _).moves
  · exact ((advances_token _ _).map _).moves
  · exact moves_call hm
  · exact (advances_identifier.map _).moves
  · exact moves_parenthesized hm

theorem moves_operand (hm : Moves inner) : Moves (operand inner) :=
  ((advances_token _ _).moves.many.bind fun _ => (moves_leaf hm).bind fun _ =>
    (advances_token _ _).moves.optional.bind fun _ => .pure _).andThen _

theorem moves_link (hm : Moves inner) (op : Located Infix) :
    Moves ((fun operand => (⟨op.value, op.location, operand⟩ : Link)) <$> operand inner) :=
  (moves_operand hm).map _

theorem moves_chain (hm : Moves inner) : Moves (chain inner) :=
  (moves_operand hm).bind fun _ =>
    (((advances_token _ _).moves.committed (moves_link hm)).bind fun _ => .pure _)

theorem agree_parenthesized (hm : Moves inner) (h : Agree n inner inner') :
    Agree (n + 1) (parenthesized inner) (parenthesized inner') :=
  (Agree.skipThen (advances_delimiter _) h).thenSkip ((advances_delimiter _).moves.skipThen hm) _

theorem agree_argument (hm : Moves inner) (h : Agree n inner inner') :
    Agree n (argument inner) (argument inner') :=
  (((Agree.refl n _).pair (advances_identifier.moves.thenSkip (advances_operator _).moves)
    h hm).map _).orElse (h.map _)

theorem agree_arguments (hm : Moves inner) (h : Agree n inner inner') :
    Agree (n + 1) (arguments inner) (arguments inner') :=
  (Agree.skipThen (advances_delimiter _)
    ((agree_argument hm h).separated (moves_argument hm) (advances_delimiter _).moves)).thenSkip
      ((advances_delimiter _).moves.skipThen
        ((moves_argument hm).separated (advances_delimiter _).moves)) _

theorem agree_leaf (hm : Moves inner) (h : Agree n inner inner') :
    Agree (n + 1) (leaf inner) (leaf inner') := by
  refine Agree.label (Agree.anyOf fun start hs => ?_) _
  have hc : call inner start = call inner' start :=
    ((Agree.refl _ _).pair advances_identifier.moves (agree_arguments hm h)
      (moves_arguments hm)).map _ start hs
  simp only [trials, List.map_cons, hc, agree_parenthesized hm h start hs]

theorem agree_operand (hm : Moves inner) (h : Agree n inner inner') :
    Agree (n + 1) (operand inner) (operand inner') := by
  refine Agree.andThen ?_ ((advances_token _ _).moves.many.bind fun _ =>
    (moves_leaf hm).bind fun _ => (advances_token _ _).moves.optional.bind fun _ => .pure _) _
  exact (Agree.refl _ _).bind (advances_token _ _).moves.many fun _ =>
    (agree_leaf hm h).bind (moves_leaf hm) fun _ => .refl _ _

theorem guarded_expression : Guarded expression where
  moves hm := (moves_chain hm).andThen _
  agree hm _ h := Agree.andThen ((agree_operand hm h).bind (moves_operand hm) fun _ =>
    (Agree.committed (advances_token _ _).moves (fun _ => (agree_operand hm h).map _)
      (moves_link hm)).bind ((advances_token _ _).moves.committed (moves_link hm)) fun _ =>
        .refl _ _) (moves_chain hm) _

end Layer

theorem expression_eq : expression = Layer.expression expression :=
  Layer.guarded_expression.fix_eq

theorem moves_expression : Moves expression := Layer.guarded_expression.moves_fix

theorem moves_condition : Moves condition := Layer.moves_parenthesized moves_expression

theorem moves_modifiers : Moves modifiers := by
  refine Moves.map _ (Moves.allOf ?_)
  intro p hp
  simp only [List.mem_cons, List.not_mem_nil, or_false] at hp
  rcases hp with rfl | rfl
  · exact ((advances_keyword _).moves.optional).map _
  · exact ((advances_keyword _).moves.optional).map _

theorem moves_parameters : Moves parameters :=
  ((advances_delimiter _).moves.skipThen ((advances_identifier.moves.map _).separated
    (advances_delimiter _).moves)).thenSkip (advances_delimiter _).moves

namespace Layer

variable {nest nest' : Parser Statement}

theorem moves_otherwise (hb : Moves blk) (hn : Moves nest) :
    Moves (anyOf [nest, .block <$> blk]) := by
  apply Moves.anyOf
  intro p hp
  simp only [List.mem_cons, List.not_mem_nil, or_false] at hp
  rcases hp with rfl | rfl
  · exact hn
  · exact hb.map _

theorem moves_ifStatement (hb : Moves blk) (hn : Moves nest) : Moves (ifStatement blk nest) :=
  ((advances_keyword _).moves.bind fun _ => moves_condition.bind fun _ => hb.bind fun _ =>
    ((advances_keyword _).moves.skipThen (moves_otherwise hb hn)).optional.bind fun _ =>
      .pure _).atomic

theorem agree_ifStatement (hb : Moves blk) (hn : Moves nest) (h : Agree n blk blk')
    (h' : Agree n nest nest') : Agree (n + 1) (ifStatement blk nest) (ifStatement blk' nest') := by
  have ho : Agree n (anyOf [nest, .block <$> blk]) (anyOf [nest', .block <$> blk']) := by
    refine Agree.anyOf fun start hs => ?_
    simp only [trials, List.map_cons, h' start hs, h.map Statement.block start hs]
  refine Agree.atomic (Agree.bind_of_advances (advances_keyword _) fun _ =>
    (Agree.refl n _).bind moves_condition fun _ => h.bind hb fun _ => ?_)
  exact (Agree.optional ((Agree.skipThen (advances_keyword _) ho).mono (Nat.le_succ n))).bind
    ((advances_keyword _).moves.skipThen (moves_otherwise hb hn)).optional fun _ => .refl n _

theorem guarded_ifStatement (hb : Moves blk) : Guarded (ifStatement blk) where
  moves hn := moves_ifStatement hb hn
  agree hn _ h := agree_ifStatement hb hn (.refl _ _) h

theorem moves_whileStatement (hb : Moves blk) : Moves (whileStatement blk) :=
  (((advances_keyword _).moves.skipThen moves_condition).pair hb).map _

theorem moves_statement (hb : Moves blk) : Moves (statement blk) := by
  apply Moves.anyOf
  intro p hp
  simp only [List.mem_cons, List.not_mem_nil, or_false] at hp
  rcases hp with rfl | rfl | rfl | rfl | rfl
  · exact hb.map _
  · exact (guarded_ifStatement hb).moves_fix
  · exact moves_whileStatement hb
  · exact (((advances_keyword _).moves.skipThen moves_expression.optional).thenSkip
      (advances_delimiter _).moves).map _
  · exact (moves_expression.thenSkip (advances_delimiter _).moves).map _

theorem moves_body (hb : Moves blk) :
    Moves (anyOf [some <$> blk, (fun _ => none) <$> delimiter .semicolon]) := by
  apply Moves.anyOf
  intro p hp
  simp only [List.mem_cons, List.not_mem_nil, or_false] at hp
  rcases hp with rfl | rfl
  · exact hb.map _
  · exact (advances_delimiter _).moves.map _

theorem moves_functionDefinition (hb : Moves blk) : Moves (functionDefinition blk) :=
  (moves_modifiers.bind fun _ => (advances_keyword _).moves.bind fun _ =>
    (advances_identifier.moves.label _).bind fun _ => moves_parameters.bind fun _ =>
      (moves_body hb).bind fun _ => .pure _).atomic

theorem moves_definition (hb : Moves blk) : Moves (definition blk) := by
  apply Moves.anyOf
  intro p hp
  simp only [List.mem_cons, List.not_mem_nil, or_false] at hp
  rcases hp with rfl | rfl
  · exact ((((advances_keyword _).moves.skipThen (advances_identifier.moves.label _)).pair
      ((advances_operator _).moves.skipThen moves_expression).optional).thenSkip
        (advances_delimiter _).moves).map _
  · exact moves_functionDefinition hb

theorem moves_item (hb : Moves blk) : Moves (item blk) := by
  apply Moves.anyOf
  intro p hp
  simp only [List.mem_cons, List.not_mem_nil, or_false] at hp
  rcases hp with rfl | rfl
  · exact (moves_definition hb).map _
  · exact (moves_statement hb).map _

theorem agree_nested_ifStatement (hb : Moves blk) (h : Agree n blk blk') :
    ∀ depth, Agree n (nested (ifStatement blk) depth) (nested (ifStatement blk') depth)
  | 0 => .refl n _
  | depth + 1 => (agree_ifStatement hb ((guarded_ifStatement hb).moves_nested depth) h
      (agree_nested_ifStatement hb h depth)).mono (Nat.le_succ n)

theorem agree_statement (hb : Moves blk) (h : Agree n blk blk') :
    Agree n (statement blk) (statement blk') := by
  refine Agree.anyOf fun start hs => ?_
  have hi : fix (ifStatement blk) start = fix (ifStatement blk') start :=
    agree_nested_ifStatement hb h _ start hs
  have hw : whileStatement blk start = whileStatement blk' start :=
    ((Agree.refl n _).pair ((advances_keyword _).moves.skipThen moves_condition) h hb).map _
      start hs
  simp only [trials, List.map_cons, h.map Statement.block start hs, hi, hw]

theorem agree_functionDefinition (h : Agree n blk blk') (hb : Moves blk) :
    Agree n (functionDefinition blk) (functionDefinition blk') := by
  have ho : Agree n (anyOf [some <$> blk, (fun _ => none) <$> delimiter .semicolon])
      (anyOf [some <$> blk', (fun _ => none) <$> delimiter .semicolon]) := by
    refine Agree.anyOf fun start hs => ?_
    simp only [trials, List.map_cons, h.map some start hs]
  exact Agree.atomic ((Agree.refl n _).bind moves_modifiers fun _ =>
    (Agree.refl n _).bind (advances_keyword _).moves fun _ =>
      (Agree.refl n _).bind (advances_identifier.moves.label _) fun _ =>
        (Agree.refl n _).bind moves_parameters fun _ => ho.bind (moves_body hb) fun _ => .refl n _)

theorem agree_item (hb : Moves blk) (h : Agree n blk blk') : Agree n (item blk) (item blk') := by
  have hd : Agree n (definition blk) (definition blk') := by
    refine Agree.anyOf fun start hs => ?_
    simp only [trials, List.map_cons, agree_functionDefinition h hb start hs]
  refine Agree.anyOf fun start hs => ?_
  simp only [trials, List.map_cons, hd.map Node.definition start hs,
    (agree_statement hb h).map Node.statement start hs]

theorem guarded_braced : Guarded braced where
  moves hb := ((advances_delimiter _).moves.bind fun _ => (moves_item hb).many.bind fun _ =>
    (advances_delimiter _).moves.bind fun _ => .pure _).atomic
  agree hb _ h := Agree.atomic (Agree.bind_of_advances (advances_delimiter _) fun _ =>
    (Agree.many (agree_item hb h) (moves_item hb)).bind (moves_item hb).many fun _ => .refl _ _)

end Layer

theorem block_eq : block = Layer.braced block := Layer.guarded_braced.fix_eq

theorem moves_block : Moves block := Layer.guarded_braced.moves_fix

theorem ifStatement_eq : ifStatement = Layer.ifStatement block ifStatement :=
  (Layer.guarded_ifStatement moves_block).fix_eq

end FrontEnd.Grammar
