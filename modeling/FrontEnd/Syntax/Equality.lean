import FrontEnd.Syntax.Tree

/-! Equality of syntax trees is decidable. -/

namespace FrontEnd

mutual

/-- Whether two expressions are built alike. -/
def Expression.same : Expression → Expression → Bool
  | .boolean a, .boolean b => a == b
  | .numeric a u, .numeric b v => a == b && u == v
  | .textual a u, .textual b v => a == b && u == v
  | .var a, .var b => a == b
  | .call f as, .call g bs => f == g && Argument.allSame as bs
  | .unary o a, .unary p b => o == p && a.same b
  | .step o a, .step p b => o == p && a == b
  | .binary o a c, .binary p b d => o == p && a.same b && c.same d
  | .assign o a c, .assign p b d => o == p && a == b && c.same d
  | _, _ => false

def Argument.same : Argument → Argument → Bool
  | .positional a, .positional b => a.same b
  | .named m a, .named n b => m == n && a.same b
  | _, _ => false

def Argument.allSame : List Argument → List Argument → Bool
  | [], [] => true
  | a :: as, b :: bs => a.same b && Argument.allSame as bs
  | _, _ => false

end

mutual

theorem Expression.same_iff : (a b : Expression) → (a.same b = true ↔ a = b)
  | .boolean _, b => by cases b <;> simp [Expression.same]
  | .numeric _ _, b => by cases b <;> simp [Expression.same]
  | .textual _ _, b => by cases b <;> simp [Expression.same]
  | .var _, b => by cases b <;> simp [Expression.same]
  | .call _ as, b => by
    cases b with
    | call g bs => simp [Expression.same, Argument.allSame_iff as bs]
    | _ => simp [Expression.same]
  | .unary _ a, b => by
    cases b with
    | unary p b => simp [Expression.same, Expression.same_iff a b]
    | _ => simp [Expression.same]
  | .step _ _, b => by cases b <;> simp [Expression.same]
  | .binary _ a c, b => by
    cases b with
    | binary p b d =>
      simp [Expression.same, Expression.same_iff a b, Expression.same_iff c d, and_assoc]
    | _ => simp [Expression.same]
  | .assign _ _ c, b => by
    cases b with
    | assign p b d => simp [Expression.same, Expression.same_iff c d, and_assoc]
    | _ => simp [Expression.same]

theorem Argument.same_iff : (a b : Argument) → (a.same b = true ↔ a = b)
  | .positional a, b => by
    cases b with
    | positional b => simp [Argument.same, Expression.same_iff a b]
    | named => simp [Argument.same]
  | .named _ a, b => by
    cases b with
    | positional => simp [Argument.same]
    | named n b => simp [Argument.same, Expression.same_iff a b]

theorem Argument.allSame_iff : (as bs : List Argument) → (Argument.allSame as bs = true ↔ as = bs)
  | [], bs => by cases bs <;> simp [Argument.allSame]
  | a :: as, bs => by
    cases bs with
    | nil => simp [Argument.allSame]
    | cons b bs => simp [Argument.allSame, Argument.same_iff a b, Argument.allSame_iff as bs]

end

instance : DecidableEq Expression := fun a b => decidable_of_iff _ (Expression.same_iff a b)

mutual

def Node.same : Node → Node → Bool
  | .expression a, .expression b => a = b
  | .statement a, .statement b => a.same b
  | .definition a, .definition b => a.same b
  | _, _ => false

def Node.allSame : List Node → List Node → Bool
  | [], [] => true
  | a :: as, b :: bs => a.same b && Node.allSame as bs
  | _, _ => false

def Statement.same : Statement → Statement → Bool
  | .expression a, .expression b => a = b
  | .block as, .block bs => Node.allSame as bs
  | .ifElse a as none, .ifElse b bs none => a = b && Node.allSame as bs
  | .ifElse a as (some s), .ifElse b bs (some t) => a = b && Node.allSame as bs && s.same t
  | .whileLoop a as, .whileLoop b bs => a = b && Node.allSame as bs
  | .ret a, .ret b => a = b
  | _, _ => false

def Definition.same : Definition → Definition → Bool
  | .var m a, .var n b => m = n && a = b
  | .function m f p none, .function n g q none => m = n && f = g && p = q
  | .function m f p (some as), .function n g q (some bs) =>
    m = n && f = g && p = q && Node.allSame as bs
  | _, _ => false

end

mutual

theorem Node.same_iff : (a b : Node) → (a.same b = true ↔ a = b)
  | .expression _, b => by cases b <;> simp [Node.same]
  | .statement a, b => by
    cases b with
    | statement b => simp [Node.same, Statement.same_iff a b]
    | _ => simp [Node.same]
  | .definition a, b => by
    cases b with
    | definition b => simp [Node.same, Definition.same_iff a b]
    | _ => simp [Node.same]

theorem Node.allSame_iff : (as bs : List Node) → (Node.allSame as bs = true ↔ as = bs)
  | [], bs => by cases bs <;> simp [Node.allSame]
  | a :: as, bs => by
    cases bs with
    | nil => simp [Node.allSame]
    | cons b bs => simp [Node.allSame, Node.same_iff a b, Node.allSame_iff as bs]

theorem Statement.same_iff : (a b : Statement) → (a.same b = true ↔ a = b)
  | .expression _, b => by cases b <;> simp [Statement.same]
  | .block as, b => by
    cases b with
    | block bs => simp [Statement.same, Node.allSame_iff as bs]
    | _ => simp [Statement.same]
  | .ifElse _ as none, b => by
    cases b with
    | ifElse _ bs t => cases t <;> simp [Statement.same, Node.allSame_iff as bs]
    | _ => simp [Statement.same]
  | .ifElse _ as (some s), b => by
    cases b with
    | ifElse _ bs t =>
      cases t with
      | none => simp [Statement.same]
      | some t => simp [Statement.same, Node.allSame_iff as bs, Statement.same_iff s t, and_assoc]
    | _ => simp [Statement.same]
  | .whileLoop _ as, b => by
    cases b with
    | whileLoop _ bs => simp [Statement.same, Node.allSame_iff as bs]
    | _ => simp [Statement.same]
  | .ret _, b => by cases b <;> simp [Statement.same]

theorem Definition.same_iff : (a b : Definition) → (a.same b = true ↔ a = b)
  | .var _ _, b => by cases b <;> simp [Definition.same]
  | .function _ _ _ none, b => by
    cases b with
    | var => simp [Definition.same]
    | function _ _ _ body => cases body <;> simp [Definition.same, and_assoc]
  | .function _ _ _ (some as), b => by
    cases b with
    | var => simp [Definition.same]
    | function _ _ _ body =>
      cases body with
      | none => simp [Definition.same]
      | some bs => simp [Definition.same, Node.allSame_iff as bs, and_assoc]

end

instance : DecidableEq Node := fun a b => decidable_of_iff _ (Node.same_iff a b)

end FrontEnd
