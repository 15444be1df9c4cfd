import FrontEnd.Printer.Expression
import FrontEnd.Text.Display

/-! Programs as source: one item a line, blocks indented by four blanks. -/

namespace FrontEnd.Printer

/-- Each text on a line of its own, `depth` levels in. -/
def lines (depth : Nat) (texts : List String) : String :=
  String.join (texts.map fun text => Text.margin depth ++ text ++ "\n")

/-- The items of a block, which stands `depth` levels in, between braces. -/
def braced (depth : Nat) (items : List String) : String :=
  if items.isEmpty then "\x7b\x7d"
  else "\x7b\n" ++ lines (depth + 1) items ++ Text.margin depth ++ "\x7d"

def modifiers (modifiers : Modifiers) : String :=
  (if modifiers.exported then "export " else "") ++ if modifiers.inlined then "inline " else ""

mutual

def node (depth : Nat) : Node → String
  | .expression value => expression value
  | .statement value => statement depth value
  | .definition value => definition depth value

def nodes (depth : Nat) : List Node → List String
  | [] => []
  | first :: rest => node depth first :: nodes depth rest

def statement (depth : Nat) : Statement → String
  | .expression value => expression value ++ ";"
  | .block items => braced depth (nodes (depth + 1) items)
  | .ifElse condition items none =>
    "if (" ++ expression condition ++ ") " ++ braced depth (nodes (depth + 1) items)
  | .ifElse condition items (some otherwise) =>
    "if (" ++ expression condition ++ ") " ++ braced depth (nodes (depth + 1) items) ++ " else " ++
      statement depth otherwise
  | .whileLoop condition body =>
    "while (" ++ expression condition ++ ") " ++ braced depth (nodes (depth + 1) body)
  | .ret none => "return;"
  | .ret (some value) => "return " ++ expression value ++ ";"

def definition (depth : Nat) : Definition → String
  | .var target none => "var " ++ name target ++ ";"
  | .var target (some value) => "var " ++ name target ++ " = " ++ expression value ++ ";"
  | .function target marks parameters none =>
    modifiers marks ++ "fn " ++ name target ++ "(" ++ ", ".intercalate (parameters.map name) ++ ");"
  | .function target marks parameters (some body) =>
    modifiers marks ++ "fn " ++ name target ++ "(" ++ ", ".intercalate (parameters.map name) ++
      ") " ++ braced depth (nodes (depth + 1) body)

end

/-- A program in its canonical form. -/
def program (items : List Node) : String :=
  lines 0 (nodes 0 items)

end FrontEnd.Printer
