import FrontEnd.Text.Display

/-! Structured values laid out as indented text, one entry a line. -/

namespace FrontEnd

/-- An atom is a word; a group is entries between an opening and a closing text. The text in front
of an entry is its label, which may be empty. -/
inductive Outline where
  | atom (text : String)
  | group (opening : String) (entries : List (String × Outline)) (closing : String)

namespace Outline

mutual

/-- The outline `depth` levels in, without the margin of its first line. -/
def render (depth : Nat) : Outline → String
  | atom text => text
  | group opening [] closing => opening ++ closing
  | group opening (first :: rest) closing =>
    opening ++ "\n" ++ renderEntry (depth + 1) first ++ renderEntries (depth + 1) rest ++
      Text.margin depth ++ closing

/-- An entry on lines of its own, with a comma behind it. -/
def renderEntry (depth : Nat) : String × Outline → String
  | (label, value) => Text.margin depth ++ label ++ render depth value ++ ",\n"

def renderEntries (depth : Nat) : List (String × Outline) → String
  | [] => ""
  | first :: rest => renderEntry depth first ++ renderEntries depth rest

end

def list (items : List Outline) : Outline :=
  group "[" (items.map ("", ·)) "]"

/-- A name with one value in parentheses. -/
def wrap (name : String) (value : Outline) : Outline :=
  group (name ++ "(") [("", value)] ")"

/-- A name with named fields in braces. -/
def record (name : String) (fields : List (String × Outline)) : Outline :=
  group (name ++ " \x7b") (fields.map fun (field, value) => (field ++ ": ", value)) "\x7d"

def text (value : String) : Outline :=
  atom (Text.quoted value)

def flag (value : Bool) : Outline :=
  atom (if value then "true" else "false")

def option : Option Outline → Outline
  | none => atom "None"
  | some value => wrap "Some" value

end Outline

end FrontEnd
