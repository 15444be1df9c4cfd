import FrontEnd.Outline.Syntax
import FrontEnd.Printer.Program
import FrontEnd.Source

/-! The command line: one command, applied to each of the files it is given. -/

namespace FrontEnd.CommandLine

inductive Command where
  | tokens | ast | fmt | check
deriving DecidableEq

def Command.ofName? : String → Option Command
  | "tokens" => some tokens
  | "ast" => some ast
  | "fmt" => some fmt
  | "check" => some check
  | _ => none

/-- What is written, and how the process ends. -/
structure Outcome where
  stdout : String
  stderr : String
  exitCode : Nat
deriving DecidableEq

/-- Why a file's text cannot be had: the system does not give its content, and says why, or the
content is not text. -/
inductive ReadError where
  | system (reason : String)
  | notText
deriving DecidableEq

def ReadError.message : ReadError → String
  | system reason => reason
  | notText => "stream did not contain valid UTF-8"

/-- What the system says of a file that does not exist. -/
def missing : String := "No such file or directory (os error 2)"

/-- The text of a file, from its content or what the system says instead. -/
def textOf (content : Except String ByteArray) : Except ReadError String :=
  match content with
  | .error reason => .error (.system reason)
  | .ok bytes =>
    match String.fromUTF8? bytes with
    | none => .error .notText
    | some text => .ok text

def usage : String :=
  String.join <| List.map (· ++ "\n")
    ["Usage: srcfront <command> [files...]",
      "",
      "Commands:",
      "  tokens  Print the token stream of each file",
      "  ast     Print the syntax tree of each file",
      "  fmt     Print each file in canonical form",
      "  check   Check that each file parses",
      "",
      "Examples:",
      "  srcfront check main.src",
      "  srcfront fmt main.src"]

/-- One token a line, behind its line and column. -/
def tokenLine (source : String) (token : Located Token) : String :=
  let position := token.location.position source
  toString position.line ++ ":" ++ toString position.column ++ "\t" ++ token.value.describe ++ "\n"

/-- What `command` writes about a file that can be read: to standard output, and to standard
error. -/
def report (command : Command) (path source : String) (file : FileId) :
    Except SourceError (String × String) :=
  match command with
  | .tokens => do
    let tokens ← Source.read .ok source file
    return (String.join (tokens.map (tokenLine source)), "")
  | .ast => do
    let items ← Source.read Grammar.parseProgram source file
    return ((Outline.ofProgram items).render 0 ++ "\n", "")
  | .fmt => do
    let items ← Source.read Grammar.parseProgram source file
    return (Printer.program items, "")
  | .check => do
    let items ← Source.read Grammar.parseProgram source file
    return ("", path ++ ": valid (" ++ toString items.length ++ " top-level item(s))\n")

def errorLine (path source : String) (error : SourceError) : String :=
  let position := error.location.position source
  path ++ ":" ++ toString position.line ++ ":" ++ toString position.column ++ ": " ++
    error.message ++ "\n"

/-- The command on one file. -/
def runFile (command : Command) (path : String) (content : Except String ByteArray)
    (file : FileId) : Outcome :=
  match textOf content with
  | .error error => ⟨"", path ++ ": " ++ error.message ++ "\n", 1⟩
  | .ok source =>
    match report command path source file with
    | .ok (stdout, stderr) => ⟨stdout, stderr, 0⟩
    | .error error => ⟨"", errorLine path source error, 1⟩

/-- Both outcomes one after the other; the worse exit code stays. -/
def Outcome.append (a b : Outcome) : Outcome :=
  ⟨a.stdout ++ b.stdout, a.stderr ++ b.stderr, max a.exitCode b.exitCode⟩

/-- Names the file at a place in the list. A name has 32 bits, and the files for which that is not
enough share the last. -/
def fileAt (place : Nat) : FileId := ⟨min place (UInt32.size - 1)⟩

/-- The command on each file, the first of which stands at `place`. -/
def runFiles (command : Command) (read : String → Except String ByteArray) :
    (place : Nat) → (paths : List String) → Outcome
  | _, [] => ⟨"", "", 0⟩
  | place, path :: paths =>
    (runFile command path (read path) (fileAt place)).append
      (runFiles command read (place + 1) paths)

/-- The whole program: `read` gives the content of a file, or what the system says instead. -/
def runWith (arguments : List String) (read : String → Except String ByteArray) : Outcome :=
  match arguments with
  | [] | "--help" :: _ | "-h" :: _ => ⟨"", usage, 2⟩
  | name :: paths =>
    match Command.ofName? name with
    | none => ⟨"", "Unknown command: " ++ name ++ "\n", 2⟩
    | some command =>
      if paths.isEmpty then ⟨"", "Error: no files specified\n", 2⟩
      else runFiles command read 0 paths

/-- The whole program where every file that exists can be read. -/
def run (arguments : List String) (read : String → Option ByteArray) : Outcome :=
  runWith arguments fun path => (read path).elim (.error missing) .ok

end FrontEnd.CommandLine
