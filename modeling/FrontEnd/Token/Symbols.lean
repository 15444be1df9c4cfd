/-! The fixed texts of the language: reserved words, operators and delimiters. -/

namespace FrontEnd

/-- Reserved words. -/
inductive Keyword where
  | trueWord | falseWord | varWord | fnWord | returnWord | ifWord | elseWord | whileWord
  | exportWord | inlineWord
deriving DecidableEq

namespace Keyword

def all : List Keyword :=
  [trueWord, falseWord, varWord, fnWord, returnWord, ifWord, elseWord, whileWord, exportWord,
    inlineWord]

def text : Keyword → String
  | trueWord => "true"
  | falseWord => "false"
  | varWord => "var"
  | fnWord => "fn"
  | returnWord => "return"
  | ifWord => "if"
  | elseWord => "else"
  | whileWord => "while"
  | exportWord => "export"
  | inlineWord => "inline"

end Keyword

/-- Operator symbols. Whether one stands before, after or between operands is for the grammar of
expressions to say. -/
inductive Operator where
  | plus | minus | star | slash | percent | plusPlus | minusMinus | bang
  | assign | plusAssign | minusAssign | starAssign | slashAssign | percentAssign
  | equal | notEqual | less | lessEqual | greater | greaterEqual | spaceship
  | andAnd | orOr | caret
deriving DecidableEq

namespace Operator

def all : List Operator :=
  [plus, minus, star, slash, percent, plusPlus, minusMinus, bang, assign, plusAssign, minusAssign,
    starAssign, slashAssign, percentAssign, equal, notEqual, less, lessEqual, greater,
    greaterEqual, spaceship, andAnd, orOr, caret]

def text : Operator → String
  | plus => "+"
  | minus => "-"
  | star => "*"
  | slash => "/"
  | percent => "%"
  | plusPlus => "++"
  | minusMinus => "--"
  | bang => "!"
  | assign => "="
  | plusAssign => "+="
  | minusAssign => "-="
  | starAssign => "*="
  | slashAssign => "/="
  | percentAssign => "%="
  | equal => "=="
  | notEqual => "!="
  | less => "<"
  | lessEqual => "<="
  | greater => ">"
  | greaterEqual => ">="
  | spaceship => "<=>"
  | andAnd => "&&"
  | orOr => "||"
  | caret => "^"

end Operator

/-- Punctuation that groups and separates. -/
inductive Delimiter where
  | openParen | closeParen | openBrace | closeBrace | comma | semicolon
deriving DecidableEq

namespace Delimiter

def all : List Delimiter :=
  [openParen, closeParen, openBrace, closeBrace, comma, semicolon]

def text : Delimiter → String
  | openParen => "("
  | closeParen => ")"
  | openBrace => "\x7b"
  | closeBrace => "\x7d"
  | comma => ","
  | semicolon => ";"

end Delimiter

end FrontEnd
