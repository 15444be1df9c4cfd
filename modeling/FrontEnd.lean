import FrontEnd.Main
import FrontEnd.Syntax.Equality
import FrontEnd.Proofs.Formatting
import FrontEnd.Proofs.Grammar.ExpressionLanguage
import FrontEnd.Proofs.Grammar.Rules
import FrontEnd.Proofs.Grammar.StatementLanguage
import FrontEnd.Proofs.Token.Tokenization
import FrontEnd.Proofs.Text.Position
import FrontEnd.Proofs.Token.Order
import FrontEnd.Proofs.Token.Tiling
import FrontEnd.Proofs.Composition
import FrontEnd.Proofs.Grammar.Lockstep
import FrontEnd.Proofs.Grammar.Layout
import FrontEnd.Proofs.ErrorPlaces
import FrontEnd.Proofs.Token.Calls
import FrontEnd.Proofs.Grammar.Precedence
import FrontEnd.Proofs.SeparateFiles
import FrontEnd.Proofs.Grammar.Arguments
import FrontEnd.Proofs.Printer.Parentheses
import FrontEnd.Proofs.Grammar.Legality
import FrontEnd.Proofs.Grammar.Diagnosis
import FrontEnd.Proofs.Grammar.Groups
import FrontEnd.Proofs.Grammar.Locality
import FrontEnd.Proofs.Parser.Choice
import FrontEnd.Proofs.Grammar.CommaLists
import FrontEnd.Proofs.Grammar.Progress
