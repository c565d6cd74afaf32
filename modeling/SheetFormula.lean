import SheetFormula.Command.Run
import SheetFormula.Formula.Table
import SheetFormula.Grammar.Parser
import SheetFormula.Main
import SheetFormula.Node.Leaf
import SheetFormula.Proofs.Build
import SheetFormula.Proofs.Rules
import SheetFormula.Proofs.Runes
import SheetFormula.Proofs.Reading
import SheetFormula.Proofs.Reconstruction
import SheetFormula.Proofs.Precedence
import SheetFormula.Proofs.Reduction
import SheetFormula.Proofs.Numerals
import SheetFormula.Proofs.Growth
import SheetFormula.Proofs.JsonText
import SheetFormula.Proofs.Storage
import SheetFormula.Proofs.Rereading
import SheetFormula.Proofs.TableRefinement
import SheetFormula.Proofs.Keys
import SheetFormula.Proofs.Whitespace
import SheetFormula.Proofs.Times
import SheetFormula.Proofs.Wiring
import SheetFormula.Proofs.Evaluation
import SheetFormula.Proofs.Decimals
import SheetFormula.Proofs.WrittenTokens
import SheetFormula.Proofs.Printing
import SheetFormula.Proofs.Terms
import SheetFormula.Proofs.Translation
import SheetFormula.Proofs.Outcomes
import SheetFormula.Proofs.Subformulas
import SheetFormula.Proofs.Spacing
import SheetFormula.Proofs.JsonValues
import SheetFormula.Proofs.Labels
import SheetFormula.Proofs.Decoding
import SheetFormula.Proofs.Messages
import SheetFormula.Proofs.StoredFormulas
import SheetFormula.Proofs.DateTimes
import SheetFormula.Proofs.Conditions
import SheetFormula.Proofs.Dependencies
import SheetFormula.Proofs.CellTexts
import SheetFormula.Proofs.PlainText
import SheetFormula.Proofs.QuotedTexts
import SheetFormula.Proofs.NumberValues
import SheetFormula.Proofs.Endings
import SheetFormula.Proofs.WrittenDates
import SheetFormula.Proofs.WrittenTimes
import SheetFormula.Proofs.DateExpressions
import SheetFormula.Proofs.LineTexts
import SheetFormula.Proofs.GivenComponents
import SheetFormula.Proofs.BareTokens
import SheetFormula.Proofs.LabelTracking
import SheetFormula.Proofs.CaselessRules
import SheetFormula.Proofs.CaselessTokens
import SheetFormula.Proofs.Caselessness
import SheetFormula.Proofs.ReferenceTexts
import SheetFormula.Proofs.NumberRange
import SheetFormula.Proofs.LineReports
import SheetFormula.Proofs.PrintedDates
import SheetFormula.Proofs.OpenLists
import SheetFormula.Proofs.Descent
