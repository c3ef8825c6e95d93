import Calculator.Main
import Calculator.Proofs.Agreement
import Calculator.Proofs.ClosingOrder
import Calculator.Proofs.Faults
import Calculator.Proofs.GroupedText
import Calculator.Proofs.InfixText
import Calculator.Proofs.Joining
import Calculator.Proofs.NumberedLines
import Calculator.Proofs.Reports
import Calculator.Proofs.OpenGroups
import Calculator.Proofs.Outcome
import Calculator.Proofs.PrintedValues
import Calculator.Proofs.Spelling
import Calculator.Proofs.Splitting
import Calculator.Proofs.History
import Calculator.Proofs.Pruning
import Calculator.Proofs.PostorderNumbers
import Calculator.Proofs.Segments
import Calculator.Proofs.Sentences
import Calculator.Proofs.FirstStop
import Calculator.Proofs.StackEvaluation
import Calculator.Proofs.Unfolding
import Calculator.Proofs.BranchLines
import Calculator.Proofs.DrawnShapes
import Calculator.Proofs.Entities
import Calculator.Proofs.WholeNumbers
import Calculator.Proofs.Placement
import Calculator.Proofs.Columns
import Calculator.Proofs.Tags
import Calculator.Proofs.Document
import Calculator.Proofs.FloatTexts
import Calculator.Proofs.NearestMagnitude
import Calculator.Proofs.RoundedNumbers
import Calculator.Proofs.LiteralValue
