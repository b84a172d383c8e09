import JsonQuery.Files.Tree
import JsonQuery.Main
import JsonQuery.Value.Interchange
import JsonQuery.Proofs.Number.Rounding
import JsonQuery.Proofs.Number.Grammar
import JsonQuery.Proofs.Number.Written
import JsonQuery.Proofs.Text.Quoted
import JsonQuery.Proofs.Path.WellFormed
import JsonQuery.Proofs.Selection.Nodes
import JsonQuery.Proofs.Selection.Trail
import JsonQuery.Proofs.Text.Reading
import JsonQuery.Proofs.Selection.Evaluation
import JsonQuery.Proofs.Selection.Picking
import JsonQuery.Proofs.Selection.Locality
import JsonQuery.Proofs.Json.Grammar
import JsonQuery.Proofs.Value.Members
import JsonQuery.Proofs.Value.Parts
import JsonQuery.Proofs.Json.Reading
import JsonQuery.Proofs.Json.Writing
import JsonQuery.Proofs.Value.Written
import JsonQuery.Proofs.Answer
import JsonQuery.Proofs.Selection.Singular
import JsonQuery.Proofs.Path.Grammar
import JsonQuery.Proofs.Path.Comparing
import JsonQuery.Proofs.Path.Lexeme
import JsonQuery.Proofs.Path.Condition
import JsonQuery.Proofs.Path.Bracket
import JsonQuery.Proofs.Path.Reading
import JsonQuery.Proofs.Path.Accepted
import JsonQuery.Proofs.Path.Canonical
import JsonQuery.Proofs.Path.Depth
import JsonQuery.Proofs.Location
import JsonQuery.Proofs.Value.Equality
import JsonQuery.Proofs.Selection.Equality
import JsonQuery.Proofs.Selection.Order
import JsonQuery.Proofs.Json.Form
import JsonQuery.Proofs.Json.Lookahead
import JsonQuery.Proofs.Json.Lexeme
import JsonQuery.Proofs.Json.Fault
import JsonQuery.Proofs.Path.Begun
import JsonQuery.Proofs.Path.Fault
import JsonQuery.Proofs.Selection.Lookup
import JsonQuery.Proofs.Selection.Words
import JsonQuery.Proofs.Selection.Slice
import JsonQuery.Proofs.Selection.Descent
import JsonQuery.Proofs.Selection.Reference
import JsonQuery.Proofs.Number.Value
import JsonQuery.Proofs.Selection.Dynamic
import JsonQuery.Proofs.Text.Order
import JsonQuery.Proofs.Selection.Comparison
import JsonQuery.Proofs.Value.Sorted
import JsonQuery.Proofs.Value.Layout
import JsonQuery.Proofs.Number.Layout
import JsonQuery.Proofs.Literals
import JsonQuery.Proofs.Path.Height
import JsonQuery.Proofs.Value.Interchange
import JsonQuery.Proofs.Selection.Moments
import JsonQuery.Proofs.Source
import JsonQuery.Proofs.Toml.Reading
import JsonQuery.Proofs.Files
import JsonQuery.Proofs.Settings.Text
import JsonQuery.Proofs.Settings.Storage
