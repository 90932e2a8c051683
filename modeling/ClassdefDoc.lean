import ClassdefDoc.Attributes.Region
import ClassdefDoc.Attributes.Resolve
import ClassdefDoc.Class.AttributeList
import ClassdefDoc.Class.Basic
import ClassdefDoc.Class.Body
import ClassdefDoc.Class.Comments
import ClassdefDoc.Class.Member
import ClassdefDoc.Class.Parse
import ClassdefDoc.Class.Reader
import ClassdefDoc.Collect
import ClassdefDoc.CommandLine.Arguments
import ClassdefDoc.CommandLine.Invocation
import ClassdefDoc.Cursor
import ClassdefDoc.Diagnostic
import ClassdefDoc.Documentation.Binding
import ClassdefDoc.Documentation.DocText
import ClassdefDoc.Documentation.Macros
import ClassdefDoc.Fault
import ClassdefDoc.File.Error
import ClassdefDoc.File.Tree
import ClassdefDoc.Main
import ClassdefDoc.Name
import ClassdefDoc.Path
import ClassdefDoc.Position
import ClassdefDoc.Pseudocode.Balance
import ClassdefDoc.Pseudocode.Comment
import ClassdefDoc.Pseudocode.Default
import ClassdefDoc.Pseudocode.DocBlock
import ClassdefDoc.Pseudocode.Entry
import ClassdefDoc.Pseudocode.Layout
import ClassdefDoc.Pseudocode.OfSource
import ClassdefDoc.Pseudocode.Outline
import ClassdefDoc.Pseudocode.Page
import ClassdefDoc.Pseudocode.Quoted
import ClassdefDoc.Pseudocode.Types
import ClassdefDoc.Run.Batch
import ClassdefDoc.Run.Error
import ClassdefDoc.Run.Json
import ClassdefDoc.Run.Report
import ClassdefDoc.Run.Request
import ClassdefDoc.Run.Settings
import ClassdefDoc.Source
import ClassdefDoc.Text.Basic
import ClassdefDoc.Text.Bytes
import ClassdefDoc.Text.Letter
import ClassdefDoc.Text.Shown
import ClassdefDoc.Token.Basic
import ClassdefDoc.Token.Lexeme
import ClassdefDoc.Token.Scan
import ClassdefDoc.Toml.Basic
import ClassdefDoc.Toml.Document
import ClassdefDoc.Toml.Scalar
import ClassdefDoc.Proofs.Name
import ClassdefDoc.Proofs.Scan.Cursor
import ClassdefDoc.Proofs.Collect
import ClassdefDoc.Proofs.Scan.Lexeme
import ClassdefDoc.Proofs.Scan.Run
import ClassdefDoc.Proofs.Scan.Lossless
import ClassdefDoc.Proofs.Balance.Machine
import ClassdefDoc.Proofs.Balance.Body
import ClassdefDoc.Proofs.Parse.Place
import ClassdefDoc.Proofs.Parse.WellFormed
import ClassdefDoc.Proofs.Balance.Parts
import ClassdefDoc.Proofs.Balance.Balanced
import ClassdefDoc.Proofs.Print.Form
import ClassdefDoc.Proofs.Print.Spelling
import ClassdefDoc.Proofs.Print.Value
import ClassdefDoc.Proofs.Parse.Takes
import ClassdefDoc.Proofs.Print.Written
import ClassdefDoc.Proofs.Print.RoundTrip
import ClassdefDoc.Proofs.File.Trail
import ClassdefDoc.Proofs.File.Tree
import ClassdefDoc.Proofs.Batch.Schedule
import ClassdefDoc.Proofs.Batch.Independence
import ClassdefDoc.Proofs.Batch.Outcome
import ClassdefDoc.Proofs.Scan.Order
import ClassdefDoc.Proofs.Parse.Quiet
import ClassdefDoc.Proofs.Parse.Course
import ClassdefDoc.Proofs.Comment.Group
import ClassdefDoc.Proofs.Comment.Placement
import ClassdefDoc.Proofs.Outline.Comments
import ClassdefDoc.Proofs.Outline.SourceOrder
import ClassdefDoc.Proofs.Outline.ClassEnd
import ClassdefDoc.Proofs.LineEnd.DocText
import ClassdefDoc.Proofs.LineEnd.Lexeme
import ClassdefDoc.Proofs.LineEnd.Scan
import ClassdefDoc.Proofs.Attributes.Modifiers
import ClassdefDoc.Proofs.LineEnd.Binding
import ClassdefDoc.Proofs.LineEnd.Default
import ClassdefDoc.Proofs.LineEnd.Pseudocode
import ClassdefDoc.Proofs.Balance.Uncomment
import ClassdefDoc.Proofs.Balance.BodyCode
import ClassdefDoc.Proofs.Balance.Extent
import ClassdefDoc.Proofs.Comment.Priority
import ClassdefDoc.Proofs.Attributes.Unknown
import ClassdefDoc.Proofs.Attributes.Meaning
import ClassdefDoc.Proofs.Attributes.Order
import ClassdefDoc.Proofs.Parse.BodyEnd
import ClassdefDoc.Proofs.Comment.BodyComments
import ClassdefDoc.Proofs.Scan.Join
import ClassdefDoc.Proofs.Scan.Statement
import ClassdefDoc.Proofs.Parse.Resync
import ClassdefDoc.Proofs.Parse.Header
import ClassdefDoc.Proofs.Parse.Joint
import ClassdefDoc.Proofs.Parse.ClassRun
import ClassdefDoc.Proofs.Parse.HeaderLine
import ClassdefDoc.Proofs.Scan.Insert
import ClassdefDoc.Proofs.Parse.AttributeSlot
import ClassdefDoc.Proofs.Parse.Insertion
import ClassdefDoc.Proofs.Parse.AttributeLayout
import ClassdefDoc.Proofs.Scan.Boundary
import ClassdefDoc.Proofs.Parse.Walk
import ClassdefDoc.Proofs.Parse.DefaultValue
import ClassdefDoc.Proofs.Parse.BodyText
import ClassdefDoc.Proofs.Parse.MatchingEnd
import ClassdefDoc.Proofs.Scan.CellReader
import ClassdefDoc.Proofs.Parse.CellArray
import ClassdefDoc.Proofs.Scan.Literal
import ClassdefDoc.Proofs.Outline.Accessors
import ClassdefDoc.Proofs.Parse.Stream
import ClassdefDoc.Proofs.Parse.Safety
import ClassdefDoc.Proofs.Outline.ErrorPlace
import ClassdefDoc.Proofs.Outline.Returns
import ClassdefDoc.Proofs.Documentation.Macros
import ClassdefDoc.Proofs.Documentation.Pattern
import ClassdefDoc.Proofs.Documentation.Rewrite
import ClassdefDoc.Proofs.File.Name
import ClassdefDoc.Proofs.Batch.Plan
import ClassdefDoc.Proofs.Batch.OutputPath
