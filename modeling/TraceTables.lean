import TraceTables.Assoc
import TraceTables.Numbering
import TraceTables.Power
import TraceTables.Text.Blank
import TraceTables.Text.Alphanumeric
import TraceTables.Text.Utf8
import TraceTables.Text.Hex
import TraceTables.Number.Binary64
import TraceTables.Number.Shortest
import TraceTables.Number.Decimal
import TraceTables.Json.Value
import TraceTables.Json.Token
import TraceTables.Json.Double
import TraceTables.Json.Reader
import TraceTables.Json.Writer
import TraceTables.Json.Written
import TraceTables.Json.Record
import TraceTables.Wire.Field
import TraceTables.Wire.Reader
import TraceTables.Wire.Varint
import TraceTables.Wire.Token
import TraceTables.Wire.Message
import TraceTables.Wire.Packed
import TraceTables.Schema.Decl
import TraceTables.Schema.Registry
import TraceTables.Schema.Form
import TraceTables.Schema.Entries
import TraceTables.Schema.Load
import TraceTables.Arguments.Key
import TraceTables.Arguments.KeyTrail
import TraceTables.Arguments.Interned
import TraceTables.Arguments.Table
import TraceTables.Arguments.Fault
import TraceTables.Arguments.Scalar
import TraceTables.Arguments.Occurrence
import TraceTables.Arguments.Flattener
import TraceTables.Timeline.Slice
import TraceTables.Timeline.Counter
import TraceTables.Timeline.State
import TraceTables.Timeline.Flow
import TraceTables.Timeline.Event
import TraceTables.Timeline.Replay
import TraceTables.Settings.Path
import TraceTables.Settings.Disk
import TraceTables.Settings.Layer
import TraceTables.Settings.Load
import TraceTables.Settings.Input
import TraceTables.Settings.CommandLine
import TraceTables.Settings.Assignment
import TraceTables.Settings.Variables
import TraceTables.Program
import TraceTables.Main
import TraceTables.Proofs.Wire.Grammar
import TraceTables.Proofs.Arguments.Pieces
import TraceTables.Proofs.Text.Utf8
import TraceTables.Proofs.Arguments.Visits
import TraceTables.Proofs.Arguments.TrailWalk
import TraceTables.Proofs.Arguments.Accounting
import TraceTables.Proofs.Arguments.UnknownType
import TraceTables.Proofs.Number.Single
import TraceTables.Proofs.Wire.Writer
import TraceTables.Proofs.Arguments.Scalar
import TraceTables.Proofs.Arguments.Path
import TraceTables.Proofs.Arguments.Tree
import TraceTables.Proofs.Arguments.Flattening
import TraceTables.Proofs.Numbering
import TraceTables.Proofs.Assoc
import TraceTables.Proofs.Timeline.History
import TraceTables.Proofs.Timeline.Brackets
import TraceTables.Proofs.Timeline.Meeting
import TraceTables.Proofs.Timeline.Slices
import TraceTables.Proofs.Timeline.Nesting
import TraceTables.Proofs.Timeline.Naming
import TraceTables.Proofs.Timeline.Waiting
import TraceTables.Proofs.Timeline.Course
import TraceTables.Proofs.Timeline.Balance
import TraceTables.Proofs.Timeline.Sharing
import TraceTables.Proofs.Arguments.Within
import TraceTables.Proofs.Timeline.Renaming
import TraceTables.Proofs.Arguments.Unpacking
import TraceTables.Proofs.Arguments.Damage
import TraceTables.Proofs.Arguments.Inlining
import TraceTables.Proofs.Wire.Streaming
import TraceTables.Proofs.Arguments.Run
import TraceTables.Proofs.Arguments.Truncation
import TraceTables.Proofs.Arguments.Skipping
import TraceTables.Proofs.Arguments.Routes
import TraceTables.Proofs.Arguments.DepthLimit
import TraceTables.Proofs.Arguments.Extension
import TraceTables.Proofs.Arguments.AllowList
import TraceTables.Proofs.Timeline.Parking
import TraceTables.Proofs.Arguments.Rendering
import TraceTables.Proofs.Arguments.Unambiguous
import TraceTables.Proofs.Arguments.Outline
import TraceTables.Proofs.Arguments.Overriding
import TraceTables.Proofs.Timeline.Growth
import TraceTables.Proofs.Schema.Filing
import TraceTables.Proofs.Schema.Passes
import TraceTables.Proofs.Schema.Scopes
import TraceTables.Proofs.Schema.Declared
import TraceTables.Proofs.Schema.Reloading
import TraceTables.Proofs.Schema.FileOrder
import TraceTables.Proofs.Schema.Resolving
import TraceTables.Proofs.Arguments.Scopes
import TraceTables.Proofs.Timeline.Triples
import TraceTables.Proofs.Schema.Calls
import TraceTables.Proofs.Json.Numeral
import TraceTables.Proofs.Json.Quoted
import TraceTables.Proofs.Json.Grammar
import TraceTables.Proofs.Json.Frames
import TraceTables.Proofs.Json.Reading
import TraceTables.Proofs.Arguments.JsonLeaves
import TraceTables.Proofs.Wire.Items
import TraceTables.Proofs.Schema.FieldNumbers
import TraceTables.Proofs.Settings.Sections
import TraceTables.Proofs.Settings.Precedence
import TraceTables.Proofs.Settings.HexInput
import TraceTables.Proofs.Timeline.Strings
import TraceTables.Proofs.Wire.Packed
import TraceTables.Proofs.Arguments.Integer
import TraceTables.Proofs.Settings.HomePath
