import SchemaContract.CommandLine
import SchemaContract.Contract.Clause
import SchemaContract.Contract.Declaration
import SchemaContract.Contract.Draft
import SchemaContract.Contract.Layout
import SchemaContract.Contract.Primitive
import SchemaContract.Contract.Program
import SchemaContract.Contract.TypeText
import SchemaContract.Engine.Call
import SchemaContract.Engine.Failure
import SchemaContract.Engine.Settings
import SchemaContract.Engine.Toolchain
import SchemaContract.Files.FileSystem
import SchemaContract.Files.Path
import SchemaContract.Files.Snapshot
import SchemaContract.Found
import SchemaContract.Grammar.Declaration
import SchemaContract.Grammar.Expression
import SchemaContract.Grammar.Reading
import SchemaContract.Grammar.Skip
import SchemaContract.Grammar.Statement
import SchemaContract.Json.Fault
import SchemaContract.Json.Number
import SchemaContract.Json.Printer
import SchemaContract.Json.Quoted
import SchemaContract.Json.Reader
import SchemaContract.Json.Value
import SchemaContract.Main
import SchemaContract.Number.Binary64
import SchemaContract.Number.Places
import SchemaContract.Number.Shortest
import SchemaContract.Number.Spelling
import SchemaContract.Proofs.CommandLine.Options
import SchemaContract.Proofs.CommandLine.Runs
import SchemaContract.Proofs.Contract.Abbreviations
import SchemaContract.Proofs.Contract.Conditions
import SchemaContract.Proofs.Contract.Grouping
import SchemaContract.Proofs.Contract.Invariants
import SchemaContract.Proofs.Contract.Isolation
import SchemaContract.Proofs.Contract.Lines
import SchemaContract.Proofs.Contract.Outcome
import SchemaContract.Proofs.Contract.Patterns
import SchemaContract.Proofs.Contract.Policies
import SchemaContract.Proofs.Contract.Readable
import SchemaContract.Proofs.Contract.Run
import SchemaContract.Proofs.Contract.Stripped
import SchemaContract.Proofs.Contract.Translator
import SchemaContract.Proofs.Engine.Arguments
import SchemaContract.Proofs.Engine.Entrypoints
import SchemaContract.Proofs.Engine.Generation
import SchemaContract.Proofs.Engine.Messages
import SchemaContract.Proofs.Engine.Trials
import SchemaContract.Proofs.Files.Writing
import SchemaContract.Proofs.Grammar.Blocks
import SchemaContract.Proofs.Grammar.Complete
import SchemaContract.Proofs.Grammar.CompleteProgram
import SchemaContract.Proofs.Grammar.Cut
import SchemaContract.Proofs.Grammar.Derivation
import SchemaContract.Proofs.Grammar.Following
import SchemaContract.Proofs.Grammar.Gives
import SchemaContract.Proofs.Grammar.Names
import SchemaContract.Proofs.Grammar.Paths
import SchemaContract.Proofs.Grammar.Placed
import SchemaContract.Proofs.Grammar.Seams
import SchemaContract.Proofs.Grammar.Shape
import SchemaContract.Proofs.Grammar.Sound
import SchemaContract.Proofs.Grammar.SoundProgram
import SchemaContract.Proofs.Grammar.Unambiguous
import SchemaContract.Proofs.Grammar.Viable
import SchemaContract.Proofs.Grammar.ViableDeclaration
import SchemaContract.Proofs.Grammar.ViableProgram
import SchemaContract.Proofs.Json.Pretty
import SchemaContract.Proofs.Number.Basins
import SchemaContract.Proofs.Number.Shortest
import SchemaContract.Proofs.Number.Text
import SchemaContract.Proofs.Schema.Cutting
import SchemaContract.Proofs.Schema.Followed
import SchemaContract.Proofs.Schema.Gaps
import SchemaContract.Proofs.Schema.Joined
import SchemaContract.Proofs.Schema.Lossless
import SchemaContract.Proofs.Schema.Pieces
import SchemaContract.Proofs.Schema.Positions
import SchemaContract.Proofs.Schema.Rendered
import SchemaContract.Proofs.Schema.Spelling
import SchemaContract.Proofs.Schema.WellFormed
import SchemaContract.Proofs.Shell.Launches
import SchemaContract.Proofs.Shell.Lines
import SchemaContract.Proofs.Shell.Patterns
import SchemaContract.Proofs.Text.Utf8
import SchemaContract.Proofs.Walk.Declarations
import SchemaContract.Proofs.Walk.Inside
import SchemaContract.Proofs.Walk.Progress
import SchemaContract.Proofs.Walk.Recovery
import SchemaContract.Proofs.Walk.Rounds
import SchemaContract.Proofs.Walk.Rules
import SchemaContract.Schema.Lexeme
import SchemaContract.Schema.Position
import SchemaContract.Schema.Rendering
import SchemaContract.Schema.Source
import SchemaContract.Schema.SyntaxError
import SchemaContract.Schema.Token
import SchemaContract.Schema.Tree
import SchemaContract.Shell.Arithmetic
import SchemaContract.Shell.Builtin
import SchemaContract.Shell.Chars
import SchemaContract.Shell.Expansion
import SchemaContract.Shell.Field
import SchemaContract.Shell.Integer
import SchemaContract.Shell.Pattern
import SchemaContract.Shell.Printf
import SchemaContract.Shell.Reading
import SchemaContract.Shell.Regex
import SchemaContract.Shell.Run
import SchemaContract.Shell.Script
import SchemaContract.Shell.Session
import SchemaContract.Shell.Stream
import SchemaContract.Shell.Test
import SchemaContract.Shell.Utility.Files
import SchemaContract.Shell.Utility.Lines
import SchemaContract.Shell.Utility.Options
import SchemaContract.Shell.Utility.Search
import SchemaContract.Shell.Utility.Table
import SchemaContract.Text.Blank
import SchemaContract.Text.Utf8
