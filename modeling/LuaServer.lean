import LuaServer.Text.Basic
import LuaServer.Text.Classes
import LuaServer.Text.Literal
import LuaServer.Text.Printable
import LuaServer.Text.Utf8
import LuaServer.Number.Digits
import LuaServer.Number.Double
import LuaServer.Number.Shortest
import LuaServer.Table
import LuaServer.Json.Value
import LuaServer.Json.Literal
import LuaServer.Json.Reader
import LuaServer.Json.Writer
import LuaServer.Toml.Scalar
import LuaServer.Toml.Document
import LuaServer.Lua.Token
import LuaServer.Lua.Fault
import LuaServer.Lua.Lexer
import LuaServer.Lua.Syntax
import LuaServer.Lua.Parser
import LuaServer.Lua.Type
import LuaServer.Lua.Issue
import LuaServer.Lua.Checker
import LuaServer.Wire.Frame
import LuaServer.Wire.Envelope
import LuaServer.Failure
import LuaServer.Uri
import LuaServer.Path
import LuaServer.Settings
import LuaServer.Config.Project
import LuaServer.Protocol.Position
import LuaServer.Protocol.Params
import LuaServer.FrontEnd
import LuaServer.Diagnostics
import LuaServer.Session.State
import LuaServer.Session.Analysis
import LuaServer.Session.Features
import LuaServer.Session.Methods
import LuaServer.Session.Dispatch
import LuaServer.Connection
import LuaServer.Listener
import LuaServer.CommandLine
import LuaServer.Launch
import LuaServer.Main
import LuaServer.Proofs.Grammar
import LuaServer.Proofs.Binding
import LuaServer.Proofs.ReaderSteps
import LuaServer.Proofs.ReaderSound
import LuaServer.Proofs.ReaderComplete
import LuaServer.Proofs.Scoping
import LuaServer.Proofs.Lexing
import LuaServer.Proofs.Resolution
import LuaServer.Proofs.Locality
import LuaServer.Proofs.Edits
import LuaServer.Proofs.Occurrences
import LuaServer.Proofs.Entries
import LuaServer.Proofs.Respelling
import LuaServer.Proofs.RenamedScopes
import LuaServer.Proofs.Renaming
import LuaServer.Proofs.Encoding
import LuaServer.Proofs.Stretches
import LuaServer.Proofs.Places
import LuaServer.Proofs.ReaderFaults
import LuaServer.Proofs.Depth
import LuaServer.Proofs.Framing
import LuaServer.Proofs.Searching
import LuaServer.Proofs.Lexemes
import LuaServer.Proofs.Roles
import LuaServer.Proofs.Acts
import LuaServer.Proofs.Inspection
import LuaServer.Proofs.Identifiers
import LuaServer.Proofs.RenameReply
import LuaServer.Proofs.Standing
import LuaServer.Proofs.Rendering
import LuaServer.Proofs.Reports
import LuaServer.Proofs.Findings
import LuaServer.Proofs.Messages
import LuaServer.Proofs.Payloads
import LuaServer.Proofs.Wordings
import LuaServer.Proofs.Coherence
import LuaServer.Proofs.Replies
import LuaServer.Proofs.Codec
import LuaServer.Proofs.Salvage
import LuaServer.Proofs.Clients
import LuaServer.Proofs.Effects
import LuaServer.Proofs.Survival
import LuaServer.Proofs.Streams
import LuaServer.Proofs.UpToDate
import LuaServer.Proofs.Refusals
import LuaServer.Proofs.Questions
import LuaServer.Proofs.Phrases
import LuaServer.Proofs.Lookahead
import LuaServer.Proofs.Readable
import LuaServer.Proofs.Courses
import LuaServer.Proofs.Progress
import LuaServer.Proofs.Stores
import LuaServer.Proofs.Acceptance
import LuaServer.Proofs.Precedence
import LuaServer.Proofs.Outline
import LuaServer.Proofs.Lifecycle
import LuaServer.Proofs.Stopping
import LuaServer.Proofs.LastWriter
import LuaServer.Proofs.Answers
import LuaServer.Proofs.Declarations
import LuaServer.Proofs.Definition
import LuaServer.Proofs.Counts
import LuaServer.Proofs.Visits
import LuaServer.Proofs.NameReports
import LuaServer.Proofs.Steps
import LuaServer.Proofs.Heads
import LuaServer.Proofs.Lines
import LuaServer.Proofs.Blame
import LuaServer.Proofs.Reach
import LuaServer.Proofs.Origins
import LuaServer.Proofs.TypeReports
import LuaServer.Proofs.Accounting
import LuaServer.Proofs.Headers
import LuaServer.Proofs.Frames
import LuaServer.Proofs.DigitRuns
import LuaServer.Proofs.StringLiterals
import LuaServer.Proofs.Rounding
import LuaServer.Proofs.Numerals
import LuaServer.Proofs.NumberTokens
import LuaServer.Proofs.LineBreaks
import LuaServer.Proofs.ContinuedStrings
import LuaServer.Proofs.StringValues
import LuaServer.Proofs.LineEndings
import LuaServer.Proofs.NewNames
import LuaServer.Proofs.Layers
import LuaServer.Proofs.Startup
import LuaServer.Proofs.Distinct
import LuaServer.Proofs.Coverage
import LuaServer.Proofs.LocalTypes
