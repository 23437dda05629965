import KeepRules.Main
import KeepRules.Sample.Check
import KeepRules.Sample.Directory
import KeepRules.Sample.Fixture
import KeepRules.Sample.Generate
import KeepRules.Sample.Survey
import KeepRules.Proofs.Access
import KeepRules.Proofs.Words
import KeepRules.Proofs.Reading
import KeepRules.Proofs.Lines
import KeepRules.Proofs.Bytes
import KeepRules.Proofs.Property
import KeepRules.Proofs.Descriptor
import KeepRules.Proofs.Descriptor.Grammar
import KeepRules.Proofs.Descriptor.Canonical
import KeepRules.Proofs.ClassPath
import KeepRules.Proofs.Agreement
import KeepRules.Proofs.Rule.Grammar
import KeepRules.Proofs.Rule.Parsing
import KeepRules.Proofs.Rule.WellFormed
import KeepRules.Proofs.Rule.Printing
import KeepRules.Proofs.Rule.Comments
import KeepRules.Proofs.Configuration.Directives
import KeepRules.Proofs.Configuration.Effects
import KeepRules.Proofs.Configuration.WellFormed
import KeepRules.Proofs.Configuration.Segments
import KeepRules.Proofs.Configuration.Printing
import KeepRules.Proofs.Configuration.Rereading
import KeepRules.Proofs.Configuration.RoundTrip
import KeepRules.Proofs.Configuration.Agreement
import KeepRules.Proofs.Configuration.Foundation
import KeepRules.Proofs.Configuration.Continuation
import KeepRules.Proofs.Configuration.Texts
import KeepRules.Proofs.Configuration.Steps
import KeepRules.Proofs.Configuration.Inlining
import KeepRules.Proofs.Configuration.Replay
import KeepRules.Proofs.Configuration.Cycle
import KeepRules.Proofs.Configuration.Termination
import KeepRules.Proofs.Configuration.Invariant
import KeepRules.Proofs.Configuration.Location
import KeepRules.Proofs.Stack
import KeepRules.Proofs.Tokens
import KeepRules.Proofs.Configuration.Layout
import KeepRules.Proofs.Json
import KeepRules.Proofs.Configuration.Dispatches
import KeepRules.Proofs.Configuration.Fields
import KeepRules.Proofs.Configuration.Attributes
import KeepRules.Proofs.Configuration.Comments
import KeepRules.Proofs.Configuration.Files
import KeepRules.Proofs.Configuration.Brackets
import KeepRules.Proofs.Rewording
import KeepRules.Proofs.Configuration.Abbreviations
import KeepRules.Proofs.Rule.Modifiers
import KeepRules.Proofs.Configuration.OpenRules
import KeepRules.Proofs.Configuration.Modifiers
