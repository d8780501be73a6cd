import MethodBrowser.CommandLine.Arguments
import MethodBrowser.CommandLine.Config
import MethodBrowser.CommandLine.Files
import MethodBrowser.CommandLine.Invocation
import MethodBrowser.CommandLine.Report
import MethodBrowser.CommandLine.Run
import MethodBrowser.Dictionary
import MethodBrowser.Diff.Basic
import MethodBrowser.Diff.Script
import MethodBrowser.Diff.Snake
import MethodBrowser.Diff.Unified
import MethodBrowser.Edit
import MethodBrowser.Header
import MethodBrowser.Image.Basic
import MethodBrowser.Image.Method
import MethodBrowser.Image.Snapshot
import MethodBrowser.Json.Basic
import MethodBrowser.Json.Numeral
import MethodBrowser.Json.Reader
import MethodBrowser.Main
import MethodBrowser.Outline
import MethodBrowser.Plan.AddParameter
import MethodBrowser.Plan.Basic
import MethodBrowser.Plan.ExtractMethod
import MethodBrowser.Plan.Failure
import MethodBrowser.Plan.Forwarder
import MethodBrowser.Plan.InlineMethod
import MethodBrowser.Plan.MoveMethod
import MethodBrowser.Plan.RemoveParameter
import MethodBrowser.Plan.RenameMethod
import MethodBrowser.Plan.RenameSelector
import MethodBrowser.Plan.Renaming
import MethodBrowser.Proofs.AlignedStatements
import MethodBrowser.Proofs.BodyCoverage
import MethodBrowser.Proofs.CharacterPayload
import MethodBrowser.Proofs.CommandLine.Saving
import MethodBrowser.Proofs.Dictionary
import MethodBrowser.Proofs.Edit.AnyOrder
import MethodBrowser.Proofs.Edit.KeywordEdits
import MethodBrowser.Proofs.Edit.RenameComplete
import MethodBrowser.Proofs.Edit.RenameStructure
import MethodBrowser.Proofs.Edit.Respelling
import MethodBrowser.Proofs.Edit.Splice
import MethodBrowser.Proofs.Edit.UnaryEdits
import MethodBrowser.Proofs.Edit.UnaryStructure
import MethodBrowser.Proofs.Header.Exchange
import MethodBrowser.Proofs.Header.FirstLine
import MethodBrowser.Proofs.Header.Keywords
import MethodBrowser.Proofs.Header.Signature
import MethodBrowser.Proofs.Image.Changes
import MethodBrowser.Proofs.Image.Inheritance
import MethodBrowser.Proofs.Image.Questions
import MethodBrowser.Proofs.Image.Reachable
import MethodBrowser.Proofs.Image.Snapshots
import MethodBrowser.Proofs.Json.Reread
import MethodBrowser.Proofs.LiteralIndependence
import MethodBrowser.Proofs.Plan.AddedParameter
import MethodBrowser.Proofs.Plan.Announced
import MethodBrowser.Proofs.Plan.Argument
import MethodBrowser.Proofs.Plan.BodyWrites
import MethodBrowser.Proofs.Plan.ExtractFaithful
import MethodBrowser.Proofs.Plan.Forwarding
import MethodBrowser.Proofs.Plan.InlineExchange
import MethodBrowser.Proofs.Plan.InlineOnce
import MethodBrowser.Proofs.Plan.InlineSites
import MethodBrowser.Proofs.Plan.InlineTemporaries
import MethodBrowser.Proofs.Plan.Interrupted
import MethodBrowser.Proofs.Plan.Misfiled
import MethodBrowser.Proofs.Plan.ParameterRoundTrip
import MethodBrowser.Proofs.Plan.RemovedParameter
import MethodBrowser.Proofs.Plan.RenameEverywhere
import MethodBrowser.Proofs.Plan.RenameOverwrite
import MethodBrowser.Proofs.Plan.RenameSenders
import MethodBrowser.Proofs.Plan.RenameWrites
import MethodBrowser.Proofs.Plan.Renaming
import MethodBrowser.Proofs.Plan.Selection
import MethodBrowser.Proofs.Plan.SignatureWrites
import MethodBrowser.Proofs.Plan.WriteSet
import MethodBrowser.Proofs.Selector
import MethodBrowser.Proofs.Send.AlignedKeyword
import MethodBrowser.Proofs.Send.AlignedSimple
import MethodBrowser.Proofs.Send.ExcerptSends
import MethodBrowser.Proofs.Send.KeywordPartition
import MethodBrowser.Proofs.Send.Messages
import MethodBrowser.Proofs.Send.Recognition
import MethodBrowser.Proofs.Send.Runs
import MethodBrowser.Proofs.Send.Scan
import MethodBrowser.Proofs.Send.SelfSend
import MethodBrowser.Proofs.Send.Spelling
import MethodBrowser.Proofs.Send.Starts
import MethodBrowser.Proofs.Send.Tokens
import MethodBrowser.Proofs.Source.AlignedRegion
import MethodBrowser.Proofs.Source.AlignedTokens
import MethodBrowser.Proofs.Source.Alignment
import MethodBrowser.Proofs.Source.Balance
import MethodBrowser.Proofs.Source.Body
import MethodBrowser.Proofs.Source.CharacterSpans
import MethodBrowser.Proofs.Source.Characters
import MethodBrowser.Proofs.Source.Clauses
import MethodBrowser.Proofs.Source.Counters
import MethodBrowser.Proofs.Source.Cuts
import MethodBrowser.Proofs.Source.Excerpt
import MethodBrowser.Proofs.Source.ExcerptRegion
import MethodBrowser.Proofs.Source.KeptPreamble
import MethodBrowser.Proofs.Source.Lexemes
import MethodBrowser.Proofs.Source.LiteralContents
import MethodBrowser.Proofs.Source.Marks
import MethodBrowser.Proofs.Source.MovedClauses
import MethodBrowser.Proofs.Source.Occurrences
import MethodBrowser.Proofs.Source.PlainCode
import MethodBrowser.Proofs.Source.Positions
import MethodBrowser.Proofs.Source.Preamble
import MethodBrowser.Proofs.Source.Sides
import MethodBrowser.Proofs.Source.Text
import MethodBrowser.Proofs.StatementLayout
import MethodBrowser.Proofs.StatementSends
import MethodBrowser.Proofs.StatementTexts
import MethodBrowser.Proofs.WholeCharacters
import MethodBrowser.Refactoring
import MethodBrowser.Selector
import MethodBrowser.Send.Basic
import MethodBrowser.Send.Detect
import MethodBrowser.Send.Keyword
import MethodBrowser.Send.Scan
import MethodBrowser.Send.Simple
import MethodBrowser.Source.Basic
import MethodBrowser.Source.Literal
import MethodBrowser.Source.Marks
import MethodBrowser.Source.Nesting
import MethodBrowser.Source.Position
import MethodBrowser.Source.Preamble
import MethodBrowser.Source.Token
import MethodBrowser.Span
import MethodBrowser.Statement
import MethodBrowser.Text.Digit
import MethodBrowser.Text.Double
import MethodBrowser.Text.Space
import MethodBrowser.Toml.Basic
import MethodBrowser.Toml.Reader
import MethodBrowser.Toml.Scalar
