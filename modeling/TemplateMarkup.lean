import TemplateMarkup.Code.Hosts
import TemplateMarkup.Code.Script
import TemplateMarkup.Cursor.Lemmas
import TemplateMarkup.Main
import TemplateMarkup.Proofs.Balance
import TemplateMarkup.Proofs.Replay
import TemplateMarkup.Proofs.Path
import TemplateMarkup.Proofs.Progress
import TemplateMarkup.Proofs.HostFrame
import TemplateMarkup.Proofs.Lawful
import TemplateMarkup.Proofs.Scanning
import TemplateMarkup.Proofs.Attributes
import TemplateMarkup.Proofs.Implicit
import TemplateMarkup.Proofs.Lossless
import TemplateMarkup.Proofs.Lexing
import TemplateMarkup.Proofs.Outcome
import TemplateMarkup.Proofs.TagMachine
import TemplateMarkup.Proofs.TagSequence
import TemplateMarkup.Proofs.RoundTrip
import TemplateMarkup.Proofs.Comments
import TemplateMarkup.Proofs.FreeScans
import TemplateMarkup.Proofs.OpenFrames
import TemplateMarkup.Proofs.SilentTags
import TemplateMarkup.Proofs.StartTags
import TemplateMarkup.Proofs.Safety
import TemplateMarkup.Proofs.Silence
import TemplateMarkup.Proofs.Escapes
import TemplateMarkup.Proofs.CodeCalls
import TemplateMarkup.Proofs.Parallel.Likeness
import TemplateMarkup.Proofs.Parallel.Cursors
import TemplateMarkup.Proofs.Parallel.Attributes
import TemplateMarkup.Proofs.Parallel.Tags
import TemplateMarkup.Proofs.Parallel.Units
import TemplateMarkup.Proofs.Parallel.Parses
import TemplateMarkup.Proofs.Parallel.Expressions
import TemplateMarkup.Proofs.CaseFolding
import TemplateMarkup.Proofs.DesignTime
import TemplateMarkup.Proofs.LineEndings
import TemplateMarkup.Proofs.NestedRegions
import TemplateMarkup.Proofs.Schema
import TemplateMarkup.Proofs.SingleLine
import TemplateMarkup.Proofs.Reporting
import TemplateMarkup.Proofs.Pointing
import TemplateMarkup.Proofs.HandOff
import TemplateMarkup.Proofs.TokenTable
import TemplateMarkup.Proofs.ScriptBodies
import TemplateMarkup.Proofs.CommentBodies
import TemplateMarkup.Proofs.Indentation
import TemplateMarkup.Proofs.InlineComments
import TemplateMarkup.Proofs.ExpressionExtents
import TemplateMarkup.Proofs.Sections
import TemplateMarkup.Proofs.AnsweredEndings
import TemplateMarkup.Proofs.CommentLines
import TemplateMarkup.Proofs.AttributeForms
import TemplateMarkup.Proofs.ScriptTypes
import TemplateMarkup.Proofs.TagWalks
import TemplateMarkup.Proofs.TextTags
import TemplateMarkup.Proofs.VoidElements
import TemplateMarkup.Proofs.Dumps
import TemplateMarkup.Proofs.Preorder
import TemplateMarkup.Proofs.TomlStrings
import TemplateMarkup.Proofs.TomlDocuments
import TemplateMarkup.Proofs.SettingsFiles
import TemplateMarkup.Proofs.MissingTokens
import TemplateMarkup.Proofs.UnfinishedTags
import TemplateMarkup.Proofs.ArgumentGroups
import TemplateMarkup.Proofs.Tapes
import TemplateMarkup.Proofs.CursorClients
