import BlockMarkup.Animation
import BlockMarkup.Attribute
import BlockMarkup.Bundle
import BlockMarkup.Command.Address
import BlockMarkup.Command.Arguments
import BlockMarkup.Command.Run
import BlockMarkup.Diagnostic
import BlockMarkup.Dict
import BlockMarkup.Failure
import BlockMarkup.Files.Disk
import BlockMarkup.Files.Fault
import BlockMarkup.Files.Store
import BlockMarkup.Files.Tree
import BlockMarkup.Json.Reader
import BlockMarkup.Json.Value
import BlockMarkup.Main
import BlockMarkup.Name
import BlockMarkup.Node
import BlockMarkup.Node.Indentation
import BlockMarkup.Node.Reader
import BlockMarkup.Number.Decimal
import BlockMarkup.Number.Integer
import BlockMarkup.Number.Shortest
import BlockMarkup.Page.Anchor
import BlockMarkup.Page.Html
import BlockMarkup.Page.Script
import BlockMarkup.Page.Stylesheet
import BlockMarkup.Path
import BlockMarkup.Position
import BlockMarkup.Proofs.Attribute.Animation
import BlockMarkup.Proofs.Attribute.Declarations
import BlockMarkup.Proofs.Attribute.Inline
import BlockMarkup.Proofs.Attribute.Repeated
import BlockMarkup.Proofs.Attribute.Shorthand
import BlockMarkup.Proofs.Dict
import BlockMarkup.Proofs.Files.Disk
import BlockMarkup.Proofs.Files.Faulty
import BlockMarkup.Proofs.Files.Program
import BlockMarkup.Proofs.Files.Tree
import BlockMarkup.Proofs.Json.Literal
import BlockMarkup.Proofs.Json.Pretty
import BlockMarkup.Proofs.Json.SourceMap
import BlockMarkup.Proofs.Node.Acceptance
import BlockMarkup.Proofs.Node.Complaints
import BlockMarkup.Proofs.Node.Forest
import BlockMarkup.Proofs.Node.Grammar
import BlockMarkup.Proofs.Node.Idempotence
import BlockMarkup.Proofs.Node.LineEndings
import BlockMarkup.Proofs.Node.LineMarkers
import BlockMarkup.Proofs.Node.Lines
import BlockMarkup.Proofs.Node.Nesting
import BlockMarkup.Proofs.Node.Outline
import BlockMarkup.Proofs.Node.Places
import BlockMarkup.Proofs.Node.Reading
import BlockMarkup.Proofs.Node.Relabel
import BlockMarkup.Proofs.Node.Rules
import BlockMarkup.Proofs.Node.Sound
import BlockMarkup.Proofs.Node.Unseen
import BlockMarkup.Proofs.Node.Values
import BlockMarkup.Proofs.Node.Visits
import BlockMarkup.Proofs.Node.WellFormed
import BlockMarkup.Proofs.Node.WellIndented
import BlockMarkup.Proofs.Node.Writing
import BlockMarkup.Proofs.Page.AttributeNames
import BlockMarkup.Proofs.Page.Attributes
import BlockMarkup.Proofs.Page.Body
import BlockMarkup.Proofs.Page.Comments
import BlockMarkup.Proofs.Page.Css
import BlockMarkup.Proofs.Page.Failures
import BlockMarkup.Proofs.Page.Hidden
import BlockMarkup.Proofs.Page.LiveReload
import BlockMarkup.Proofs.Page.Lookup
import BlockMarkup.Proofs.Page.Markup
import BlockMarkup.Proofs.Page.Preorder
import BlockMarkup.Proofs.Page.ReadBack
import BlockMarkup.Proofs.Page.Script
import BlockMarkup.Proofs.Page.Shown
import BlockMarkup.Proofs.Page.SourceMap
import BlockMarkup.Proofs.Page.Stylesheet
import BlockMarkup.Proofs.Page.Styling
import BlockMarkup.Proofs.Page.Values
import BlockMarkup.Proofs.Page.Visible
import BlockMarkup.Proofs.Path.Components
import BlockMarkup.Proofs.Site.Agreement
import BlockMarkup.Proofs.Site.Cleaning
import BlockMarkup.Proofs.Site.Discovery
import BlockMarkup.Proofs.Site.Finality
import BlockMarkup.Proofs.Site.Interleaving
import BlockMarkup.Proofs.Site.Jobs
import BlockMarkup.Proofs.Site.Links
import BlockMarkup.Proofs.Site.OutputPlaces
import BlockMarkup.Proofs.Site.Overlaps
import BlockMarkup.Proofs.Site.Rollback
import BlockMarkup.Proofs.Site.Walk
import BlockMarkup.Proofs.Text.Blank
import BlockMarkup.Proofs.Text.Place
import BlockMarkup.Proofs.Text.Words
import BlockMarkup.Proofs.Token.Decisions
import BlockMarkup.Proofs.Token.Faults
import BlockMarkup.Proofs.Token.LineEndings
import BlockMarkup.Proofs.Token.Literals
import BlockMarkup.Proofs.Token.OpenList
import BlockMarkup.Proofs.Token.Orderly
import BlockMarkup.Proofs.Token.Sound
import BlockMarkup.Proofs.Token.Starts
import BlockMarkup.Proofs.Token.TextRuns
import BlockMarkup.Proofs.Token.Tiling
import BlockMarkup.Proofs.Token.Unplaced
import BlockMarkup.Proofs.Token.Written
import BlockMarkup.Proofs.Token.Zones
import BlockMarkup.Settings
import BlockMarkup.Settings.Environment
import BlockMarkup.Settings.File
import BlockMarkup.Settings.Value
import BlockMarkup.Site.Draft
import BlockMarkup.Site.Outputs
import BlockMarkup.Site.Pipeline
import BlockMarkup.Site.Project
import BlockMarkup.Site.Sources
import BlockMarkup.SourceMap
import BlockMarkup.SourceMap.Json
import BlockMarkup.Style
import BlockMarkup.Text.Blank
import BlockMarkup.Text.Lossy
import BlockMarkup.Text.Quoted
import BlockMarkup.Text.Uppercase
import BlockMarkup.Token
import BlockMarkup.Token.Lookahead
import BlockMarkup.Token.Scan
import BlockMarkup.Validation
import BlockMarkup.Yaml.Cursor
import BlockMarkup.Yaml.Literal
import BlockMarkup.Yaml.Plain
import BlockMarkup.Yaml.Quoted
import BlockMarkup.Yaml.Scalar
import BlockMarkup.Yaml.Scan
import BlockMarkup.Yaml.Tag
import BlockMarkup.Yaml.Token
import BlockMarkup.Yaml.Tree
import BlockMarkup.Yaml.Writer
