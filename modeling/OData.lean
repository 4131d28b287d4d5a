import OData.Batch.Basic
import OData.Batch.Dispatch
import OData.Batch.Error
import OData.Batch.Layout
import OData.Batch.Response
import OData.Calendar.Date
import OData.Calendar.Duration
import OData.Calendar.Reading
import OData.Calendar.Time
import OData.Client
import OData.Client.Error
import OData.Client.Exchange
import OData.Command
import OData.Expr.Basic
import OData.Expr.Function
import OData.Expr.Operator
import OData.Fields
import OData.Format.Command
import OData.Format.Error
import OData.Format.Filter
import OData.Format.Reference
import OData.Guid
import OData.Http
import OData.Http.Head
import OData.Http.Message
import OData.Json.Basic
import OData.Json.Depth
import OData.Json.Number
import OData.Json.Parser
import OData.Multipart
import OData.Number.Decimal
import OData.Number.Floating
import OData.Number.Reading
import OData.Number.Shortest
import OData.Proofs.Address.Dialects
import OData.Proofs.Address.Expansion
import OData.Proofs.Address.Filling
import OData.Proofs.Address.Flattening
import OData.Proofs.Address.Invariance
import OData.Proofs.Address.Marks
import OData.Proofs.Address.Nesting
import OData.Proofs.Address.Parts
import OData.Proofs.Address.Query
import OData.Proofs.Address.Resolution
import OData.Proofs.Address.Shape
import OData.Proofs.Answer
import OData.Proofs.Batch.Correlation
import OData.Proofs.Batch.Headless
import OData.Proofs.Batch.Layout
import OData.Proofs.Batch.Notification
import OData.Proofs.Batch.Payload
import OData.Proofs.Batch.Reference
import OData.Proofs.Batch.Response
import OData.Proofs.Batch.Run
import OData.Proofs.Client.Paging
import OData.Proofs.Client.Sending
import OData.Proofs.Filter.Chain
import OData.Proofs.Filter.Meaning
import OData.Proofs.Filter.Operand
import OData.Proofs.Filter.Reader
import OData.Proofs.Filter.Reading
import OData.Proofs.Filter.RoundTrip
import OData.Proofs.Filter.Spelling
import OData.Proofs.Filter.Token
import OData.Proofs.Http.Head
import OData.Proofs.Http.Message
import OData.Proofs.Json.Reordered
import OData.Proofs.Json.RoundTrip
import OData.Proofs.Multipart.Boundary
import OData.Proofs.Multipart.Delimiter
import OData.Proofs.Multipart.Document
import OData.Proofs.Response.Assembly
import OData.Proofs.Response.AtomDocument
import OData.Proofs.Response.AtomElements
import OData.Proofs.Response.AtomText
import OData.Proofs.Response.Builder
import OData.Proofs.Response.Denoted
import OData.Proofs.Response.Document
import OData.Proofs.Response.EntryMembers
import OData.Proofs.Response.Expanded
import OData.Proofs.Response.Failure
import OData.Proofs.Response.Light
import OData.Proofs.Response.LightDocument
import OData.Proofs.Response.LinkMembers
import OData.Proofs.Response.Linked
import OData.Proofs.Response.MemberOrder
import OData.Proofs.Response.Notations
import OData.Proofs.Response.Outline
import OData.Proofs.Response.Part
import OData.Proofs.Response.Rearranged
import OData.Proofs.Response.Source
import OData.Proofs.Response.Stray
import OData.Proofs.Response.Verbose
import OData.Proofs.Schema.Names
import OData.Proofs.Service.Addressing
import OData.Proofs.Service.Binding
import OData.Proofs.Service.Missing
import OData.Proofs.Service.Request
import OData.Proofs.Service.Unlinking
import OData.Proofs.Text.Nested
import OData.Proofs.Text.Occurrence
import OData.Proofs.Text.Percent
import OData.Proofs.Text.Trimmed
import OData.Proofs.Xml.Attributes
import OData.Proofs.Xml.Content
import OData.Proofs.Xml.Written
import OData.Response.Builder
import OData.Response.Error
import OData.Response.Event
import OData.Response.Node
import OData.Response.OfAtom
import OData.Response.OfJson
import OData.Response.Payload
import OData.Response.TypedText
import OData.Response.VerboseDate
import OData.Schema.Basic
import OData.Schema.Resolver
import OData.Service.Basic
import OData.Service.Body
import OData.Service.Request
import OData.Service.Target
import OData.Text.AsciiCase
import OData.Text.Base64
import OData.Text.Blank
import OData.Text.Digits
import OData.Text.Octets
import OData.Text.Percent
import OData.Text.Search
import OData.Value
import OData.Value.Json
import OData.Value.Literal
import OData.Version
import OData.Xml.Tag
import OData.Xml.Token
import OData.Proofs.Schema.Declarations
import OData.Proofs.Reference.Spelled
import OData.Proofs.Reference.Operand
import OData.Proofs.Response.EmptyElements
import OData.Proofs.Filter.Operation
import OData.Proofs.Filter.Context
import OData.Proofs.Filter.Phrase
import OData.Proofs.Filter.Presence
import OData.Proofs.Text.Quoted
import OData.Proofs.Value.Literal
import OData.Proofs.Address.Key
import OData.Proofs.Address.Aliases
import OData.Proofs.Address.Ancestor
import OData.Proofs.Service.Body
import OData.Proofs.Value.Json
import OData.Proofs.Number.Rounding
import OData.Proofs.Number.Rounded
import OData.Proofs.Number.Shortest
import OData.Proofs.Number.Numeral
import OData.Proofs.Number.Decimal
import OData.Proofs.Number.Integer
import OData.Proofs.Value.Decimal
import OData.Proofs.Text.Escaped
import OData.Proofs.Calendar.Components
import OData.Proofs.Calendar.DayNumber
import OData.Proofs.Calendar.Duration
import OData.Proofs.Calendar.Moment
import OData.Proofs.Text.Base64
import OData.Proofs.Value.LiteralReading
import OData.Proofs.Json.DistinctNames
import OData.Proofs.Response.RecordData
import OData.Proofs.Response.FieldOrder
import OData.Proofs.Response.TypedText
import OData.Proofs.Response.VerboseDate
import OData.Proofs.Filter.Quotation
import OData.Proofs.Schema.Counterpart
