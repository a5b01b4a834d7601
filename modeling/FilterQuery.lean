import FilterQuery.Main
import FilterQuery.Query.Change
import FilterQuery.Query.OfJson
import FilterQuery.Query.Outline
import FilterQuery.Target.Record
import FilterQuery.Proofs.Parser.Run
import FilterQuery.Proofs.Parser.Sound
import FilterQuery.Proofs.Tree.Places
import FilterQuery.Proofs.Parser.Skipped
import FilterQuery.Proofs.Parser.Finds
import FilterQuery.Proofs.Parser.Complete
import FilterQuery.Proofs.Token.Cut
import FilterQuery.Proofs.Token.Tiling
import FilterQuery.Proofs.Query.Lookup
import FilterQuery.Proofs.Query.Accepted
import FilterQuery.Proofs.Sql.Joins
import FilterQuery.Proofs.Sql.Meaning
import FilterQuery.Proofs.Sql.ReadBack
import FilterQuery.Proofs.Target.Watched
import FilterQuery.Proofs.Sql.Scoped
import FilterQuery.Proofs.Sql.Masked
import FilterQuery.Proofs.Query.Built
import FilterQuery.Proofs.Query.Spelled
import FilterQuery.Proofs.Query.Literals
import FilterQuery.Proofs.Sql.Params
import FilterQuery.Proofs.Token.Scans
import FilterQuery.Proofs.Query.Canonical
import FilterQuery.Proofs.Query.RoundTrip
import FilterQuery.Proofs.Double.Layout
import FilterQuery.Proofs.Json.ReadBack
import FilterQuery.Proofs.Query.JsonValue
import FilterQuery.Proofs.Query.JsonText
import FilterQuery.Proofs.Query.Nesting
import FilterQuery.Proofs.Parser.Complaints
import FilterQuery.Proofs.Query.Rejected
import FilterQuery.Proofs.Query.Blank
import FilterQuery.Proofs.Tree.Kept
import FilterQuery.Proofs.Query.Shape
import FilterQuery.Proofs.Tree.Reworded
import FilterQuery.Proofs.Parser.Twins
import FilterQuery.Proofs.Token.Moved
import FilterQuery.Proofs.Query.Alike
import FilterQuery.Proofs.Query.Composed
import FilterQuery.Proofs.Target.Demands
import FilterQuery.Proofs.Sql.Translated
import FilterQuery.Proofs.Parser.Confined
import FilterQuery.Proofs.Parser.Recovery
import FilterQuery.Proofs.Parser.Limits
import FilterQuery.Proofs.Token.Munch
import FilterQuery.Proofs.Token.Spaced
import FilterQuery.Proofs.Token.LineColumn
import FilterQuery.Proofs.Target.Valid
import FilterQuery.Proofs.Target.Linear
import FilterQuery.Proofs.Sql.Quoted
import FilterQuery.Proofs.Sql.Placeholders
import FilterQuery.Proofs.Sql.Resolved
import FilterQuery.Proofs.Query.Known
import FilterQuery.Proofs.Query.Dotted
import FilterQuery.Proofs.Report.Merged
import FilterQuery.Proofs.Double.Finite
import FilterQuery.Proofs.Query.Reread
import FilterQuery.Proofs.Parser.EndMark
import FilterQuery.Proofs.Parser.Closing
import FilterQuery.Proofs.Parser.Progress
