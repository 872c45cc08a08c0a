import SqlFilter.Main
import SqlFilter.Tree.Edit
import SqlFilter.Proofs.Conflict.Cast
import SqlFilter.Proofs.Query.Gate
import SqlFilter.Proofs.Query.PushDown
import SqlFilter.Proofs.Tree.Appended
import SqlFilter.Proofs.Tree.Stable
import SqlFilter.Proofs.Conflict.Decisions
import SqlFilter.Proofs.Query.Outcome
import SqlFilter.Proofs.Tree.Uncommented
import SqlFilter.Proofs.Tree.Alike
import SqlFilter.Proofs.Tree.Joined
import SqlFilter.Proofs.Tree.Structure
import SqlFilter.Proofs.Tree.Edited
import SqlFilter.Proofs.Json.Exchange
import SqlFilter.Proofs.Token.Located
import SqlFilter.Proofs.Tree.Watched
import SqlFilter.Proofs.Tree.Warned
import SqlFilter.Proofs.Tree.Depth
import SqlFilter.Proofs.Decimal.Digits
import SqlFilter.Proofs.Query.Columns
import SqlFilter.Proofs.Table.Qualified
import SqlFilter.Proofs.Tree.Leaves
import SqlFilter.Proofs.Tree.Integers
import SqlFilter.Proofs.Tree.Removed
import SqlFilter.Proofs.Tree.Updated
import SqlFilter.Proofs.Tree.Filtered
import SqlFilter.Proofs.Query.Shown
import SqlFilter.Proofs.Token.Lossless
