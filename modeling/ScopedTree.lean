import ScopedTree.Arena.Report
import ScopedTree.Pass.Plugin
import ScopedTree.Proofs.Constant.Exact
import ScopedTree.Proofs.Constant.Sound
import ScopedTree.Proofs.Edit.Declared
import ScopedTree.Proofs.Edit.Generated
import ScopedTree.Proofs.Arena.Reshape
import ScopedTree.Proofs.Pass.Traverse
import ScopedTree.Proofs.Path.Seats
import ScopedTree.Proofs.Scope.Hygiene
import ScopedTree.Proofs.Scope.Reads
import ScopedTree.Scope.Snapshot
import ScopedTree.Source.LogFormat
import ScopedTree.Tree.Report
import ScopedTree.Typing.Infer
import ScopedTree.Proofs.Edit.Entries
import ScopedTree.Proofs.Scope.Placement
import ScopedTree.Proofs.Edit.Updates
import ScopedTree.Proofs.Pass.Errands
import ScopedTree.Proofs.Path.Routes
import ScopedTree.Proofs.Scope.Requests
import ScopedTree.Proofs.Edit.Refused
import ScopedTree.Proofs.Edit.Conduct
import ScopedTree.Proofs.Edit.Temporaries
import ScopedTree.Proofs.Edit.Consistent
import ScopedTree.Proofs.Edit.Homes
import ScopedTree.Proofs.Pass.Nested
import ScopedTree.Proofs.Arena.Copy
import ScopedTree.Proofs.Typing.Union
import ScopedTree.Proofs.Edit.Renumber
import ScopedTree.Proofs.Path.Order
import ScopedTree.Proofs.Path.Common
import ScopedTree.Proofs.Path.Completion
import ScopedTree.Proofs.Path.Blind
import ScopedTree.Proofs.Scope.Policy
import ScopedTree.Proofs.Scope.Purity
import ScopedTree.Proofs.Scope.Unread
import ScopedTree.Proofs.Scope.Spelling
import ScopedTree.Proofs.Pass.Merge
import ScopedTree.Proofs.Edit.Comments
import ScopedTree.Proofs.Edit.Flags
import ScopedTree.Proofs.Typing.Queries
import ScopedTree.Proofs.Number.Numerals
import ScopedTree.Proofs.Edit.Indexed
import ScopedTree.Proofs.Arena.Tour
import ScopedTree.Proofs.Scope.Patterns
