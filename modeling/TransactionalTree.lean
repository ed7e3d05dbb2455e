import TransactionalTree.Config.File
import TransactionalTree.Json.Reader
import TransactionalTree.Proofs.Accounts
import TransactionalTree.Proofs.Alone
import TransactionalTree.Proofs.Atomicity
import TransactionalTree.Proofs.Contents
import TransactionalTree.Proofs.Overlay
import TransactionalTree.Proofs.OwnWrites
import TransactionalTree.Proofs.RepeatableRead
import TransactionalTree.Proofs.SpuriousSkew
import TransactionalTree.Proofs.StrictLocking
import TransactionalTree.Proofs.Undoing
import TransactionalTree.Report.Facts
import TransactionalTree.Report.Session
import TransactionalTree.Session.Thread
import TransactionalTree.SharedTree
import TransactionalTree.Value.Tagged
import TransactionalTree.Proofs.SingleWriter
import TransactionalTree.Proofs.Removals
import TransactionalTree.Proofs.Replay
import TransactionalTree.Proofs.RolledBack
import TransactionalTree.Proofs.Revivals
import TransactionalTree.Proofs.OwnOptions
import TransactionalTree.Proofs.Relocations
import TransactionalTree.Proofs.Counter
import TransactionalTree.Proofs.Listings
import TransactionalTree.Proofs.Tombstones
import TransactionalTree.Proofs.Ledgers
import TransactionalTree.Proofs.Lifecycle
import TransactionalTree.Proofs.CallsAlone
import TransactionalTree.Proofs.References
import TransactionalTree.Proofs.Completions
import TransactionalTree.Proofs.Exclusion
import TransactionalTree.Proofs.RootRemoval
import TransactionalTree.Proofs.BeforeImages
import TransactionalTree.Proofs.LockLists
import TransactionalTree.Proofs.LockObjects
import TransactionalTree.Proofs.PathTexts
import TransactionalTree.Proofs.Subtrees
import TransactionalTree.Proofs.Purging
import TransactionalTree.Proofs.RefusedMoves
import TransactionalTree.Proofs.Equality
import TransactionalTree.Proofs.PathDocuments
import TransactionalTree.Proofs.Documents
import TransactionalTree.Proofs.ConfigTexts
import TransactionalTree.Proofs.Searches
import TransactionalTree.Proofs.Nesting
import TransactionalTree.Proofs.GoodNames
import TransactionalTree.Proofs.Sections
