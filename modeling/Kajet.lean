import Kajet.Access.Answers
import Kajet.Chunks.Fresh
import Kajet.Chunks.Spread
import Kajet.Collections.Entries
import Kajet.Collections.Legal
import Kajet.Collections.Registry
import Kajet.Collections.Sessions
import Kajet.Collections.Sibling
import Kajet.Dates.Backfill
import Kajet.Dates.Exclusive
import Kajet.Dates.Listing
import Kajet.Edit.Outline
import Kajet.Embedding.Handler
import Kajet.Embedding.Reports
import Kajet.Events.Delivery
import Kajet.Folders.Export
import Kajet.Folders.Lossless
import Kajet.Folders.Metadata
import Kajet.Folders.Natural
import Kajet.Frontmatter.Document
import Kajet.Graph.Paged
import Kajet.History.Walk
import Kajet.Lib.Fallible
import Kajet.Lib.FileTree
import Kajet.Lib.Pattern
import Kajet.Lib.Round
import Kajet.Lib.Runs
import Kajet.Links.Acknowledge
import Kajet.Links.RoundTrip
import Kajet.Links.Scanner
import Kajet.Links.Survive
import Kajet.Markdown.Chunking
import Kajet.Notices.Episodes
import Kajet.OAuth.Consent
import Kajet.Share.Preview
import Kajet.OAuth.Rotation
import Kajet.OAuth.Wipe
import Kajet.Paths.Batch
import Kajet.Paths.Own
import Kajet.Paths.Room
import Kajet.Paths.Stable
import Kajet.Profiles.Active
import Kajet.Push.Sync
import Kajet.Queue.Batch
import Kajet.Queue.Commit
import Kajet.Queue.Fence
import Kajet.Queue.Lease
import Kajet.Reconcile.Isolation
import Kajet.Reindex.Adopted
import Kajet.Reindex.BadFiles
import Kajet.Reindex.FixedPoint
import Kajet.Reindex.Refusal
import Kajet.Repair.Converge
import Kajet.Search.Execute
import Kajet.Search.Grep
import Kajet.Search.FullText
import Kajet.Search.Query
import Kajet.Search.Related
import Kajet.Tags.Browse
import Kajet.Tags.Rename
import Kajet.Tags.Shape
import Kajet.Teardown.Scopes
import Kajet.Workspaces.Final
import Kajet.Write.Delete
import Kajet.Write.Index
import Kajet.Write.Transaction
import Kajet.Write.Versions
