import RomLedger.BloomFilter.Artifact
import RomLedger.BloomFilter.Basic
import RomLedger.BloomFilter.Stored
import RomLedger.Bytes
import RomLedger.Bytes.Hex
import RomLedger.Bytes.Sha1
import RomLedger.Bytes.Utf8
import RomLedger.Catalog.Basic
import RomLedger.Catalog.Coercion
import RomLedger.Catalog.Source
import RomLedger.Clr.Lexer
import RomLedger.Clr.Statement
import RomLedger.Clr.Token
import RomLedger.Command.Arguments
import RomLedger.Command.LogFilter
import RomLedger.Command.Lookup
import RomLedger.Command.Note
import RomLedger.Command.Run
import RomLedger.Command.Table
import RomLedger.Config
import RomLedger.Decimal.Fixed
import RomLedger.Decimal.Shortest
import RomLedger.Depot.Basic
import RomLedger.Depot.Generation
import RomLedger.Depot.Root
import RomLedger.Disk.Basic
import RomLedger.Disk.Path
import RomLedger.Disk.Walk
import RomLedger.Feed
import RomLedger.Index.Archive
import RomLedger.Index.Basic
import RomLedger.Index.Batch
import RomLedger.Index.Query
import RomLedger.Index.Stored
import RomLedger.Json.Fault
import RomLedger.Json.Number
import RomLedger.Json.Reader
import RomLedger.Json.Record
import RomLedger.Json.Skip
import RomLedger.Json.Text
import RomLedger.Json.Value
import RomLedger.Main
import RomLedger.Markup.Cursor
import RomLedger.Markup.Datafile
import RomLedger.Markup.Document
import RomLedger.Markup.Entity
import RomLedger.Markup.Fault
import RomLedger.Markup.Piece
import RomLedger.Markup.Schema
import RomLedger.Markup.Scope
import RomLedger.Markup.Tag
import RomLedger.Markup.Tape
import RomLedger.Proofs.BloomFilter.Artifact
import RomLedger.Proofs.BloomFilter.Attempts
import RomLedger.Proofs.BloomFilter.Bits
import RomLedger.Proofs.BloomFilter.Bounds
import RomLedger.Proofs.BloomFilter.Codec
import RomLedger.Proofs.BloomFilter.Membership
import RomLedger.Proofs.BloomFilter.Stored
import RomLedger.Proofs.Bytes.Collision
import RomLedger.Proofs.Bytes.Sha1
import RomLedger.Proofs.Bytes.Utf8
import RomLedger.Proofs.Bytes.Words
import RomLedger.Proofs.Catalog.Coercion
import RomLedger.Proofs.Catalog.Digest
import RomLedger.Proofs.Catalog.Failing
import RomLedger.Proofs.Catalog.Hashes
import RomLedger.Proofs.Catalog.Normal
import RomLedger.Proofs.Catalog.Passing
import RomLedger.Proofs.Catalog.Records
import RomLedger.Proofs.Catalog.Sizes
import RomLedger.Proofs.Clr.Dropping
import RomLedger.Proofs.Clr.Idle
import RomLedger.Proofs.Clr.Joining
import RomLedger.Proofs.Clr.Layout
import RomLedger.Proofs.Clr.Lines
import RomLedger.Proofs.Clr.Mark
import RomLedger.Proofs.Clr.Nesting
import RomLedger.Proofs.Clr.Permuting
import RomLedger.Proofs.Clr.Portions
import RomLedger.Proofs.Clr.Printing
import RomLedger.Proofs.Clr.Progress
import RomLedger.Proofs.Clr.Rendering
import RomLedger.Proofs.Clr.Scanning
import RomLedger.Proofs.Clr.Tokens
import RomLedger.Proofs.Clr.Unknown
import RomLedger.Proofs.Command.Lookup
import RomLedger.Proofs.Config
import RomLedger.Proofs.Depot.Crash
import RomLedger.Proofs.Depot.Floor
import RomLedger.Proofs.Depot.Generation
import RomLedger.Proofs.Depot.Isolation
import RomLedger.Proofs.Depot.Membership
import RomLedger.Proofs.Depot.Reopening
import RomLedger.Proofs.Depot.Root
import RomLedger.Proofs.Depot.Sums
import RomLedger.Proofs.Disk.Apart
import RomLedger.Proofs.Disk.Growth
import RomLedger.Proofs.Disk.Home
import RomLedger.Proofs.Disk.Place
import RomLedger.Proofs.Disk.Walk
import RomLedger.Proofs.Disk.Written
import RomLedger.Proofs.Feed.View
import RomLedger.Proofs.Index.Archive
import RomLedger.Proofs.Index.Committing
import RomLedger.Proofs.Index.Commuting
import RomLedger.Proofs.Index.Flushing
import RomLedger.Proofs.Index.Lookup
import RomLedger.Proofs.Index.Reading
import RomLedger.Proofs.Index.Rows
import RomLedger.Proofs.Index.Sessions
import RomLedger.Proofs.Json.Grammar
import RomLedger.Proofs.Json.Number
import RomLedger.Proofs.Json.Reading
import RomLedger.Proofs.Json.Text
import RomLedger.Proofs.Markup.Children
import RomLedger.Proofs.Markup.Datafile
import RomLedger.Proofs.Markup.Printing
import RomLedger.Proofs.Markup.Rendering
import RomLedger.Proofs.Text.Numeral
import RomLedger.Proofs.Text.Trim
import RomLedger.Proofs.Work.Accounting
import RomLedger.Proofs.Work.Custody
import RomLedger.Proofs.Work.Exact
import RomLedger.Proofs.Work.Finished
import RomLedger.Proofs.Work.Interleaving
import RomLedger.Proofs.Work.Isolation
import RomLedger.Proofs.Work.Ledger
import RomLedger.Proofs.Work.Lifecycle
import RomLedger.Proofs.Work.Moves
import RomLedger.Proofs.Work.Prompt
import RomLedger.Proofs.Work.Refresh
import RomLedger.Proofs.Work.Relief
import RomLedger.Proofs.Work.Scheduling
import RomLedger.Proofs.Work.Tally
import RomLedger.Text.Basic
import RomLedger.Text.Numeral
import RomLedger.Text.Quoted
import RomLedger.Work.Crew
import RomLedger.Work.Progress
import RomLedger.Work.Refresh
import RomLedger.Work.Schedule
import RomLedger.Work.Summary
