import Ipa.Cli.Arguments
import Ipa.Cli.EndToEnd
import Ipa.Cli.Main
import Ipa.Cli.Print
import Ipa.Cli.Printed
import Ipa.Cli.ReadBack
import Ipa.Emb.Vocab
import Ipa.Emb.Wordpiece
import Ipa.Hnsw.Add
import Ipa.Hnsw.Answers
import Ipa.Hnsw.Atomic
import Ipa.Hnsw.Budget
import Ipa.Hnsw.Build
import Ipa.Hnsw.Calls
import Ipa.Hnsw.Close
import Ipa.Hnsw.Concurrent
import Ipa.Hnsw.Copy
import Ipa.Hnsw.Descent
import Ipa.Hnsw.Edges
import Ipa.Hnsw.Graph
import Ipa.Hnsw.Heap
import Ipa.Hnsw.HeapOrder
import Ipa.Hnsw.HeapRuns
import Ipa.Hnsw.Index
import Ipa.Hnsw.Level
import Ipa.Hnsw.Memory
import Ipa.Hnsw.Owned
import Ipa.Hnsw.Reach
import Ipa.Hnsw.Search
import Ipa.Hnsw.Wiring
import Ipa.Lib.Asking
import Ipa.Lib.Binary
import Ipa.Lib.Bisect
import Ipa.Lib.Blocks
import Ipa.Lib.Buffer
import Ipa.Lib.CStr
import Ipa.Lib.Climb
import Ipa.Lib.Command
import Ipa.Lib.Decimal
import Ipa.Lib.Exchange
import Ipa.Lib.HeapOrder
import Ipa.Lib.Host
import Ipa.Lib.Ieee
import Ipa.Lib.JsonClean
import Ipa.Lib.JsonCompact
import Ipa.Lib.JsonText
import Ipa.Lib.JsonUnique
import Ipa.Lib.Locked
import Ipa.Lib.Machine
import Ipa.Lib.Probing
import Ipa.Lib.Run
import Ipa.Lib.Script
import Ipa.Lib.Stdio
import Ipa.Lib.Strtod
import Ipa.Lib.StrtodJson
import Ipa.Lib.Utf8
import Ipa.Lib.Words
import Ipa.Manifest.Accepts
import Ipa.Manifest.Basic
import Ipa.Manifest.Complete
import Ipa.Manifest.Guarded
import Ipa.Manifest.Json
import Ipa.Manifest.Literals
import Ipa.Manifest.Progress
import Ipa.Manifest.Reads
import Ipa.Manifest.Renders
import Ipa.Manifest.Strings
import Ipa.Manifest.Takes
import Ipa.Manifest.Written
import Ipa.Ngram.Basic
import Ipa.Ngram.Greedy
import Ipa.Ngram.Keeps
import Ipa.Ngram.Phrases
import Ipa.Ngram.Spans
import Ipa.Ngram.Tokens
import Ipa.Ngram.Traverse
import Ipa.Ngram.Visits
import Ipa.Runtime.Accesses
import Ipa.Runtime.Asks
import Ipa.Runtime.Best
import Ipa.Runtime.Children
import Ipa.Runtime.Completion
import Ipa.Runtime.Emits
import Ipa.Runtime.Faithful
import Ipa.Runtime.Hits
import Ipa.Runtime.Interfere
import Ipa.Runtime.Keeps
import Ipa.Runtime.Lifetimes
import Ipa.Runtime.Meaning
import Ipa.Runtime.Offsets
import Ipa.Runtime.Parse
import Ipa.Runtime.Process
import Ipa.Runtime.Reference
import Ipa.Runtime.Released
import Ipa.Runtime.Reproduce
import Ipa.Runtime.Served
import Ipa.Runtime.Serving
import Ipa.Runtime.Shared
import Ipa.Runtime.Signals
import Ipa.Runtime.Tables
import Ipa.Runtime.Threshold
import Ipa.Runtime.Worker
import Ipa.Runtime.Workers
import Ipa.Schema.Accepted
import Ipa.Schema.Aligned
import Ipa.Schema.Bounds
import Ipa.Schema.Build
import Ipa.Schema.Entries
import Ipa.Schema.Fields
import Ipa.Schema.Format
import Ipa.Schema.Image
import Ipa.Schema.Layout
import Ipa.Schema.Nested
import Ipa.Schema.Null
import Ipa.Schema.Open
import Ipa.Schema.Opened
import Ipa.Schema.Output
import Ipa.Schema.Reopen
import Ipa.Schema.RoundTrip
import Ipa.Schema.Strings
