import Utrace.Core.Run
import Utrace.Core.Loop
import Utrace.Core.Brackets
import Utrace.Native.System
import Utrace.Interpretation.Invariant
import Utrace.Interpretation.Frames
import Utrace.Interpretation.Planted
import Utrace.Correctness.Text
import Utrace.Interpretation.Counted
import Utrace.Correctness.Counting
import Utrace.Correctness.Stepping
import Utrace.Correctness.Exec
import Utrace.Correctness.Registration
import Utrace.Native.Tracer
import Utrace.Correctness.ThreadExit
import Utrace.Correctness.SharedText
import Utrace.Interpretation.Bytes
import Utrace.Correctness.Fork
import Utrace.Core.Nesting
import Utrace.Interpretation.Marks
import Utrace.Correctness.Trace
import Utrace.Interpretation.Calls
import Utrace.Correctness.CallFlow
import Utrace.Correctness.Table
import Utrace.Core.Stamps
import Utrace.Correctness.Commute
import Utrace.Interpretation.Lines
import Utrace.Correctness.Prefix
import Utrace.Interpretation.Announced
import Utrace.Correctness.OpenLine
import Utrace.Correctness.SystemCalls
import Utrace.Native.Session
import Utrace.Interpretation.Attached
import Utrace.Correctness.Detach
import Utrace.Correctness.Exit
import Utrace.Native.Arguments
import Utrace.Correctness.StackPointer
import Utrace.Native.Config
import Utrace.Interpretation.Fields
import Utrace.Interpretation.Signature
import Utrace.Native.ArgSig
import Utrace.Interpretation.ArgSig
import Utrace.Correctness.Matching
import Utrace.Correctness.Declarations
import Utrace.Correctness.Signatures
import Utrace.Interpretation.Trailing
import Utrace.Core.Latest
import Utrace.Correctness.Comments
import Utrace.Interpretation.Buffers
import Utrace.Correctness.ConfigFiles
import Utrace.Interpretation.TgidCache
import Utrace.Correctness.GroupIds
import Utrace.Correctness.Descriptors
import Utrace.Correctness.Sysret
import Utrace.Correctness.Opening
import Utrace.Correctness.Signals
import Utrace.Correctness.TailCalls
import Utrace.Correctness.Elapsed
import Utrace.Core.Tally
import Utrace.Native.Counts
import Utrace.Correctness.Summary
import Utrace.Correctness.Alarm
import Utrace.Native.Totals
import Utrace.Correctness.Totals
import Utrace.Core.Printed
import Utrace.Native.Printf
import Utrace.Native.Display
import Utrace.Correctness.Escapes
import Utrace.Core.Strings
import Utrace.Interpretation.Copied
import Utrace.Native.Umovestr
import Utrace.Correctness.Copying
import Utrace.Interpretation.Shown
import Utrace.Correctness.Strings
import Utrace.Interpretation.Scanned
import Utrace.Correctness.FormatScan
import Utrace.Correctness.Formats
import Utrace.Correctness.Fetched
import Utrace.Native.Console
import Utrace.Interpretation.Written
import Utrace.Correctness.ArgumentList
import Utrace.Interpretation.Columns
import Utrace.Correctness.Alignment
import Utrace.Correctness.Records
import Utrace.Core.Segments
import Utrace.Core.Chain
import Utrace.Native.Options
import Utrace.Correctness.SymbolList
import Utrace.Core.Overlay
import Utrace.Core.Slots
import Utrace.Core.Procedure
import Utrace.Native.RawStack
import Utrace.Interpretation.RawStack
import Utrace.Correctness.Depth
import Utrace.Correctness.Command
import Utrace.Interpretation.Words
import Utrace.Correctness.Planting
import Utrace.Correctness.Replacement
import Utrace.Correctness.Slots
import Utrace.Interpretation.StatusFile
import Utrace.Correctness.Stale
import Utrace.Native.Status
import Utrace.Correctness.Status
import Utrace.Native.Elf
import Utrace.Correctness.Elf
import Utrace.Native.Pointers
import Utrace.Interpretation.Pointers
import Utrace.Correctness.Widths
import Utrace.Core.Linked
import Utrace.Core.Getopt
import Utrace.Native.DictHeap
import Utrace.Correctness.DictHeap
import Utrace.Native.Demangle
import Utrace.Correctness.Demangle
import Utrace.Core.Shares
import Utrace.Correctness.Report
import Utrace.Native.CommandLine
import Utrace.Correctness.CommandLine
import Utrace.Correctness.TraceLines
import Utrace.Core.Stutter
import Utrace.Native.Processor
import Utrace.Interpretation.Hidden
import Utrace.Correctness.Transparency
import Utrace.Core.View
import Utrace.Interpretation.Seen
import Utrace.Correctness.Sessions
import Utrace.Correctness.Loading
import Utrace.Correctness.Told
import Utrace.Core.Credentials
import Utrace.Native.Execute
import Utrace.Correctness.Execute
import Utrace.Correctness.Configured
