import OscAssignments.Lib.Runs
import OscAssignments.Lib.RingBuf
import OscAssignments.Lib.LockOrder
import OscAssignments.Xv6.Proc
import OscAssignments.Xv6.Queue
import OscAssignments.Xv6.Table
import OscAssignments.Xv6.Scheduler
import OscAssignments.Xv6.Machine
import OscAssignments.Xv6.Frame
import OscAssignments.Xv6.Effects
import OscAssignments.Xv6.Steps
import OscAssignments.Xv6.Sane
import OscAssignments.Xv6.Turns
import OscAssignments.Xv6.Slices
import OscAssignments.Xv6.Ledger
import OscAssignments.Xv6.Family
import OscAssignments.Xv6.Reaping
import OscAssignments.Xv6.Pbs
import OscAssignments.Xv6.QueueSpec
import OscAssignments.Xv6.Aging
import OscAssignments.Xv6.Waits
import OscAssignments.Xv6.Queued
import OscAssignments.Xv6.Select
import OscAssignments.Xv6.Losing
import OscAssignments.Xv6.Overtaking
import OscAssignments.Xv6.Mlfq
import OscAssignments.Xv6.Locks
import OscAssignments.Lib.ForkJoin
import OscAssignments.Sorts.Code
import OscAssignments.Lib.Segments
import OscAssignments.Sorts.Partition
import OscAssignments.Sorts.Footprint
import OscAssignments.Sorts.Sorting
import OscAssignments.Sorts.Agreement
import OscAssignments.Sorts.Orders
import OscAssignments.Files.Reversal
import OscAssignments.Files.Checker
import OscAssignments.Cabs.Service
import OscAssignments.Cabs.Moves
import OscAssignments.Lib.Tally
import OscAssignments.Cabs.Occupancy
import OscAssignments.Cabs.Wakeups
import OscAssignments.Cabs.Payments
import OscAssignments.Cabs.Admission
import OscAssignments.Lib.Mutex
import OscAssignments.Biryani.Mess
import OscAssignments.Biryani.Steps
import OscAssignments.Biryani.Holders
import OscAssignments.Biryani.Rounds
import OscAssignments.Biryani.Serving
import OscAssignments.Biryani.Served
import OscAssignments.Biryani.Portions
import OscAssignments.Biryani.Announcing
import OscAssignments.Lib.Tokens
import OscAssignments.Lib.Recent
import OscAssignments.Shell.History
import OscAssignments.Shell.Parse
import OscAssignments.Shell.Recall
import OscAssignments.Shell.Directory
import OscAssignments.Lib.Slots
import OscAssignments.Shell.Descriptors
import OscAssignments.Lib.Programs
import OscAssignments.Shell.Pipeline
import OscAssignments.Lib.Registry
import OscAssignments.Shell.Jobs
import OscAssignments.Xv6.Priority
import OscAssignments.Xv6.Statistics
import OscAssignments.Xv6.CpuTime
import OscAssignments.Xv6.ReapTime
import OscAssignments.Xv6.FirstCome
import OscAssignments.Xv6.ForkFailure
import OscAssignments.Files.Overwrite
import OscAssignments.Xv6.UserCopy
import OscAssignments.Sorts.Guards
import OscAssignments.Shell.Args
import OscAssignments.Shell.Arrows
import OscAssignments.Shell.Cron
import OscAssignments.Shell.Wiring
import OscAssignments.Lib.CString
import OscAssignments.Shell.Line
import OscAssignments.Shell.Setenv
import OscAssignments.Xv6.Levels
import OscAssignments.Fs.Block
import OscAssignments.Fs.Log
import OscAssignments.Fs.LogSteps
import OscAssignments.Fs.LogSpace
import OscAssignments.Fs.Crash
import OscAssignments.Fs.Recovery
import OscAssignments.Fs.LogErrors
import OscAssignments.Lib.Counter
import OscAssignments.Pipe.Code
import OscAssignments.Pipe.Moves
import OscAssignments.Pipe.Ends
import OscAssignments.Pipe.Bytes
import OscAssignments.Pipe.Sleepers
import OscAssignments.Console.Code
import OscAssignments.Console.Line
import OscAssignments.Console.Readers
import OscAssignments.Console.Reads
import OscAssignments.Sorts.Merging
import OscAssignments.User.Grep
import OscAssignments.User.GrepLines
import OscAssignments.Lib.LinkRing
import OscAssignments.User.Malloc
import OscAssignments.User.MallocHeap
import OscAssignments.User.MallocRuns
