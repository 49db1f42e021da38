import OsaspLabs.Library.Runs
import OsaspLabs.Library.Tally
import OsaspLabs.Library.Fifo
import OsaspLabs.Library.Memory
import OsaspLabs.Library.ByteFile
import OsaspLabs.Library.CString
import OsaspLabs.Library.Lines
import OsaspLabs.Ipc.Queue
import OsaspLabs.Ipc.Refinement
import OsaspLabs.Library.Lock
import OsaspLabs.Library.Slices
import OsaspLabs.Ipc.Workers
import OsaspLabs.Ipc.Accounting
import OsaspLabs.Library.Signal
import OsaspLabs.Lab2.Environment
import OsaspLabs.Lab3.Child
import OsaspLabs.Lab3.Reporting
import OsaspLabs.Lab3.Statistic
import OsaspLabs.Lab3.Parent
import OsaspLabs.Lab3.Permission
import OsaspLabs.Lab3.Kill
import OsaspLabs.Lab3.Table
import OsaspLabs.Lab3.Targets
import OsaspLabs.Lab4.Processes
import OsaspLabs.Lab4.Removal
import OsaspLabs.Lab5.Threads
import OsaspLabs.Lab5.Removal
import OsaspLabs.Ipc.Semaphores
import OsaspLabs.Ipc.Overflow
import OsaspLabs.Lab7.Message
import OsaspLabs.Lab7.Threads
import OsaspLabs.Lab7.Removal
import OsaspLabs.Ipc.Restart
import OsaspLabs.Ipc.Checksum
import OsaspLabs.Lab7.WakeUps
import OsaspLabs.Lab7.Minus
import OsaspLabs.Lab7.FullQueue
import OsaspLabs.Lab7.Ring
import OsaspLabs.Lab7.Shutdown
import OsaspLabs.Records.Store
import OsaspLabs.Records.Laws
import OsaspLabs.Records.Input
import OsaspLabs.Records.Sessions
import OsaspLabs.Records.Console
import OsaspLabs.Records.Exclusion
import OsaspLabs.Records.LostUpdate
import OsaspLabs.Records.Alone
import OsaspLabs.Lab8.Protocol
import OsaspLabs.Lab8.Strings
import OsaspLabs.Lab8.Commands
import OsaspLabs.Lab1.PathName
import OsaspLabs.Lab1.Walk
import OsaspLabs.Lab1.Selection
import OsaspLabs.Lab8.Grammar
import OsaspLabs.Lab8.Uninitialised
import OsaspLabs.Lab8.Connection
import OsaspLabs.Lab8.Session
import OsaspLabs.Lab8.Segments
import OsaspLabs.Lab8.Pairing
import OsaspLabs.Lab8.Directory
import OsaspLabs.Lab8.Buffers
import OsaspLabs.Lab8.Registry
import OsaspLabs.Lab8.Discovery
import OsaspLabs.Lab8.Malformed
import OsaspLabs.SortIndex.Merge
import OsaspLabs.SortIndex.MergeCalls
import OsaspLabs.SortIndex.FineRound
import OsaspLabs.SortIndex.MergeStep
import OsaspLabs.Library.SignedInt
import OsaspLabs.Library.Calendar
import OsaspLabs.Lab6.Gregorian
import OsaspLabs.Lab6.IndexFile
import OsaspLabs.Lab6.Generator
import OsaspLabs.Lab6.Printer
import OsaspLabs.SortIndex.Window
import OsaspLabs.SortIndex.BlocksMap
import OsaspLabs.SortIndex.SortPhase
import OsaspLabs.SortIndex.Exclusive
import OsaspLabs.SortIndex.MergeRound
import OsaspLabs.SortIndex.Rounds
import OsaspLabs.SortIndex.Arguments
import OsaspLabs.SortIndex.Barrier
import OsaspLabs.SortIndex.Lockstep
import OsaspLabs.SortIndex.File
import OsaspLabs.SortIndex.MapBounds
import OsaspLabs.SortIndex.Windows
import OsaspLabs.SortIndex.Touched
import OsaspLabs.SortIndex.Validation
import OsaspLabs.SortIndex.Creation
import OsaspLabs.SortIndex.FineFile
import OsaspLabs.Library.Traces
import OsaspLabs.Ipc.Calls
import OsaspLabs.Ipc.FineWorkers
import OsaspLabs.Ipc.Delivery
import OsaspLabs.Lab4.Statements
import OsaspLabs.Lab5.Statements
import OsaspLabs.Ipc.Progress
import OsaspLabs.Lab5.Progress
import OsaspLabs.Lab4.Progress
import OsaspLabs.Library.Doubles
import OsaspLabs.Lab6.Pipeline
import OsaspLabs.Lab8.Dialogue
import OsaspLabs.Lab8.Held
import OsaspLabs.Lab8.Prompt
import OsaspLabs.Lab3.Shutdown
import OsaspLabs.Lab3.Progress
import OsaspLabs.Lab7.Delivery
import OsaspLabs.Records.Table
import OsaspLabs.Lab1.CommandLine
import OsaspLabs.Lab2.Launch
import OsaspLabs.Lab4.Shutdown
import OsaspLabs.Lab7.Progress
