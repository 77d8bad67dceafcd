import SystemProgramming.Library.Machine
import SystemProgramming.Library.Ensures
import SystemProgramming.Library.CondVar
import SystemProgramming.Library.RingBuffer
import SystemProgramming.Library.BoundedBuffer
import SystemProgramming.Library.MaximalRuns
import SystemProgramming.Library.CString
import SystemProgramming.Library.SharedInput
import SystemProgramming.Library.CharArray
import SystemProgramming.Library.Stores
import SystemProgramming.Library.BoundedMap
import SystemProgramming.Library.CanonicalPath
import SystemProgramming.Library.FileSystem
import SystemProgramming.Library.PathWalk
import SystemProgramming.Library.LatticePath
import SystemProgramming.Library.Descriptors
import SystemProgramming.Library.LineEdit
import SystemProgramming.WordCount.Counting
import SystemProgramming.WordCount.WcMt
import SystemProgramming.WordCount.Baseline
import SystemProgramming.WordCount.Overlap
import SystemProgramming.WordCount.OverlapCount
import SystemProgramming.WordCount.OverlapProgress
import SystemProgramming.WordCount.ChunkBuffer
import SystemProgramming.WordCount.Chunking
import SystemProgramming.Utmp.Utmplib
import SystemProgramming.Utmp.Records
import SystemProgramming.Cpdr.CpDir
import SystemProgramming.Cpdr.Rules
import SystemProgramming.Cpdr.Returns
import SystemProgramming.Cpdr.Intact
import SystemProgramming.Cpdr.Faithful
import SystemProgramming.Xv6.Proc
import SystemProgramming.Xv6.SyscallCount
import SystemProgramming.Xv6.CallTrace
import SystemProgramming.WebServer.Pool
import SystemProgramming.WebServer.Request
import SystemProgramming.WebServer.RequestLine
import SystemProgramming.WebServer.Containment
import SystemProgramming.WebServer.Clients
import SystemProgramming.WebServer.HandleRequest
import SystemProgramming.WebServer.Transfer
import SystemProgramming.WebServer.CallList
import SystemProgramming.MiniShell.Variables
import SystemProgramming.MiniShell.Lookup
import SystemProgramming.MiniShell.Tables
import SystemProgramming.MiniShell.Parse
import SystemProgramming.MiniShell.Expand
import SystemProgramming.MiniShell.Execute
import SystemProgramming.MiniShell.Assignment
import SystemProgramming.MiniShell.Script
import SystemProgramming.MiniShell.Reach
import SystemProgramming.MiniShell.NoDollar
import SystemProgramming.MiniShell.IfBlock
import SystemProgramming.MiniShell.LeadingBlanks
import SystemProgramming.MiniShell.Compose
import SystemProgramming.MiniShell.Commands
import SystemProgramming.MiniShell.Export
import SystemProgramming.MiniShell.Jobs
import SystemProgramming.MiniShell.External
import SystemProgramming.MiniShell.Conditional
import SystemProgramming.MiniShell.EmptyCommand
import SystemProgramming.MiniShell.Foreground
import SystemProgramming.MiniShell.JobTable
import SystemProgramming.MiniShell.JobIdentity
import SystemProgramming.MiniShell.JobBounds
import SystemProgramming.MiniShell.Resume
import SystemProgramming.MiniShell.JobCommand
import SystemProgramming.Snake.Game
import SystemProgramming.Snake.Body
import SystemProgramming.Snake.Segments
import SystemProgramming.Snake.Pause
import SystemProgramming.Editor.Autosave
import SystemProgramming.Move.Marker
import SystemProgramming.Editor.Capacity
import SystemProgramming.Psh.Prompt
import SystemProgramming.Psh.EndOfInput
import SystemProgramming.Pipe.Wiring
import SystemProgramming.Pipe.Arguments
import SystemProgramming.Tty.PwInput
import SystemProgramming.Tty.Typer
import SystemProgramming.Tty.Broadcaster
import SystemProgramming.Library.Strtok
import SystemProgramming.Cp2.Copy
import SystemProgramming.Cp2.Destination
import SystemProgramming.Library.BlockCache
import SystemProgramming.Library.RedoLog
import SystemProgramming.Xv6.Log
import SystemProgramming.Xv6.LogPhases
import SystemProgramming.Xv6.LogDurable
import SystemProgramming.Xv6.LogCapacity
import SystemProgramming.Library.StarPattern
import SystemProgramming.Xv6.Grep
import SystemProgramming.Xv6.ShGrammar
import SystemProgramming.Xv6.Sh
import SystemProgramming.Xv6.ShTokens
import SystemProgramming.Xv6.ShParse
import SystemProgramming.Xv6.ShCommand
import SystemProgramming.Xv6.ShRun
import SystemProgramming.Library.FreeRunning
import SystemProgramming.Xv6.Pipe
import SystemProgramming.Library.ProcessTree
import SystemProgramming.Library.Terminal
import SystemProgramming.Xv6.Console
import SystemProgramming.Xv6.ConsoleRead
import SystemProgramming.Xv6.Kill
import SystemProgramming.Xv6.PipeStream
import SystemProgramming.Xv6.PipeWakeup
import SystemProgramming.Xv6.WaitWakeup
import SystemProgramming.Library.MoveToFront
import SystemProgramming.Xv6.Bio
import SystemProgramming.Xv6.BioCache
import SystemProgramming.Xv6.BioRecency
