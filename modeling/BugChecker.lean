import BugChecker.Lib.Outline
import BugChecker.Lib.Traced
import BugChecker.Lib.Budget
import BugChecker.Lib.Bytes
import BugChecker.Lib.Extents
import BugChecker.Lib.Strings
import BugChecker.Lib.Sorting
import BugChecker.Lib.Runs
import BugChecker.Lib.Tokens
import BugChecker.Lib.TextEditor
import BugChecker.Lib.LineEditor
import BugChecker.Lib.Stretches
import BugChecker.Config.Scan
import BugChecker.Config.Lines
import BugChecker.Config.Tree
import BugChecker.Config.Reader
import BugChecker.Kd.Scheduler
import BugChecker.Kd.ChunkedRead
import BugChecker.Kd.Direct
import BugChecker.Allocator.Bitmap
import BugChecker.Allocator.Heap
import BugChecker.Allocator.Accesses
import BugChecker.Allocator.Realloc
import BugChecker.Symbols.Format
import BugChecker.Symbols.Catalog
import BugChecker.Symbols.Reader
import BugChecker.Symbols.RoundTrip
import BugChecker.Symbols.Lookup
import BugChecker.Break.Table
import BugChecker.Break.Machine
import BugChecker.Break.Visit
import BugChecker.Break.Shape
import BugChecker.Break.Handles
import BugChecker.Break.Agree
import BugChecker.Break.Stops
import BugChecker.Break.Lost
import BugChecker.Break.Hit
import BugChecker.Break.Rearm
import BugChecker.Break.Threads
import BugChecker.Break.Frames
import BugChecker.Break.Pursuit
import BugChecker.Lib.Recency
import BugChecker.Break.Traces
import BugChecker.Wnd.FrameBuffer
import BugChecker.Wnd.Restore
import BugChecker.Wnd.Colors
import BugChecker.Wnd.HexNumbers
import BugChecker.Wnd.HexColors
import BugChecker.Wnd.Completion
import BugChecker.Wnd.CodeWnd
import BugChecker.Wnd.Editor
import BugChecker.Wnd.TagPlaces
import BugChecker.Wnd.InputLine
import BugChecker.Wnd.Prompt
import BugChecker.Wnd.PlainLine
import BugChecker.Wnd.LineRuns
import BugChecker.Wnd.Layout
import BugChecker.Wnd.LogWnd
import BugChecker.Wnd.LogScroll
import BugChecker.Wnd.LogText
import BugChecker.Wnd.Focus
import BugChecker.Wnd.Cursor
import BugChecker.Wnd.WindowRows
import BugChecker.Wnd.WndSize
import BugChecker.Lib.Rings
import BugChecker.Wnd.UpdateScreen
import BugChecker.Wnd.DrawLine
import BugChecker.Lib.Headings
import BugChecker.Disasm.Window
import BugChecker.Disasm.Addresses
import BugChecker.Disasm.Bytes
import BugChecker.Disasm.Lines
import BugChecker.Disasm.Streams
import BugChecker.Disasm.View
import BugChecker.Disasm.Scroll
import BugChecker.Disasm.Pages
import BugChecker.Lib.Buffers
import BugChecker.Disasm.LineBuffer
import BugChecker.Lib.Finding
import BugChecker.Lib.Erasing
import BugChecker.Cmd.Tokenize
import BugChecker.Cmd.Indexes
import BugChecker.Cmd.Clear
import BugChecker.Cmd.Registers
import BugChecker.Cmd.WriteReg
import BugChecker.Cmd.Dump
import BugChecker.Modules.LoadedList
import BugChecker.Modules.Recorded
import BugChecker.Lib.Circular
import BugChecker.Modules.UserWalk
import BugChecker.Lib.Refreshing
import BugChecker.Modules.SystemSpace
import BugChecker.Lib.IntervalTree
import BugChecker.Modules.VadTree
import BugChecker.Step.Context
import BugChecker.Step.Destination
import BugChecker.Step.Session
import BugChecker.Step.Successor
import BugChecker.Step.Prediction
import BugChecker.Step.Transfer
import BugChecker.Step.NextEip
import BugChecker.Step.StackScan
import BugChecker.Crt.Strtoxq
import BugChecker.Script.AsyncArgs
import BugChecker.Patch.FunctionPatch
import BugChecker.Wnd.RegsWnd
import BugChecker.Wnd.Picture
import BugChecker.Keyb.ReadAscii
import BugChecker.Cmd.Edit
import BugChecker.Cmd.HexArgs
