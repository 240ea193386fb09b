import CannedBsd.Lib.Heap
import CannedBsd.Lib.Chain
import CannedBsd.Lib.Ring
import CannedBsd.Lib.Runs
import CannedBsd.Lib.Ownership
import CannedBsd.Lib.Rotation
import CannedBsd.Lib.Walks
import CannedBsd.Terminal.Engine
import CannedBsd.Terminal.LineDiscipline
import CannedBsd.Abi
import CannedBsd.Vfs.Ramfs
import CannedBsd.Vfs.Content
import CannedBsd.Vfs.ByteArray
import CannedBsd.Vfs.FileSession
import CannedBsd.Vfs.Refusals
import CannedBsd.Vfs.Path
import CannedBsd.Vfs.Links
import CannedBsd.Vfs.Normalize
import CannedBsd.Vfs.PathBuffer
import CannedBsd.Vfs.Tree
import CannedBsd.Vfs.Account
import CannedBsd.Vfs.Stock
import CannedBsd.Vfs.Moves
import CannedBsd.Vfs.Listing
import CannedBsd.Vfs.Resolve
import CannedBsd.Vfs.Walk
import CannedBsd.Vfs.Rename
import CannedBsd.Kernel.State
import CannedBsd.Kernel.Calls
import CannedBsd.Kernel.Process
import CannedBsd.Kernel.Table
import CannedBsd.Kernel.Frames
import CannedBsd.Kernel.Flight
import CannedBsd.Kernel.Books
import CannedBsd.Kernel.Roster
import CannedBsd.Kernel.Waiting
import CannedBsd.Kernel.Fitness
import CannedBsd.Kernel.Lineage
import CannedBsd.Kernel.Base
import CannedBsd.Kernel.Hands
import CannedBsd.Kernel.Handles
import CannedBsd.Kernel.Spawning
import CannedBsd.Kernel.Returns
import CannedBsd.Kernel.Blocking
import CannedBsd.Kernel.Lifetimes
import CannedBsd.Kernel.Reachable
import CannedBsd.Kernel.Trees
import CannedBsd.Kernel.Accounts
import CannedBsd.Kernel.Iteration
import CannedBsd.Kernel.Deadlock
import CannedBsd.Kernel.Children
import CannedBsd.Kernel.Programs
import CannedBsd.Kernel.Replacement
import CannedBsd.Kernel.Views
import CannedBsd.Kernel.Privacy
import CannedBsd.Kernel.Possessions
import CannedBsd.Kernel.Fairness
import CannedBsd.Kernel.Streams
import CannedBsd.Kernel.Paths
import CannedBsd.Kernel.Renaming
import CannedBsd.Kernel.Opening
import CannedBsd.Kernel.Environment
import CannedBsd.Kernel.Descriptors
import CannedBsd.Kernel.PipeBlocks
import CannedBsd.Shell.Lexer
import CannedBsd.Shell.Scanners
import CannedBsd.Shell.Quoting
import CannedBsd.Shell.Interactive
import CannedBsd.Libc.Umask
import CannedBsd.Kernel.Draining
import CannedBsd.Kernel.Ledgers
import CannedBsd.Kernel.ProgramHeap
import CannedBsd.Vfs.Still
import CannedBsd.Kernel.Errands
import CannedBsd.Lib.Brackets
import CannedBsd.Libc.Machine
import CannedBsd.Libc.Fts
import CannedBsd.Libc.Traversal
import CannedBsd.Libc.Bracketing
import CannedBsd.Lib.Interaction
import CannedBsd.Lib.Underway
import CannedBsd.Kernel.Session
import CannedBsd.Kernel.Purview
import CannedBsd.Shell.Pipeline
import CannedBsd.Shell.Grammar
import CannedBsd.Kernel.Playback
import CannedBsd.Lib.Borrowing
import CannedBsd.Shell.Redirections
import CannedBsd.Shell.Reaping
import CannedBsd.Shell.Wiring
import CannedBsd.Shell.Isolation
import CannedBsd.Lib.Numeral
import CannedBsd.Shell.ExitStatus
import CannedBsd.Terminal.Progress
import CannedBsd.Terminal.Echo
import CannedBsd.Libc.Getopt
import CannedBsd.Libc.Stdio
import CannedBsd.Libc.Format
import CannedBsd.Vfs.Arithmetic
import CannedBsd.Kernel.Polling
import CannedBsd.Shell.Cleanup
import CannedBsd.Kernel.Reentry
import CannedBsd.Kernel.Delivery
import CannedBsd.Kernel.Atomicity
import CannedBsd.Lib.Blocks
import CannedBsd.Lib.Forest
import CannedBsd.Vfs.Demolition
import CannedBsd.Kernel.TaskBlocks
import CannedBsd.Kernel.Teardown
import CannedBsd.Kernel.Recording
import CannedBsd.Programs.Tr
