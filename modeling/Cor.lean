import Cor.Lib.Run
import Cor.Lib.Pool
import Cor.Lib.Emit
import Cor.Base.Bytes
import Cor.Base.Error
import Cor.Base.Strto
import Cor.Mt.TaskQueue
import Cor.Mt.TaskQueueStep
import Cor.Mt.TaskQueueInv
import Cor.Mt.TaskQueueRuns
import Cor.Mt.TaskQueueEmpty
import Cor.Mt.Lifecycle
import Cor.Mt.Completion
import Cor.Mt.CompletionStep
import Cor.Mt.CompletionWaiters
import Cor.Mt.CompletionEarly
import Cor.Util.Handle
import Cor.Util.HandleRuns
import Cor.Options.OptParse
import Cor.Options.Spec
import Cor.Options.Leave
import Cor.Options.Spellings
import Cor.Sexp.Parse
import Cor.Sexp.Flat
import Cor.Sexp.Refine
import Cor.Sexp.Render
import Cor.Sexp.Escapes
import Cor.Sexp.EndOfInput
import Cor.Sexp.Sentinel
import Cor.Sexp.Visits
import Cor.Notlisp.Expr
import Cor.Notlisp.Interpreter
import Cor.Notlisp.Accessor
import Cor.Notlisp.Frames
import Cor.Notlisp.Evaluator
import Cor.Notlisp.Refine
import Cor.Notlisp.PassThrough
import Cor.Notlisp.Errors
import Cor.Notlisp.Dict
import Cor.Options.Reading
import Cor.Options.Pending
import Cor.Options.Attached
import Cor.Util.HandleOwners
import Cor.Notlisp.IntegerAtoms
import Cor.Util.Memcpy
import Cor.Util.Split
import Cor.Mt.Future
import Cor.Mt.FutureWakes
import Cor.Notlisp.Reads
import Cor.Notlisp.Rest
import Cor.Sexp.Plain
import Cor.Notlisp.Print
import Cor.Lib.Operands
import Cor.Util.SplitDst
import Cor.Util.Tuple
import Cor.Util.TupleSync
import Cor.Base.Stoul
import Cor.Udev.Keyboard
import Cor.Udev.KeyboardCaps
import Cor.Error.Backtrace
import Cor.Util.ScopeExit
import Cor.Error.Message
import Cor.Error.Tracer
import Cor.Util.HandleClosers
import Cor.Util.SharedLib
import Cor.Options.Leftovers
import Cor.Util.Watch
import Cor.Lib.Group
import Cor.Options.Help
import Cor.Base.Stoi
import Cor.Util.Trace
import Cor.Sexp.Control
import Cor.Notlisp.Tags
import Cor.Util.Hex
import Cor.Lib.Rank
import Cor.Mt.TaskQueueDrains
import Cor.Mt.LifecycleEnds
import Cor.Mt.FutureHeard
import Cor.Sexp.Forest
import Cor.Sexp.Positions
import Cor.Lib.Linearize
import Cor.Mt.TaskQueueAtomic
import Cor.Sexp.Range
import Cor.Options.Walk
import Cor.Notlisp.Locality
import Cor.Mt.Mutex
import Cor.Notlisp.Mirror
import Cor.Udev.Available
import Cor.Util.Pipe
import Cor.Notlisp.Consumers
import Cor.Sexp.Message
import Cor.Util.Names
import Cor.Util.Record
