import Asyncflow.Lib.Run
import Asyncflow.Lib.Traced
import Asyncflow.Lib.History
import Asyncflow.Lib.Lineage
import Asyncflow.Lib.Preorder
import Asyncflow.Core.Data
import Asyncflow.Core.Loader
import Asyncflow.Core.Heap
import Asyncflow.Core.Objects
import Asyncflow.Core.Calls
import Asyncflow.Core.Flow
import Asyncflow.Core.Manager
import Asyncflow.Core.Fields
import Asyncflow.Core.Content
import Asyncflow.Moves.Move
import Asyncflow.Moves.Calls
import Asyncflow.Moves.Born
import Asyncflow.Moves.Flow
import Asyncflow.Moves.Step
import Asyncflow.Moves.Replay
import Asyncflow.Moves.CallStack
import Asyncflow.Moves.HistoryLists
import Asyncflow.Moves.Stopping
import Asyncflow.Moves.Registry
import Asyncflow.Runtime.AsyncContext
import Asyncflow.Runtime.EventQueue
import Asyncflow.Runtime.Coherence
import Asyncflow.Runtime.Waiting
import Asyncflow.Runtime.Outcome
import Asyncflow.Runtime.Completion
import Asyncflow.Runtime.Nesting
import Asyncflow.Runtime.Overflow
import Asyncflow.Runtime.Immediate
import Asyncflow.Runtime.Versions
import Asyncflow.Runtime.Patching
import Asyncflow.Runtime.Lifecycle
import Asyncflow.Runtime.TreeWalk
import Asyncflow.Runtime.Traversal
import Asyncflow.Core.LuaManager
import Asyncflow.Runtime.LuaFrame
import Asyncflow.Debug.ParseJson
import Asyncflow.Lib.Search
import Asyncflow.Moves.Halting
import Asyncflow.Runtime.StopFlow
import Asyncflow.Runtime.Attachers
import Asyncflow.Lib.Program
import Asyncflow.Loading.Yaml
import Asyncflow.Loading.Faithful
import Asyncflow.Debug.Registration
import Asyncflow.Debug.Breakpoints
import Asyncflow.Runtime.Cancelling
import Asyncflow.Runtime.FirstRound
import Asyncflow.Runtime.Deferral
import Asyncflow.Debug.ChartInfo
import Asyncflow.Loading.Events
import Asyncflow.Debug.QuickDebug
import Asyncflow.Loading.FromJson
import Asyncflow.Loading.Outcome
import Asyncflow.Loading.Import
import Asyncflow.Lib.Writes
import Asyncflow.Loading.Patch
import Asyncflow.Loading.PatchManager
import Asyncflow.Loading.Positions
import Asyncflow.Debug.FunctionObjects
import Asyncflow.Lib.Ownership
import Asyncflow.Moves.Ownership
import Asyncflow.Runtime.Ownership
import Asyncflow.Runtime.Destruction
import Asyncflow.Core.Uuid
import Asyncflow.Core.WaitAll
import Asyncflow.Loading.Variables
import Asyncflow.Loading.Uids
import Asyncflow.Loading.Running
import Asyncflow.Loading.RunningJson
import Asyncflow.Lib.Journal
import Asyncflow.Py.Chart
import Asyncflow.Core.LinkedList
import Asyncflow.Runtime.ExecutorLists
import Asyncflow.Runtime.CheckRunning
import Asyncflow.Lib.Agenda
import Asyncflow.Timer.AgentTimer
import Asyncflow.Util.Base64
import Asyncflow.Lib.Ledger
import Asyncflow.Moves.Entries
import Asyncflow.Runtime.AtRest
import Asyncflow.Runtime.LoopCheck
import Asyncflow.Runtime.Stopped
import Asyncflow.Runtime.Asleep
