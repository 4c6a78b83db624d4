import Smts.Lib.Prog
import Smts.Lib.Forest
import Smts.Lib.Stack
import Smts.Server.Framework
import Smts.Server.FrameworkLaws
import Smts.Server.Paths
import Smts.Server.Loop
import Smts.Server.Actions
import Smts.Server.SolverLaws
import Smts.Server.TreeLaws
import Smts.Server.Seats
import Smts.Server.Soundness
import Smts.Server.Operations
import Smts.Server.Scripts
import Smts.Lib.Returns
import Smts.Lib.Traced
import Smts.Lib.Raises
import Smts.Server.Guards
import Smts.Server.Tracing
import Smts.Client.PullWorker
import Smts.Lib.Table
import Smts.Lib.Trail
import Smts.Lib.Trie
import Smts.LemmaServer.Text
import Smts.LemmaServer.Worker
import Smts.LemmaServer.Marks
import Smts.LemmaServer.Freshness
import Smts.LemmaServer.Threads
import Smts.Server.Passing
import Smts.Lib.Bytes
import Smts.Net.Socket
import Smts.Net.Codec
import Smts.Net.RoundTrip
import Smts.Net.Segments
import Smts.Server.Commands
import Smts.Lib.Run
import Smts.Client.Communicator
import Smts.Client.Reports
import Smts.Lib.Preserves
import Smts.Lib.Leaves
import Smts.Server.Wiring
import Smts.Server.Faults
import Smts.Server.Turns
import Smts.Server.SelectSet
import Smts.Server.Spreading
import Smts.Server.Concluding
import Smts.Server.Attending
import Smts.Server.Receiving
import Smts.Server.IdleList
import Smts.Server.Verdicts
import Smts.Server.Submissions
import Smts.Server.Attribution
import Smts.Client.Injection
import Smts.Net.Bounds
import Smts.Server.Unsent
import Smts.Client.LemmaSocket
import Smts.Client.LemmaWorkers
import Smts.Gui.Cnf
import Smts.Gui.Graph
import Smts.Gui.Learnts
import Smts.LemmaServer.Branch
import Smts.Net.Server
import Smts.Lib.Rewriting
import Smts.Lib.Horn
import Smts.Lib.Json
import Smts.Lib.JsonText
import Smts.Server.Utils
import Smts.Server.Punctuation
import Smts.Server.Reading
import Smts.Server.Smtlib
import Smts.Server.Printing
import Smts.Server.Scanning
import Smts.Server.Fixedpoint
import Smts.Server.Queries
import Smts.Lib.RoundRobin
import Smts.Server.Fairness
import Smts.LemmaServer.Resolving
import Smts.LemmaServer.Ownership
import Smts.LemmaServer.Validation
import Smts.LemmaServer.Selection
import Smts.Server.Closure
import Smts.Server.Shape
import Smts.Server.Settings
import Smts.Server.Clearing
import Smts.Lib.Coupled
import Smts.Lib.Embedding
import Smts.Lib.Extends
import Smts.Server.Renaming
import Smts.Server.Twins
import Smts.Server.SolverTwins
import Smts.Server.EntrustTwins
import Smts.Server.PassTwins
import Smts.Server.LoopTwins
import Smts.Server.Deeds
import Smts.Server.Intake
import Smts.Server.Standing
import Smts.Server.Streams
import Smts.Server.Upholding
import Smts.Lib.Assertions
import Smts.Client.Process
import Smts.Client.Following
import Smts.Client.Listener
import Smts.Server.Determinism
import Smts.Server.Headcount
import Smts.Server.Assertions
import Smts.Server.Counting
import Smts.Server.Termination
import Smts.Server.Requests
import Smts.Server.Carrying
import Smts.Server.Isolation
import Smts.Cluster.System
import Smts.Cluster.Coherence
import Smts.Cluster.Soundness
import Smts.Cluster.Agreement
import Smts.Cluster.Exchange
import Smts.Cluster.Entailment
import Smts.Cluster.Branches
