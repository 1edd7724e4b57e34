import BehaviorTree.Behavior
import BehaviorTree.Binary64
import BehaviorTree.BuiltIn
import BehaviorTree.Decimal
import BehaviorTree.Delays
import BehaviorTree.Document
import BehaviorTree.Document.Decode
import BehaviorTree.Document.Source
import BehaviorTree.Document.Stream
import BehaviorTree.Engine.Acting
import BehaviorTree.Engine.Basic
import BehaviorTree.Engine.Concurrent
import BehaviorTree.Engine.Frame
import BehaviorTree.Engine.Knot
import BehaviorTree.Engine.Lifetime
import BehaviorTree.Engine.Node
import BehaviorTree.Engine.Sequential
import BehaviorTree.Engine.Signaling
import BehaviorTree.Engine.Wrapping
import BehaviorTree.Env
import BehaviorTree.Expr.Error
import BehaviorTree.Expr.Eval
import BehaviorTree.Expr.Instruction
import BehaviorTree.Expr.Lexeme
import BehaviorTree.Ident
import BehaviorTree.Journal
import BehaviorTree.Json.Printer
import BehaviorTree.Json.Reader
import BehaviorTree.Json.Scanner
import BehaviorTree.Loader
import BehaviorTree.NodeKind
import BehaviorTree.Payload
import BehaviorTree.Program
import BehaviorTree.Proofs.Engine.Abreast
import BehaviorTree.Proofs.Engine.Action
import BehaviorTree.Proofs.Engine.Astray
import BehaviorTree.Proofs.Engine.Attendance
import BehaviorTree.Proofs.Engine.Cache
import BehaviorTree.Proofs.Engine.Confinement
import BehaviorTree.Proofs.Engine.Congruence
import BehaviorTree.Proofs.Engine.Continuation
import BehaviorTree.Proofs.Engine.Contract
import BehaviorTree.Proofs.Engine.Correspondence
import BehaviorTree.Proofs.Engine.Lookout
import BehaviorTree.Proofs.Engine.Outcome
import BehaviorTree.Proofs.Engine.Race
import BehaviorTree.Proofs.Engine.Repeat
import BehaviorTree.Proofs.Engine.Sequence
import BehaviorTree.Proofs.Engine.Slots
import BehaviorTree.Proofs.Engine.Soundness
import BehaviorTree.Proofs.Engine.Standing
import BehaviorTree.Proofs.Engine.Timeout
import BehaviorTree.Proofs.Engine.Turns
import BehaviorTree.Proofs.Engine.Watchdog
import BehaviorTree.Proofs.Engine.Zone
import BehaviorTree.Proofs.Expr.Comparison
import BehaviorTree.Proofs.Expr.Evaluation
import BehaviorTree.Proofs.Expr.Grammar
import BehaviorTree.Proofs.Expr.Parsing
import BehaviorTree.Proofs.Expr.Rounding
import BehaviorTree.Proofs.Expr.Tokenizing
import BehaviorTree.Proofs.Grafting.Capture
import BehaviorTree.Proofs.Grafting.Nodes
import BehaviorTree.Proofs.Grafting.States
import BehaviorTree.Proofs.Isolation.Branches
import BehaviorTree.Proofs.Isolation.Neighbours
import BehaviorTree.Proofs.Isolation.Nodes
import BehaviorTree.Proofs.Isolation.Parallel
import BehaviorTree.Proofs.Isolation.Runners
import BehaviorTree.Proofs.Isolation.Teams
import BehaviorTree.Proofs.Isolation.Twin
import BehaviorTree.Proofs.Life.Behaviors
import BehaviorTree.Proofs.Life.Conduct
import BehaviorTree.Proofs.Life.Course
import BehaviorTree.Proofs.Life.Custody
import BehaviorTree.Proofs.Life.Exclusion
import BehaviorTree.Proofs.Life.Firing
import BehaviorTree.Proofs.Life.Hearing
import BehaviorTree.Proofs.Life.Lifetime
import BehaviorTree.Proofs.Life.Listeners
import BehaviorTree.Proofs.Life.Markers
import BehaviorTree.Proofs.Life.Memory
import BehaviorTree.Proofs.Life.Moves
import BehaviorTree.Proofs.Life.Operations
import BehaviorTree.Proofs.Life.Passage
import BehaviorTree.Proofs.Life.Protocol
import BehaviorTree.Proofs.Life.Release
import BehaviorTree.Proofs.Life.Requests
import BehaviorTree.Proofs.Life.Restraint
import BehaviorTree.Proofs.Life.Sparing
import BehaviorTree.Proofs.Life.Starts
import BehaviorTree.Proofs.Life.Ticks
import BehaviorTree.Proofs.Stack.Abandonment
import BehaviorTree.Proofs.Stack.Clearing
import BehaviorTree.Proofs.Stack.Reachability
import BehaviorTree.Proofs.Stack.Suspension
import BehaviorTree.Proofs.Steps.Behaviors
import BehaviorTree.Proofs.Steps.Leaves
import BehaviorTree.Proofs.Steps.Loops
import BehaviorTree.Proofs.Steps.Nodes
import BehaviorTree.Proofs.Steps.Play
import BehaviorTree.Proofs.Steps.Reading
import BehaviorTree.Proofs.Steps.Resumption
import BehaviorTree.Proofs.Steps.Runs
import BehaviorTree.Proofs.Steps.Simulation
import BehaviorTree.Proofs.Steps.Total
import BehaviorTree.Proofs.Steps.Transparency
import BehaviorTree.Proofs.Tree.Documents
import BehaviorTree.Proofs.Tree.Loading
import BehaviorTree.Proofs.Tree.Spelling
import BehaviorTree.Proofs.Tree.Structure
import BehaviorTree.Proofs.Variants.Behaviors
import BehaviorTree.Proofs.Variants.Hosts
import BehaviorTree.Proofs.Variants.Jobs
import BehaviorTree.Proofs.Variants.Life
import BehaviorTree.Proofs.Variants.Nodes
import BehaviorTree.Proofs.Variants.Others
import BehaviorTree.Proofs.Variants.Steps
import BehaviorTree.Proofs.Variants.SwitchChain
import BehaviorTree.Proofs.World.Abandonment
import BehaviorTree.Proofs.World.Advance
import BehaviorTree.Proofs.World.Agenda
import BehaviorTree.Proofs.World.Alone
import BehaviorTree.Proofs.World.Depth
import BehaviorTree.Proofs.World.Filing
import BehaviorTree.Proofs.World.Followed
import BehaviorTree.Proofs.World.Invisibility
import BehaviorTree.Proofs.World.Jobs
import BehaviorTree.Proofs.World.Lifetime
import BehaviorTree.Proofs.World.Lockstep
import BehaviorTree.Proofs.World.Lookout
import BehaviorTree.Proofs.World.Ownership
import BehaviorTree.Proofs.World.Programs
import BehaviorTree.Proofs.World.Punctuality
import BehaviorTree.Proofs.World.Range
import BehaviorTree.Proofs.World.Rehearsal
import BehaviorTree.Proofs.World.Roster
import BehaviorTree.Proofs.World.Rules
import BehaviorTree.Proofs.World.Runs
import BehaviorTree.Proofs.World.Sharing
import BehaviorTree.Proofs.World.Timetable
import BehaviorTree.Proofs.World.Watch
import BehaviorTree.Registry
import BehaviorTree.Subscriptions
import BehaviorTree.Text.Blank
import BehaviorTree.Text.Quoted
import BehaviorTree.Text.Unprintable
import BehaviorTree.Text.Width
import BehaviorTree.Tree
import BehaviorTree.Value
import BehaviorTree.Workbench.Nodes
import BehaviorTree.Workbench.Scenario
import BehaviorTree.Workbench.Shown
import BehaviorTree.World
import BehaviorTree.Yaml.Cursor
import BehaviorTree.Yaml.Node
import BehaviorTree.Yaml.Scalar
import BehaviorTree.Yaml.Token
import BehaviorTree.Yaml.Tree
import BehaviorTree.Yaml.Value
