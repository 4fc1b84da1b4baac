import Mathlib.Data.String.Basic
import RandallFlare.Lib.SortedMap

/-!
# Flow graphs

A flow is a graph of nodes; a node runs once the fate of every node before it is known, on the
outputs of those whose edge to it is live, and is skipped if none is.

* `Value`, `FlowNode`, `FlowEdge`, `FlowGraph`: the data;
* `StepState`, `edgeIsLive`, `ready`: how the fate of nodes routes a run;
* `collectInput`, `nodeContext`, `finalOutput`: what nodes and runs are given and give;
* `loopBody`, `loopItems`: the part of the graph that a loop node repeats, and over what;
* `Engine`: what running a node does, as a function of the node and what it is given.
-/

namespace RandallFlare

namespace Flow

inductive Value
  | null
  | bool (b : Bool)
  | num (n : ℤ)
  | str (s : String)
  | arr (items : List Value)
  | obj (fields : List (String × Value))

/-- An object from its fields; of two fields of one name the later counts. -/
def Value.object (fields : List (String × Value)) : Value :=
  .obj (fields.foldl (fun l p => SortedMap.insertEntry p.1 p.2 l) [])

def Value.asNat : Value → Option ℕ
  | .num n => n.toNat?
  | _ => none

def Value.asStr : Value → Option String
  | .str s => some s
  | _ => none

/-- What becomes of a run when a node fails. -/
inductive OnError
  | stop | continue | branch
  deriving DecidableEq

structure FlowNode where
  id : String
  nodeType : String
  label : String := ""
  onError : OnError := .stop
  config : List (String × Value) := []

structure FlowEdge where
  source : String
  target : String
  sourceHandle : Option String := none
  deriving DecidableEq

structure FlowGraph where
  nodes : List FlowNode
  edges : List FlowEdge

def FlowNode.isLoop (n : FlowNode) : Bool := n.nodeType = "loop"

inductive StepStatus
  | complete | failed | skipped
  deriving DecidableEq

/-- How the nodes after a step see its end. -/
inductive RouteStatus
  | success | continued | error | failed | skipped
  deriving DecidableEq

/-- What a step gave. -/
structure ExecResult where
  status : StepStatus
  routeStatus : RouteStatus
  output : Value
  taken : Option String
  error : Option String

/-- What later nodes see of a step. -/
structure StepState where
  routeStatus : RouteStatus
  output : Value
  taken : Option String

abbrev States := SortedMap String StepState

def ExecResult.state (r : ExecResult) : StepState := ⟨r.routeStatus, r.output, r.taken⟩

/-- The result of a node that no live edge reaches. -/
def skippedResult : ExecResult := ⟨.skipped, .skipped, .null, none, none⟩

/-- The result of a node that gave an output, with the handle it took. -/
def successResult (output : Value) (taken : Option String) : ExecResult :=
  ⟨.complete, .success, output, taken, none⟩

/-- The result of a node that ends its run. -/
def failedResult (message : String) : ExecResult := ⟨.failed, .failed, .null, none, some message⟩

/-- The result of a node that failed, as its `onError` has it. -/
def FlowNode.errorResult (n : FlowNode) (message : String) : ExecResult :=
  match n.onError with
  | .continue => ⟨.failed, .continued, .object [("error", .str message)], none, some message⟩
  | .branch => ⟨.failed, .error, .object [("error", .str message)], some "error", some message⟩
  | .stop => failedResult message

/-! ### Routing -/

/-- The edge leads on from what its source gave. -/
def edgeIsLive (states : States) (e : FlowEdge) : Bool :=
  match states.get e.source with
  | none => false
  | some source =>
    if source.routeStatus = .failed ∨ source.routeStatus = .skipped then false
    else
      match source.taken with
      | some taken => e.sourceHandle.getD "default" = taken
      | none => e.sourceHandle.all (· = "default")

/-- A node that may run, with the edges to it and the live ones among them. -/
structure Ready where
  node : FlowNode
  incoming : List FlowEdge
  live : List FlowEdge

/-- The first node without a fate for all of whose sources there is one. -/
def ready (nodes : List FlowNode) (edges : List FlowEdge) (states : States) : Option Ready :=
  nodes.findSome? fun n =>
    let incoming := edges.filter (·.target = n.id)
    if (states.get n.id).isSome then none
    else if incoming.any fun e => (states.get e.source).isNone then none
    else some ⟨n, incoming, incoming.filter (edgeIsLive states)⟩

/-- No live edge leads to a node that has edges to it. -/
def Ready.dead (r : Ready) : Bool := !r.incoming.isEmpty && r.live.isEmpty

variable {nodes : List FlowNode} {edges : List FlowEdge} {states : States}

theorem ready_eq_some {r : Ready} (h : ready nodes edges states = some r) :
    r.node ∈ nodes ∧ states.get r.node.id = none := by
  obtain ⟨n, hn, heq⟩ := List.exists_of_findSome?_eq_some h
  dsimp only at heq
  split_ifs at heq with hfate
  cases heq
  exact ⟨hn, by simpa using hfate⟩

theorem ready_eq_none
    (h : ∀ n ∈ nodes, (states.get n.id).isSome) : ready nodes edges states = none := by
  refine List.findSome?_eq_none_iff.2 fun n hn => ?_
  simp [h n hn]

/-- The input of a node: the run's, the output before it, or the outputs by their sources. -/
def collectInput (root : Value) (live : List FlowEdge) (states : States) : Value :=
  match live with
  | [] => root
  | [e] => ((states.get e.source).map (·.output)).getD .null
  | many => .object (many.filterMap fun e =>
      (states.get e.source).map fun state => (e.source, state.output))

/-- The outputs so far by the ids and the labels of their nodes. -/
def nodeContext (nodes : List FlowNode) (states : States) (context : SortedMap String Value) :
    SortedMap String Value :=
  nodes.foldl (fun context n =>
    match states.get n.id with
    | none => context
    | some state =>
      let context := context.insert n.id state.output
      if n.label.isEmpty then context else context.insert n.label state.output) context

/-- The output of a graph: that of its one sink that was not skipped, or of all by their labels. -/
def finalOutput (graph : FlowGraph) (states : States) : Value :=
  let sinks := graph.nodes.filter fun n =>
    !graph.edges.any (·.source = n.id) && (states.get n.id).any (·.routeStatus ≠ .skipped)
  match sinks with
  | [sink] => ((states.get sink.id).map (·.output)).getD .null
  | sinks => .object (sinks.filterMap fun sink => (states.get sink.id).map fun state =>
      (if sink.label.isEmpty then sink.id else sink.label, state.output))

/-! ### Loops -/

/-- The targets of the edges of a node with this handle. -/
def handleTargets (graph : FlowGraph) (source handle : String) : List String :=
  (graph.edges.filter fun e => e.source = source ∧ e.sourceHandle = some handle).map (·.target)

def targets (graph : FlowGraph) (source : String) : List String :=
  (graph.edges.filter (·.source = source)).map (·.target)

/-- Follow the edges from a queue of nodes; each node enters the queue once, when it is first
found. -/
def followDone (graph : FlowGraph) (loopId : String) :
    ℕ → List String → List String → List String
  | 0, _, stop => stop
  | _ + 1, [], stop => stop
  | fuel + 1, source :: queue, stop =>
    let found := (targets graph source).foldl
      (fun found t => if t = loopId ∨ t ∈ stop ++ found then found else found ++ [t]) []
    followDone graph loopId fuel (queue ++ found) (stop ++ found)

/-- Follow the edges from a queue of nodes up to those in `stop`. -/
def followEach (graph : FlowGraph) (stop : List String) :
    ℕ → List String → List String → List String
  | 0, _, body => body
  | _ + 1, [], body => body
  | fuel + 1, source :: queue, body =>
    if source ∈ stop ∨ source ∈ body then followEach graph stop fuel queue body
    else followEach graph stop fuel (queue ++ targets graph source) (body ++ [source])

/-- The nodes of the body of a loop: what its `each` edges reach and its `done` edges do not.  A
queue takes in no more than its first nodes and one node for each edge. -/
def loopBody (loopId : String) (graph : FlowGraph) : List String :=
  let each := handleTargets graph loopId "each"
  let done := handleTargets graph loopId "done"
  let stop := followDone graph loopId (done.length + graph.edges.length) done done
  followEach graph (stop ++ [loopId]) (each.length + graph.edges.length) each []

/-- The nodes through which a loop enters its body. -/
def loopEntries (loopId : String) (graph : FlowGraph) : List String :=
  (handleTargets graph loopId "each").filter (· ∈ loopBody loopId graph)

/-- The body of a loop as a graph of its own. -/
def bodyGraph (loopId : String) (graph : FlowGraph) : FlowGraph :=
  let body := loopBody loopId graph
  ⟨graph.nodes.filter (·.id ∈ body), graph.edges.filter fun e => e.source ∈ body ∧ e.target ∈ body⟩

/-! ### Running a node -/

/-- What a node is given. -/
structure ExecContext where
  input : Value
  trigger : Value
  nodes : SortedMap String Value
  item : Option Value

/-- What running a node gives, for the node, the iteration of the loop it is in (0 outside) and what
it is given: an output with the handle it takes, or the text of an error after the last retry; what
an expression means; the size of a value in JSON; which graphs are accepted. -/
structure Engine where
  execute : FlowNode → ℕ → ExecContext → Except String (Value × Option String)
  evalExpression : String → ExecContext → Except String Value
  size : Value → ℕ
  accepts : FlowGraph → Bool

def maxNodeResultBytes : ℕ := 4 * 1024 * 1024

def maxLoopItems : ℕ := 1000

/-- Characters of a text up to so many bytes. -/
def clip : ℕ → List Char → List Char
  | _, [] => []
  | bytes, c :: cs => if c.utf8Size ≤ bytes then c :: clip (bytes - c.utf8Size) cs else []

def safeError (message : String) : String := String.ofList (clip 2000 message.toList)

/-- A value as the items of a loop. -/
def Value.items (max : ℕ) : Value → List Value
  | .arr values => values.take max
  | .null => []
  | value => [value]

/-- What a loop repeats its body over. -/
def loopItems (E : Engine) (n : FlowNode) (context : ExecContext) :
    Except String (List Value) :=
  let max := min (Nat.max 1 ((n.config.lookup "maxIterations").bind Value.asNat |>.getD 10))
    maxLoopItems
  if (n.config.lookup "mode").bind Value.asStr = some "count" then
    let count := min ((n.config.lookup "count").bind Value.asNat |>.getD 1) max
    .ok ((List.range count).map fun i => .num i)
  else
    let expression := ((n.config.lookup "items").or (n.config.lookup "itemsPath")).bind Value.asStr
    let value := match expression with
      | some expression => E.evalExpression expression context
      | none => .ok context.input
    value.map (Value.items max)

end Flow

end RandallFlare
