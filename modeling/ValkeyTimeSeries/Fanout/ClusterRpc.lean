/-
Fanout/ClusterRpc.lean

One fanout request from its start to its end: the in-flight table of `fanout/cluster_rpc.rs` and
`exec_command` of `fanout/fanout_command.rs`.

Design.  What the node that asks does is a sequence of events.  Cluster messages and the timer are handled on
the main thread, one after the other; a worker takes the local share from a queue and later reports under the
mutex of the shared state, so its start and its report are events of their own.  `exec_command` is the first
event.  Of the in-flight table the model keeps the entry of this request.

The shared state is dropped when its three handles are gone: of `exec_command`, of the response handler and of
the local share's job.
-/
import ValkeyTimeSeries.Fanout.FanoutCommand

namespace ValkeyTimeSeries

/-- The targets of a fanout, as the cluster map gives them: a node is a target once, one
of them at most is this node, and none is the stand-in. -/
structure FanoutTargets where
  nodes : List NodeInfo
  nodup : (nodes.map NodeInfo.id).Nodup
  local_unique : ∀ a ∈ nodes, ∀ b ∈ nodes, a.isLocal = true → b.isLocal = true → a = b
  real : ∀ a ∈ nodes, a.id ≠ placeholderNode.id

namespace FanoutTargets

def localNode (targets : FanoutTargets) : Option NodeInfo := targets.nodes.find? (·.isLocal)

def remoteTargets (targets : FanoutTargets) : List NodeInfo := targets.nodes.filter fun node => !node.isLocal

end FanoutTargets

structure InFlightRequest where
  id : Nat
  targets : FanoutTargets
  outstanding : Nat
  timedOut : Bool
  /-- Remote targets that have answered. -/
  responded : List Nat

inductive LocalShare where
  | absent
  | queued (node : NodeInfo)
  | running (node : NodeInfo)
  | done
  /-- The job ended without a report, such as by a panic, which the executor catches. -/
  | died
deriving DecidableEq, Repr

/-- There is nothing left of the local share to wait for. -/
def LocalShare.isOver : LocalShare → Bool
  | .absent | .done => true
  | _ => false

structure Fanout (Op : Type) where
  state : FanoutStateInner Op
  /-- The entry of this request in the in-flight table. -/
  inflight : Option InFlightRequest
  share : LocalShare

section

variable {Op : Type} [FanoutCommand Op]

def responseHandler (state : FanoutStateInner Op) (res : Except FanoutError (List (BitVec 8)))
    (target : NodeInfo) : FanoutStateInner Op :=
  match res with
  | .error e => state.onError e target
  | .ok buf =>
    match @FanoutCommand.deserialize Op _ buf with
    | .ok resp => state.onResponse resp target
    | .error e => state.onError (.serialization s!"Failed to deserialize response: {e}") target

namespace InFlightRequest

def getTargetNodeOpt (request : InFlightRequest) (sender : Nat) : Option NodeInfo :=
  request.targets.nodes.find? (·.id = sender)

/-- Whether the answer counts, and what it leaves. -/
def handleResponse (request : InFlightRequest) (state : FanoutStateInner Op)
    (resp : Except FanoutError (List (BitVec 8))) (sender : Nat) :
    Bool × InFlightRequest × FanoutStateInner Op :=
  match (request.getTargetNodeOpt sender).filter (fun node => !node.isLocal) with
  | none => (false, request, state)
  | some targetNode =>
    if sender ∈ request.responded then (false, request, state)
    else
      (true, { request with responded := sender :: request.responded }, responseHandler state resp targetNode)

/-- The entry that is left of a request once an answer has been counted. -/
def finish (request : InFlightRequest) : Option InFlightRequest :=
  if request.outstanding > 0 then
    if request.outstanding = 1 then none else some { request with outstanding := request.outstanding - 1 }
  else some request

end InFlightRequest

namespace Fanout

variable (f : Fanout Op)

def withInflightRequest (requestId : Nat) (resp : Except FanoutError (List (BitVec 8))) (sender : Nat) : Fanout Op :=
  match f.inflight with
  | none => f
  | some request =>
    if request.id = requestId then
      let (accepted, request, state) := request.handleResponse f.state resp sender
      { f with state, inflight := if accepted then request.finish else some request }
    else f

def onResponseReceived (sender : Nat) (message : Option FanoutMessage) : Fanout Op :=
  match message with
  | none => f
  | some message =>
    let resp :=
      if hasUnsupportedFeatures message.requiredFeatures then .error .unsupportedFeatures else .ok message.buf
    f.withInflightRequest message.requestId resp sender

def onErrorReceived (sender : Nat) (message : Option FanoutMessage) : Fanout Op :=
  match message with
  | none => f
  | some message =>
    let error :=
      if hasUnsupportedFeatures message.requiredFeatures then .unsupportedFeatures
      else
        match FanoutError.deserialize message.buf with
        | .ok (error, _) => error
        | .error _ => .invalidMessage
    f.withInflightRequest message.requestId (.error error) sender

def dispatchSendFailure (requestId : Nat) (targetNodeId : Nat) : Fanout Op :=
  f.withInflightRequest requestId (.error (.custom "Failed to send fanout request to target node")) targetNodeId

def onRequestTimeout : Fanout Op :=
  match f.inflight with
  | none => f
  | some request =>
    if request.timedOut then f
    else { f with state := responseHandler f.state (.error .timeout) placeholderNode, inflight := none }

/-- A worker takes the local share from the queue, before or after the deadline. -/
def shareStarts (expired : Bool) : Fanout Op :=
  match f.share with
  | .queued node =>
    if f.state.lifecycle = .completed then { f with share := .done }
    else if expired then { f with state := f.state.onError .timeout node, share := .done }
    else { f with share := .running node }
  | _ => f

def shareReports (result : Except FanoutError (FanoutCommand.Response Op)) : Fanout Op :=
  match f.share with
  | .running node =>
    let state :=
      match result with
      | .ok response => f.state.onResponse response node
      | .error err => f.state.onError err node
    { f with state, share := .done }
  | _ => f

/-- The job of the local share is gone without a report: `get_local_response` panics, or the
queue goes away. -/
def shareDies : Fanout Op :=
  match f.share with
  | .queued _ | .running _ => { f with share := .died }
  | _ => f

/-- The last handle goes away, once the entry of the table and the job are gone. -/
def handlesDropped : Fanout Op :=
  match f.inflight, f.share with
  | some _, _ => f
  | none, .queued _ => f
  | none, .running _ => f
  | none, _ => { f with state := f.state.drop }

def sendRequest (requestId : Nat) (sends : Nat → Bool) (node : NodeInfo) : Fanout Op :=
  if sends node.id then f else f.dispatchSendFailure requestId node.id

end Fanout

/-- `exec_command`: `sends` says which messages the cluster bus takes, `spawned` whether the
executor takes the local share. -/
def execCommand (op : Op) (targets : FanoutTargets) (requestId : Nat) (sends : Nat → Bool) (spawned : Bool) :
    Except FanoutError (Fanout Op) :=
  let outstanding := targets.nodes.length
  match targets.localNode, outstanding with
  | some node, 1 =>
    if spawned then .ok { state := .new op outstanding, inflight := none, share := .queued node } else .error .busy
  | localNode, outstanding =>
    if targets.remoteTargets.isEmpty then .error ⟨.nodeUnreachable, ""⟩
    else
      let request : InFlightRequest :=
        { id := requestId, targets, outstanding := targets.remoteTargets.length, timedOut := false, responded := [] }
      let f : Fanout Op := { state := .new op outstanding, inflight := some request, share := .absent }
      let f := targets.remoteTargets.foldl (fun f node => f.sendRequest requestId sends node) f
      match localNode with
      | none => .ok f
      | some node =>
        if spawned then .ok { f with share := .queued node }
        else .ok { f with state := f.state.onError .busy node }

/-- What can happen to a request that is in flight. -/
inductive FanoutEvent (Op : Type) [FanoutCommand Op] where
  | responseReceived (sender : Nat) (message : Option FanoutMessage)
  | errorReceived (sender : Nat) (message : Option FanoutMessage)
  | requestTimeout
  | shareStarts (expired : Bool)
  | shareReports (result : Except FanoutError (FanoutCommand.Response Op))
  | shareDies
  | handlesDropped

namespace Fanout

def step (f : Fanout Op) : FanoutEvent Op → Fanout Op
  | .responseReceived sender message => f.onResponseReceived sender message
  | .errorReceived sender message => f.onErrorReceived sender message
  | .requestTimeout => f.onRequestTimeout
  | .shareStarts expired => f.shareStarts expired
  | .shareReports result => f.shareReports result
  | .shareDies => f.shareDies
  | .handlesDropped => f.handlesDropped

def run (f : Fanout Op) (events : List (FanoutEvent Op)) : Fanout Op := events.foldl step f

end Fanout

end

end ValkeyTimeSeries
