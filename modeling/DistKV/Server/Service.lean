import DistKV.Raft.Cluster

/-!
# `server/server.go`, `server/membership.go` and `server/transport.go` — servers around the nodes

A server adds to its raft node the loop that takes the messages of `applyCh`, the table of the calls
that wait for a log index, the addresses its transport knows, and the handlers of the RPCs. A handler
is a goroutine: between two of its steps anything else can happen, and `Stage` is where it stands.
A crash of the process takes all of it away; the client sees a lost connection.

The state machine is not part of this layer: `failed` says that a command could not be applied, or a
snapshot not restored. `verdicts` records, for the statements only, what the applier of the process
found at each membership change.
-/

namespace DistKV
namespace Server

open Raft

/-! ## The applier's verdicts -/

/-- A membership change that is applied, and the configuration it meets. -/
structure Verdict where
  cc : ConfChange
  index : Nat
  term : Nat
  conf : ConfState
  deriving DecidableEq

/-- The verdict on one entry. -/
def verdict (n : Node) (e : Entry) : List Verdict :=
  match e.type, e.confChange with
  | .confChange, some cc => [{ cc := cc, index := e.index, term := e.term, conf := n.conf }]
  | _, _ => []

/-- The verdicts along `Node.collectLoop`. -/
def verdictLoop : Nat → Node → List Verdict
  | 0, _ => []
  | fuel + 1, n =>
    if n.lastApplied < n.commitIndex then
      let next := n.lastApplied + 1
      if next < n.store.firstIndex then verdictLoop fuel { n with lastApplied := n.store.snapIndex }
      else
        match n.store.entryAt next with
        | none => []
        | some e => verdict n e ++ verdictLoop fuel { (n.applyEntry e).1 with lastApplied := next }
    else []

def verdicts (n : Node) : List Verdict := verdictLoop (n.commitIndex - n.lastApplied) n

/-! ## State -/

inductive Rpc where
  | write (command : Bytes)
  | get (key : Bytes)
  | addMember (id : Nat) (raftAddr : Bytes)
  | removeMember (id : Nat)
  deriving DecidableEq, Repr

inductive CallError where
  | idAndAddrRequired
  | idRequired
  | removeSelf
  | lastVoter
  | notLeader (leaderID : Nat)
  /-- The context of the call is done. -/
  | deadline (change : Bool)
  | timeout (change : Bool)
  | applyFailed
  | applyLag
  /-- The process is gone. -/
  | lost
  deriving DecidableEq, Repr

def CallError.message : CallError → String
  | .idAndAddrRequired => "id and raft_addr required"
  | .idRequired => "id required"
  | .removeSelf => "cannot remove self via RPC"
  | .lastVoter => "refusing to remove last voter"
  | .notLeader leaderID => "not leader; leader=" ++ toString leaderID
  | .deadline false => "commit timed out"
  | .timeout false => "commit timed out (lost quorum or leadership?)"
  | .deadline true => "config change timed out"
  | .timeout true => "config change timed out"
  | .applyFailed => "apply failed"
  | .applyLag => "apply lag on read"
  | .lost => "connection lost"

/-- What `applyLoop` sends to a waiter. -/
structure Answer where
  term : Nat
  failed : Bool := false
  deriving DecidableEq, Repr

inductive Reply where
  | done
  /-- The lookup of a `Get`, with the number of messages the state machine had seen. -/
  | looked (consumed : Nat)
  deriving DecidableEq, Repr

/-- Where a handler stands; `cc` is the membership change of the proposal, if it is one. -/
inductive Stage where
  | entered (cc : Option ConfChange)
  /-- The proposal is in the log; the waiter is not registered yet. -/
  | proposed (cc : Option ConfChange) (index term : Nat)
  | waiting (cc : Option ConfChange) (index term : Nat)
  | answered (cc : Option ConfChange) (index term : Nat) (answer : Answer)
  | asking
  | reading (r : Nat)
  | lagging (readIdx : Nat)
  | returned (out : Except CallError Reply)
  deriving DecidableEq

structure RpcCall where
  server : Nat
  rpc : Rpc
  stage : Stage
  /-- The changes the call has proposed, with the index and the term they got. -/
  proposals : List (ConfChange × Nat × Nat) := []
  deriving DecidableEq

/-- The memory of a server besides its node. -/
structure ServerState where
  /-- How many messages of `applyCh` are taken. -/
  consumed : Nat := 0
  applied : Nat := 0
  /-- `waiters`: the call that waits for an index. -/
  waiters : Nat → Option Nat := fun _ => none
  /-- `grpcTransport.addrs`. -/
  addrs : Nat → Option Bytes

structure Servers where
  cluster : Cluster
  servers : Nat → ServerState
  calls : List RpcCall := []
  verdicts : Nat → List Verdict := fun _ => []

/-- `New`: the transport copies the start-up peer map, and a snapshot on disk is restored. -/
def ServerState.new (cfg : Config) (startIndex : Nat) : ServerState :=
  { applied := startIndex, addrs := cfg.addrs }

def Servers.init (cfg : Config) : Servers :=
  { cluster := .init cfg, servers := fun _ => .new cfg 0 }

/-! ## `applyLoop` -/

/-- `SetPeer` and `RemovePeer` of the transport. -/
def onConfChangeApplied (addrs : Nat → Option Bytes) (cc : ConfChange) : Nat → Option Bytes :=
  match cc.type with
  | .addNode =>
    if cc.context.length > 0 then Function.update addrs cc.nodeId (some cc.context) else addrs
  | .removeNode => Function.update addrs cc.nodeId none
  | _ => addrs

def RpcCall.receive (call : RpcCall) (answer : Answer) : RpcCall :=
  match call.stage with
  | .waiting cc index term => { call with stage := .answered cc index term answer }
  | _ => call

/-- The proposal of a call has got its place in the log. -/
def RpcCall.place (call : RpcCall) (cc : Option ConfChange) (index term : Nat) : RpcCall :=
  { call with
    stage := .proposed cc index term
    proposals := call.proposals ++ (cc.map fun cc => (cc, index, term)).toList }

namespace Servers

def setServer (s : Servers) (i : Nat) (st : ServerState) : Servers :=
  { s with servers := Function.update s.servers i st }

def setStage (s : Servers) (k : Nat) (stage : Stage) : Servers :=
  { s with calls := s.calls.modify k fun call => { call with stage := stage } }

/-- The waiter of an index, if there is one, gets the answer and is removed. -/
def wake (s : Servers) (i index : Nat) (answer : Answer) : Servers :=
  let st := s.servers i
  match st.waiters index with
  | none => s
  | some k =>
    { s.setServer i { st with waiters := Function.update st.waiters index none } with
      calls := s.calls.modify k (·.receive answer) }

/-- One round of `applyLoop`. -/
def consume (s : Servers) (i : Nat) (failed : Bool) : Option Servers :=
  let st := s.servers i
  (s.cluster.procs i).applyCh[st.consumed]?.map fun msg =>
    let st := { st with consumed := st.consumed + 1 }
    match msg with
    | .snapshot _ index _ =>
      s.setServer i (if failed then st else { st with applied := index })
    | .confChange cc index term =>
      (s.setServer i { st with applied := index, addrs := onConfChangeApplied st.addrs cc }).wake i
        index { term := term }
    | .command _ index term =>
      (s.setServer i { st with applied := index }).wake i index { term := term, failed := failed }

/-! ## Handlers -/

/-- `notLeaderErr`. -/
def notLeaderErr (s : Servers) (i : Nat) : CallError := .notLeader (s.cluster.node i).leaderID

/-- What a handler checks before it goes to the node. -/
def enter (s : Servers) (i : Nat) : Rpc → Stage
  | .write _ => .entered none
  | .get _ => .asking
  | .addMember id raftAddr =>
    if id = 0 ∨ raftAddr = [] then .returned (.error .idAndAddrRequired)
    else .entered (some { type := .addNode, nodeId := id, context := raftAddr })
  | .removeMember id =>
    if id = 0 then .returned (.error .idRequired)
    else if id = i then .returned (.error .removeSelf)
    else if (s.cluster.node i).conf.voters.card ≤ 1 then .returned (.error .lastVoter)
    else .entered (some { type := .removeNode, nodeId := id })

/-- The section of the node a proposal runs, and what it returns. -/
def proposal (s : Servers) (i : Nat) (faults : List Bool) (rpc : Rpc) :
    Option ConfChange → Event × Except NodeError (Nat × Nat)
  | some cc =>
    (.proposeConfChange i cc, (((s.cluster.node i).withFaults faults).proposeConfChange cc).2)
  | none =>
    let data := match rpc with
      | .write command => command
      | _ => []
    (.propose i data, (((s.cluster.node i).withFaults faults).propose data).2)

def propose (cfg : Config) (s : Servers) (k : Nat) (faults : List Bool) : Option Servers :=
  s.calls[k]?.bind fun call =>
    match call.stage with
    | .entered cc =>
      let p := s.proposal call.server faults call.rpc cc
      (s.cluster.step cfg (.run p.1 faults)).map fun c =>
        let s := { s with cluster := c }
        match p.2 with
        | .error _ => s.setStage k (.returned (.error (s.notLeaderErr call.server)))
        | .ok (index, term) => { s with calls := s.calls.set k (call.place cc index term) }
    | _ => none

def register (s : Servers) (k : Nat) : Option Servers :=
  s.calls[k]?.bind fun call =>
    match call.stage with
    | .proposed cc index term =>
      let st := s.servers call.server
      some ((s.setServer call.server
        { st with waiters := Function.update st.waiters index (some k) }).setStage k
          (.waiting cc index term))
    | _ => none

/-- The deferred `delete(s.waiters, index)`. -/
def unregister (s : Servers) (i index : Nat) : Servers :=
  let st := s.servers i
  s.setServer i { st with waiters := Function.update st.waiters index none }

/-- What comes after an answer; a change that is not `LEAVE_JOINT` is followed by one that is. -/
def afterAnswer (s : Servers) (i term : Nat) (cc : Option ConfChange) (answer : Answer) : Stage :=
  if answer.term ≠ term then .returned (.error (s.notLeaderErr i))
  else if answer.failed then .returned (.error .applyFailed)
  else
    match cc with
    | none => .returned (.ok .done)
    | some cc =>
      if cc.type = .leaveJoint then .returned (.ok .done)
      else .entered (some { type := .leaveJoint, nodeId := 0 })

def resume (s : Servers) (k : Nat) : Option Servers :=
  s.calls[k]?.bind fun call =>
    match call.stage with
    | .answered cc index term answer =>
      some ((s.unregister call.server index).setStage k (s.afterAnswer call.server term cc answer))
    | _ => none

/-- The context is done, or the timer has fired; also when an answer is there already. -/
def giveUp (s : Servers) (k : Nat) (deadline : Bool) : Option Servers :=
  s.calls[k]?.bind fun call =>
    let out (change : Bool) : Stage :=
      .returned (.error (if deadline then .deadline change else .timeout change))
    match call.stage with
    | .waiting cc index _ => some ((s.unregister call.server index).setStage k (out cc.isSome))
    | .answered cc index _ _ => some ((s.unregister call.server index).setStage k (out cc.isSome))
    | .lagging _ =>
      some (s.setStage k (if deadline then .returned (.error (.deadline false))
        else .returned (.error .applyLag)))
    | _ => none

/-- `Get` up to the start of `ReadIndex`. -/
def ask (cfg : Config) (s : Servers) (k : Nat) : Option Servers :=
  s.calls[k]?.bind fun call =>
    match call.stage with
    | .asking =>
      match s.cluster.step cfg (.readIndex call.server) with
      | some c => some ({ s with cluster := c }.setStage k (.reading s.cluster.reads.length))
      | none => some (s.setStage k (.returned (.error (s.notLeaderErr call.server))))
    | _ => none

/-- `Get` takes the result of `ReadIndex`. -/
def readDone (s : Servers) (k : Nat) : Option Servers :=
  s.calls[k]?.bind fun call =>
    match call.stage with
    | .reading r =>
      s.cluster.reads[r]?.bind fun rd =>
        match rd.status with
        | .returned index => some (s.setStage k (.lagging index))
        | .failed => some (s.setStage k (.returned (.error (s.notLeaderErr call.server))))
        | .pending => none
    | _ => none

/-- `Get` looks the key up as soon as enough is applied. -/
def look (s : Servers) (k : Nat) : Option Servers :=
  s.calls[k]?.bind fun call =>
    match call.stage with
    | .lagging readIdx =>
      let st := s.servers call.server
      if st.applied ≥ readIdx then some (s.setStage k (.returned (.ok (.looked st.consumed))))
      else none
    | _ => none

end Servers

/-! ## Steps -/

inductive ServiceAction where
  /-- The raft layer, with everything but proposals. -/
  | raft (a : Action)
  | call (i : Nat) (rpc : Rpc)
  | propose (k : Nat) (faults : List Bool)
  | register (k : Nat)
  | consume (i : Nat) (failed : Bool)
  | resume (k : Nat)
  | giveUp (k : Nat) (deadline : Bool)
  | ask (k : Nat)
  | readDone (k : Nat)
  | look (k : Nat)

/-- Proposals come from handlers only. -/
def isProposal : Action → Bool
  | .run (.propose ..) _ => true
  | .run (.proposeConfChange ..) _ => true
  | _ => false

/-- A handler of a process that crashes. -/
def RpcCall.lose (call : RpcCall) (i : Nat) : RpcCall :=
  match call.stage with
  | .returned _ => call
  | _ => if call.server = i then { call with stage := .returned (.error .lost) } else call

namespace Servers

/-- The servers after a step of the raft layer. -/
def follow (cfg : Config) (s : Servers) (a : Action) (c : Cluster) : Servers :=
  match a with
  | .restart i .. =>
    { cluster := c
      servers := Function.update s.servers i (.new cfg (c.procs i).startIndex)
      calls := s.calls.map (·.lose i)
      verdicts := Function.update s.verdicts i [] }
  | .run (.collect i) _ =>
    { s with
      cluster := c
      verdicts := Function.update s.verdicts i (s.verdicts i ++ Server.verdicts (s.cluster.node i)) }
  | _ => { s with cluster := c }

def step (cfg : Config) (s : Servers) : ServiceAction → Option Servers
  | .raft a =>
    if isProposal a then none else (s.cluster.step cfg a).map (s.follow cfg a)
  | .call i rpc =>
    if i = 0 then none
    else some { s with calls := s.calls ++ [{ server := i, rpc := rpc, stage := s.enter i rpc }] }
  | .propose k faults => s.propose cfg k faults
  | .register k => s.register k
  | .consume i failed => s.consume i failed
  | .resume k => s.resume k
  | .giveUp k deadline => s.giveUp k deadline
  | .ask k => s.ask cfg k
  | .readDone k => s.readDone k
  | .look k => s.look k

end Servers
end Server
end DistKV
