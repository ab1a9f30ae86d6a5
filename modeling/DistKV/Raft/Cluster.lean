import DistKV.Raft.Node

/-!
# A cluster of nodes

Nodes run their critical sections one at a time and talk through RPC calls. A call is one
goroutine of the source: it stays in the list for ever, so its request can be delivered late,
repeatedly or never, and every delivery adds a reply; the goroutine itself takes at most one
reply (or a transport error) and is gone after that. A crash drops everything in the memory of
a process — its goroutines, its unsent apply messages, its pending reads — and restarts it from
the files.

`cmd/distkv` refuses the id 0 (`votedFor` uses it for "none"), so no process has it.
-/

namespace DistKV
namespace Raft

/-! ## What one critical section does -/

inductive NodeOp where
  | tick (timedOut : Bool) (due : Nat → Bool)
  | propose (command : Bytes)
  | proposeConfChange (cc : ConfChange)
  | snapshot (index : Nat) (data : Bytes)
  | collect
  | handle (req : Request)
  | reply (peer : Nat) (req : Request) (resp : Response)
  | finish (peer : Nat)

/-- What a section hands to the rest of the process and to the network. -/
structure Effect where
  sends : List Send := []
  resp : Option Response := none
  /-- The message `HandleInstallSnapshot` sends before it replies. -/
  install : Option ApplyMsg := none
  collected : List ApplyMsg := []
  /-- A ReadIndex reply that counts. -/
  ack : Bool := false

namespace Node

/-- The ReadIndex goroutine of one peer after its reply; the flag is `acks++`. -/
def onReadIndexReply (n : Node) (req : ReadIndexRequest) (resp : ReadIndexResponse) :
    Node × Bool :=
  if resp.term > n.store.term then (n.stepDownLocked resp.term, false)
  else if n.role ≠ .leader ∨ n.store.term ≠ req.term then (n, false)
  else (n, resp.ack)

/-- The ack threshold of `ReadIndex`. -/
def readQuorum (n : Node) : Nat :=
  let need := majority n.peerIDs.length
  if n.conf.inJoint then max (max need (majority n.conf.joint.card)) (majority n.conf.voters.card)
  else need

def handle (n : Node) : Request → Node × Effect
  | .requestVote req =>
    let r := n.handleRequestVote req
    (r.1, { resp := some (.requestVote r.2) })
  | .appendEntries req =>
    let r := n.handleAppendEntries req
    (r.1, { resp := some (.appendEntries r.2) })
  | .installSnapshot req =>
    let r := n.handleInstallSnapshot req
    (r.1, { resp := some (.installSnapshot r.2.1), install := r.2.2 })
  | .readIndex req =>
    let r := n.handleReadIndex req
    (r.1, { resp := some (.readIndex r.2) })

/-- The continuation of an RPC goroutine; a reply of another kind cannot arrive. -/
def onReply (n : Node) (peer : Nat) : Request → Response → Option (Node × Effect)
  | .requestVote req, .requestVote resp =>
    let r := n.onVoteReply req.term resp
    some (r.1, { sends := r.2 })
  | .appendEntries req, .appendEntries resp => some (n.onAppendReply peer req resp, {})
  | .installSnapshot req, .installSnapshot resp => some (n.onSnapshotReply peer req resp, {})
  | .readIndex req, .readIndex resp =>
    let r := n.onReadIndexReply req resp
    some (r.1, { ack := r.2 })
  | _, _ => none

/-- Sets what the environment decides for the next section. -/
def withFaults (n : Node) (faults : List Bool) : Node :=
  { n with store := { n.store with disk := { n.store.disk with faults := faults, trail := [] } } }

def exec (n : Node) (op : NodeOp) : Option (Node × Effect) :=
  if n.locked then none
  else
    match op with
    | .tick timedOut due => let r := n.tick timedOut due; some (r.1, { sends := r.2 })
    | .propose command => some ((n.propose command).1, {})
    | .proposeConfChange cc => some ((n.proposeConfChange cc).1, {})
    | .snapshot index data => some ((n.snapshot index data).1, {})
    | .collect => n.collect.map fun r => (r.1, { collected := r.2 })
    | .handle req => some (n.handle req)
    | .reply peer req resp => n.onReply peer req resp
    | .finish peer => some ({ n with inflight := Function.update n.inflight peer false }, {})

end Node

/-! ## Processes, calls and reads -/

/-- The raft side of one running server. -/
structure Process where
  node : Node
  /-- `snapIndex` when the process started. -/
  startIndex : Nat := 0
  /-- Collected by the applier and not sent yet. -/
  batch : List ApplyMsg := []
  /-- `HandleInstallSnapshot` calls between the unlock and the send. -/
  installs : List (Nat × Response × ApplyMsg) := []
  /-- Everything sent on `applyCh` since the process started, oldest first. -/
  applyCh : List ApplyMsg := []

inductive CallPhase where
  | waiting
  /-- The reply is handled; `inflight` of the peer is not cleared yet. -/
  | returned
  | closed
  deriving DecidableEq, Repr

structure Call where
  source : Nat
  dest : Nat
  req : Request
  /-- Which `ReadIndex` invocation the goroutine belongs to. -/
  read : Nat := 0
  phase : CallPhase := .waiting
  replies : List Response := []

inductive ReadStatus where
  | pending
  | failed
  | returned (index : Nat)
  deriving DecidableEq, Repr

/-- One invocation of `ReadIndex`. -/
structure Read where
  node : Nat
  readIdx : Nat
  term : Nat
  need : Nat
  acks : Nat := 1
  done : Bool := false
  status : ReadStatus := .pending

structure Config where
  peers : List Nat
  addrs : Nat → Option Bytes := fun _ => none

structure Cluster where
  procs : Nat → Process
  calls : List Call := []
  reads : List Read := []

/-- The node of process `i`. -/
def Cluster.node (c : Cluster) (i : Nat) : Node := (c.procs i).node

/-- A process that has just opened its storage. -/
def Process.start (cfg : Config) (i : Nat) (store : DiskStorage) : Process :=
  { node := Node.newNode i cfg.addrs store, startIndex := store.snapIndex }

/-- Every process on an empty directory. -/
def Cluster.init (cfg : Config) : Cluster :=
  { procs := fun i => Process.start cfg i { conf := .newConfState cfg.peers } }

/-! ## Actions -/

/-- A critical section of one process. -/
inductive Event where
  | tick (i : Nat) (timedOut : Bool) (due : Nat → Bool)
  | propose (i : Nat) (command : Bytes)
  | proposeConfChange (i : Nat) (cc : ConfChange)
  | snapshot (i : Nat) (index : Nat) (data : Bytes)
  | collect (i : Nat)
  /-- The request of call `k` reaches its destination. -/
  | deliver (k : Nat)
  /-- The goroutine of call `k` takes the `r`-th reply. -/
  | reply (k r : Nat)
  | finish (k : Nat)

inductive Action where
  | run (e : Event) (faults : List Bool)
  /-- The applier sends the next message of its batch. -/
  | emit (i : Nat)
  /-- A `HandleInstallSnapshot` call sends its message and replies. -/
  | emitInstall (i k : Nat)
  /-- The transport reports an error to the goroutine of call `k`. -/
  | abort (k : Nat)
  | readIndex (i : Nat)
  | readReturn (r : Nat)
  /-- Timeout or cancelled context. -/
  | readAbort (r : Nat)
  /-- Crash of process `i`, between two sections or in the middle of one: then the files are in
      the `point`-th state the section took them through. `keep` of the unsynced WAL records
      survive. -/
  | restart (i : Nat) (during : Option Event) (faults : List Bool) (point keep : Nat)

namespace Call

/-- Vote and ReadIndex goroutines end with their reply; replication goroutines still have to
    clear `inflight`. -/
def afterReply (call : Call) : CallPhase :=
  match call.req with
  | .appendEntries _ => .returned
  | .installSnapshot _ => .returned
  | _ => .closed

def addReply (call : Call) (resp : Response) : Call :=
  { call with replies := call.replies ++ [resp] }

end Call

def Read.addAck (r : Read) : Read :=
  { r with acks := r.acks + 1, done := r.done || decide (r.acks + 1 ≥ r.need) }

namespace Cluster

/-- The process an event runs in and the section it runs there. -/
def resolve (c : Cluster) : Event → Option (Nat × NodeOp)
  | .tick i timedOut due => some (i, .tick timedOut due)
  | .propose i command => some (i, .propose command)
  | .proposeConfChange i cc => some (i, .proposeConfChange cc)
  | .snapshot i index data => some (i, .snapshot index data)
  -- the applier collects again only after it has sent its last batch
  | .collect i => if (c.procs i).batch = [] then some (i, .collect) else none
  | .deliver k => c.calls[k]?.map fun call => (call.dest, .handle call.req)
  | .reply k r =>
    c.calls[k]?.bind fun call =>
      if call.phase = .waiting then
        call.replies[r]?.map fun resp => (call.source, .reply call.dest call.req resp)
      else none
  | .finish k =>
    c.calls[k]?.bind fun call =>
      if call.phase = .returned then some (call.source, .finish call.dest) else none

/-- The section an event runs, with its outcome. -/
def outcome (c : Cluster) (e : Event) (faults : List Bool) : Option (Nat × Node × Effect) :=
  (c.resolve e).bind fun r =>
    if r.1 = 0 then none
    else (((c.node r.1).withFaults faults).exec r.2).map fun q => (r.1, q.1, q.2)

def setProc (c : Cluster) (i : Nat) (p : Process) : Cluster :=
  { c with procs := Function.update c.procs i p }

def openCall (i : Nat) (s : Send) : Call := { source := i, dest := s.peer, req := s.req }

/-- The bookkeeping of the calls and reads an event belongs to. -/
def settle (c : Cluster) (i : Nat) (eff : Effect) : Event → Cluster
  | .deliver k =>
    match eff.resp with
    | none => c
    | some resp =>
      match eff.install with
      | none => { c with calls := c.calls.modify k (·.addReply resp) }
      | some msg =>
        let p := c.procs i
        c.setProc i { p with installs := p.installs ++ [(k, resp, msg)] }
  | .reply k _ =>
    { c with
      calls := c.calls.modify k fun call => { call with phase := call.afterReply }
      reads := if eff.ack then
          match c.calls[k]? with
          | some call => c.reads.modify call.read Read.addAck
          | none => c.reads
        else c.reads }
  | .finish k => { c with calls := c.calls.modify k fun call => { call with phase := .closed } }
  | .collect _ =>
    let p := c.procs i
    c.setProc i { p with batch := eff.collected }
  | _ => c

/-- The state after a section: the node's new state, then the bookkeeping, then the new calls. -/
def finishSection (c : Cluster) (e : Event) (i : Nat) (n : Node) (eff : Effect) : Cluster :=
  let c := c.setProc i { c.procs i with node := n }
  let c := c.settle i eff e
  { c with calls := c.calls ++ eff.sends.map (openCall i) }

/-- The files a crash finds: those the process has, or those in the middle of a section. -/
def filesAt (c : Cluster) (i : Nat) (during : Option Event) (faults : List Bool) (point : Nat) :
    Option Files :=
  match during with
  | none => some (c.node i).store.disk.files
  | some e =>
    (c.outcome e faults).bind fun r =>
      if r.1 = i then r.2.1.store.disk.trail[point]? else none

/-- Process `i` loses its memory and starts again on `store`. -/
def restarted (cfg : Config) (c : Cluster) (i : Nat) (store : DiskStorage) : Cluster :=
  { procs := Function.update c.procs i (Process.start cfg i store)
    calls := c.calls.map fun call => if call.source = i then { call with phase := .closed } else call
    reads := c.reads.map fun r =>
      if r.node = i ∧ r.status = .pending then { r with status := .failed } else r }

/-- The invocation of `ReadIndex` on a leader. -/
def startRead (c : Cluster) (i : Nat) : Cluster :=
  let n := c.node i
  let req : Request := .readIndex { term := n.store.term, leaderId := n.id }
  { c with
    reads := c.reads ++
      [{ node := i, readIdx := n.commitIndex, term := n.store.term, need := n.readQuorum }]
    calls := c.calls ++ (n.peerIDs.filter (· ≠ n.id)).map fun p =>
      { source := i, dest := p, req := req, read := c.reads.length } }

def step (cfg : Config) (c : Cluster) : Action → Option Cluster
  | .run e faults => (c.outcome e faults).map fun r => c.finishSection e r.1 r.2.1 r.2.2
  | .emit i =>
    let p := c.procs i
    match p.batch with
    | [] => none
    | m :: rest => some (c.setProc i { p with batch := rest, applyCh := p.applyCh ++ [m] })
  | .emitInstall i k =>
    let p := c.procs i
    p.installs[k]?.map fun q =>
      let c := c.setProc i
        { p with installs := p.installs.eraseIdx k, applyCh := p.applyCh ++ [q.2.2] }
      { c with calls := c.calls.modify q.1 (·.addReply q.2.1) }
  | .abort k =>
    c.calls[k]?.bind fun call =>
      if call.phase = .waiting then
        some { c with calls := c.calls.modify k fun call => { call with phase := call.afterReply } }
      else none
  | .readIndex i =>
    let n := c.node i
    if i = 0 ∨ n.locked = true ∨ n.role ≠ .leader then none else some (c.startRead i)
  | .readReturn r =>
    c.reads[r]?.bind fun rd =>
      let n := c.node rd.node
      if rd.done = true ∧ rd.status = .pending ∧ n.locked = false then
        let status := if n.role = .leader ∧ n.store.term = rd.term then
          .returned rd.readIdx else .failed
        some { c with reads := c.reads.set r { rd with status := status } }
      else none
  | .readAbort r =>
    c.reads[r]?.bind fun rd =>
      if rd.status = .pending then
        some { c with reads := c.reads.set r { rd with status := .failed } }
      else none
  | .restart i during faults point keep =>
    if i = 0 then none
    else
      (c.filesAt i during faults point).bind fun files =>
        (DiskStorage.openDiskStorage (files.crash keep) cfg.peers).map (restarted cfg c i)

end Cluster
end Raft
end DistKV
