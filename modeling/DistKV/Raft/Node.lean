import Mathlib.Logic.Function.Basic
import DistKV.Raft.Storage

/-!
# `raft/node.go` — one node

Every function here is the body of one critical section of `Node.mu`. What a section starts in
the background is returned instead of performed: an RPC goroutine is a `Send`, a message for
`applyCh` is an `ApplyMsg`. Two sources of nondeterminism come in as arguments: whether the
election deadline has passed and whether a peer's heartbeat interval has elapsed are clock
readings.
-/

namespace DistKV
namespace Raft

inductive Role where
  | follower
  | candidate
  | leader
  deriving DecidableEq, Repr, Inhabited

/-- Sent on the apply channel for each committed entry or installed snapshot; the three
    `Valid` flags of the source exclude each other. -/
inductive ApplyMsg where
  | command (data : Bytes) (index term : Nat)
  | confChange (cc : ConfChange) (index term : Nat)
  | snapshot (data : Bytes) (index term : Nat)
  deriving DecidableEq, Repr

def ApplyMsg.index : ApplyMsg → Nat
  | .command _ index _ => index
  | .confChange _ index _ => index
  | .snapshot _ index _ => index

inductive NodeError where
  | notLeader
  | conf (e : ConfError)
  | storage
  | beyondApplied
  deriving DecidableEq, Repr

/-- An RPC goroutine started for `peer`. -/
structure Send where
  peer : Nat
  req : Request
  deriving DecidableEq

structure Node where
  id : Nat
  store : DiskStorage
  conf : ConfState
  addrs : Nat → Option Bytes := fun _ => none
  role : Role := .follower
  leaderID : Nat := 0
  commitIndex : Nat := 0
  lastApplied : Nat := 0
  nextIndex : Nat → Option Nat := fun _ => none
  matchIndex : Nat → Option Nat := fun _ => none
  inflight : Nat → Bool := fun _ => false
  /-- The `votes` variable of each election, by the election's term. -/
  votes : Nat → Nat := fun _ => 0
  /-- `mu` was left locked: no section of this process runs again. -/
  locked : Bool := false

namespace Node

/-- `NewNode` on an opened storage. -/
def newNode (id : Nat) (addrs : Nat → Option Bytes) (store : DiskStorage) : Node :=
  { id := id, store := store, conf := store.conf, addrs := addrs,
    commitIndex := store.snapIndex, lastApplied := store.snapIndex }

def peerIDs (n : Node) : List Nat := n.conf.allPeerIDs

/-! ## Proposals -/

def appendEntryLocked (n : Node) (e : Entry) : Node × Except NodeError (Nat × Nat) :=
  let r := n.store.appendEntries [e]
  if r.2 then
    ({ n with store := r.1, matchIndex := Function.update n.matchIndex n.id (some e.index) },
      .ok (e.index, e.term))
  else ({ n with store := r.1 }, .error .storage)

def propose (n : Node) (command : Bytes) : Node × Except NodeError (Nat × Nat) :=
  if n.role ≠ .leader then (n, .error .notLeader)
  else
    n.appendEntryLocked
      { term := n.store.term, index := n.store.lastIndex + 1, data := command }

def proposeConfChange (n : Node) (cc : ConfChange) : Node × Except NodeError (Nat × Nat) :=
  if n.role ≠ .leader then (n, .error .notLeader)
  else if cc.type ≠ .leaveJoint ∧ n.conf.inJoint = true then
    (n, .error (.conf .confChangeInProgress))
  else
    match n.conf.applyConfChange cc with
    | .error e => (n, .error (.conf e))
    | .ok _ =>
      n.appendEntryLocked
        { term := n.store.term, index := n.store.lastIndex + 1, type := .confChange,
          confChange := some cc }

/-! ## Leadership -/

/-- A failed `setHardState` is logged and otherwise ignored. -/
def stepDownLocked (n : Node) (term : Nat) : Node :=
  let n := if term > n.store.term then { n with store := (n.store.setHardState term 0).1 } else n
  { n with role := .follower }

/-- `due` says that the peer's heartbeat interval has elapsed. -/
def sendAppendLocked (n : Node) (peer : Nat) (due : Bool) : Node × List Send :=
  let ni := (n.nextIndex peer).getD 0
  let hasNew := decide (n.store.lastIndex ≥ ni)
  if !hasNew && !due then (n, [])
  else if ni < n.store.firstIndex then
    if n.inflight peer then (n, [])
    else
      ({ n with inflight := Function.update n.inflight peer true },
        [{ peer := peer
           req := .installSnapshot
            { term := n.store.term, leaderId := n.id,
              lastIncludedIndex := n.store.snapIndex, lastIncludedTerm := n.store.snapTerm,
              data := n.store.snapshot, confState := n.conf } }])
  else
    match n.store.termAt (ni - 1) with
    | none => (n, [])
    | some prevTerm =>
      if n.inflight peer then (n, [])
      else
        ({ n with inflight := Function.update n.inflight peer true },
          [{ peer := peer
             req := .appendEntries
              { term := n.store.term, leaderId := n.id,
                prevLogIndex := ni - 1, prevLogTerm := prevTerm,
                entries := n.store.entriesFrom ni, leaderCommit := n.commitIndex } }])

/-- The loop of `broadcastAppendLocked` over the peers. -/
def sendAll (n : Node) (due : Nat → Bool) : List Nat → Node × List Send
  | [] => (n, [])
  | p :: ps =>
    if p = n.id then n.sendAll due ps
    else
      let r := n.sendAppendLocked p (due p)
      let rest := r.1.sendAll due ps
      (rest.1, r.2 ++ rest.2)

def broadcastAppendLocked (n : Node) (due : Nat → Bool) : Node × List Send :=
  let r := n.store.sync
  let n := { n with store := r.1 }
  if r.2 then n.sendAll due n.peerIDs else (n, [])

/-- `lastSentAt` is emptied on election, so every heartbeat is due. -/
def becomeLeaderLocked (n : Node) : Node × List Send :=
  if n.role = .leader then (n, [])
  else
    let last := n.store.lastIndex
    let fresh (v : Nat) : Nat → Option Nat := fun p => if p ∈ n.peerIDs then some v else none
    let n := { n with
      role := .leader, leaderID := n.id
      nextIndex := fresh (last + 1)
      matchIndex := Function.update (fresh 0) n.id (some last)
      inflight := fun _ => false }
    let noop : Entry := { term := n.store.term, index := last + 1 }
    let r := n.store.appendEntries [noop]
    let n := { n with store := r.1 }
    let n := if r.2 then
        { n with
          matchIndex := Function.update n.matchIndex n.id (some noop.index)
          nextIndex := Function.update n.nextIndex n.id (some (noop.index + 1)) }
      else n
    n.broadcastAppendLocked fun _ => true

def startElectionLocked (n : Node) : Node × List Send :=
  if !n.conf.contains n.id then (n, [])
  -- a fresh join node (only itself in the config, empty log) waits for leader contact
  else if n.conf.voterIDs.length = 1 ∧ n.store.lastIndex = n.store.snapIndex then (n, [])
  else
    let newTerm := n.store.term + 1
    let r := n.store.setHardState newTerm n.id
    let n := { n with role := .candidate, store := r.1 }
    if !r.2 then (n, [])
    else
      let n := { n with leaderID := 0, votes := Function.update n.votes newTerm 1 }
      let lastIdx := n.store.lastIndex
      let req : RequestVoteRequest :=
        { term := newTerm, candidateId := n.id, lastLogIndex := lastIdx,
          lastLogTerm := (n.store.termAt lastIdx).getD 0 }
      (n, (n.peerIDs.filter (· ≠ n.id)).map fun p => { peer := p, req := .requestVote req })

/-- The election goroutine of one peer, after its reply: `newTerm` is the election's term. -/
def onVoteReply (n : Node) (newTerm : Nat) (resp : RequestVoteResponse) : Node × List Send :=
  if resp.term > n.store.term then (n.stepDownLocked resp.term, [])
  else if n.role ≠ .candidate ∨ n.store.term ≠ newTerm ∨ resp.voteGranted = false then (n, [])
  else
    let n := { n with votes := Function.update n.votes newTerm (n.votes newTerm + 1) }
    if n.conf.hasVoteQuorum (n.votes newTerm) then n.becomeLeaderLocked else (n, [])

/-- One iteration of `run`. -/
def tick (n : Node) (timedOut : Bool) (due : Nat → Bool) : Node × List Send :=
  match n.role with
  | .leader => n.broadcastAppendLocked due
  | _ => if timedOut then n.startElectionLocked else (n, [])

/-! ## Replication replies -/

def advanceCommitLocked (n : Node) : Node :=
  let majority := n.conf.maxCommitIndex n.matchIndex
  if majority ≤ n.commitIndex then n
  else
    let r := n.store.sync
    let n := { n with store := r.1 }
    if !r.2 then n
    else
      match n.store.termAt majority with
      | none => n
      | some t => if t ≠ n.store.term then n else { n with commitIndex := majority }

/-- `for i := lastIndex; i >= firstIndex; i--`: the index after the last local entry of the
    conflict term, if there is one. -/
def scanConflict (s : DiskStorage) (conflictTerm next : Nat) : Nat → Nat
  | 0 => next
  | i + 1 =>
    if i + 1 < s.firstIndex then next
    else
      match s.termAt (i + 1) with
      | none => next
      | some t =>
        if t = conflictTerm then i + 2
        else if t < conflictTerm then next
        else scanConflict s conflictTerm next i

/-- Both reply handlers raise the peer's progress this way, and never lower it. -/
def recordMatch (n : Node) (peer matched : Nat) : Node :=
  { n with
    matchIndex := if matched > (n.matchIndex peer).getD 0 then
      Function.update n.matchIndex peer (some matched) else n.matchIndex
    nextIndex := if matched + 1 > (n.nextIndex peer).getD 0 then
      Function.update n.nextIndex peer (some (matched + 1)) else n.nextIndex }

/-- `sendAppend` after its reply. -/
def onAppendReply (n : Node) (peer : Nat) (req : AppendEntriesRequest)
    (resp : AppendEntriesResponse) : Node :=
  if resp.term > n.store.term then n.stepDownLocked resp.term
  else if n.role ≠ .leader ∨ n.store.term ≠ req.term then n
  else if resp.success then
    (n.recordMatch peer (req.prevLogIndex + req.entries.length)).advanceCommitLocked
  else if resp.conflictTerm ≠ 0 then
    let next := scanConflict n.store resp.conflictTerm resp.conflictIndex n.store.lastIndex
    { n with nextIndex := Function.update n.nextIndex peer (some (max 1 next)) }
  else if resp.conflictIndex > 0 then
    { n with nextIndex := Function.update n.nextIndex peer (some resp.conflictIndex) }
  else if (n.nextIndex peer).getD 0 > 1 then
    { n with nextIndex := Function.update n.nextIndex peer (some ((n.nextIndex peer).getD 0 - 1)) }
  else n

/-- `sendSnapshot` after its reply. -/
def onSnapshotReply (n : Node) (peer : Nat) (req : InstallSnapshotRequest)
    (resp : InstallSnapshotResponse) : Node :=
  if resp.term > n.store.term then n.stepDownLocked resp.term
  else if n.role ≠ .leader ∨ n.store.term ≠ req.term then n
  else n.recordMatch peer req.lastIncludedIndex

/-! ## Request handlers -/

/-- How `HandleRequestVote` and `HandleReadIndex` take note of a later term. -/
def meetTerm (n : Node) (term : Nat) : Node :=
  if term > n.store.term then n.stepDownLocked term else n

/-- How the two handlers of a leader's requests accept it. -/
def follow (n : Node) (term leaderId : Nat) : Node :=
  let n := if term > n.store.term ∨ n.role ≠ .follower then n.stepDownLocked term else n
  { n with leaderID := leaderId }

def handleRequestVote (n : Node) (req : RequestVoteRequest) : Node × RequestVoteResponse :=
  let n := n.meetTerm req.term
  let resp : RequestVoteResponse := { term := n.store.term }
  if req.term < n.store.term then (n, resp)
  else if !n.conf.contains n.id then (n, resp)
  else
    let lastIdx := n.store.lastIndex
    let lastTerm := (n.store.termAt lastIdx).getD 0
    let upToDate := decide (req.lastLogTerm > lastTerm ∨
      req.lastLogTerm = lastTerm ∧ req.lastLogIndex ≥ lastIdx)
    if (n.store.votedFor = 0 ∨ n.store.votedFor = req.candidateId) ∧ upToDate = true then
      let r := n.store.setHardState n.store.term req.candidateId
      let n := { n with store := r.1 }
      if r.2 then (n, { resp with voteGranted := true }) else (n, resp)
    else (n, resp)

/-- `for ci > firstIndex`: the first index of the run of term `t` that ends at `ci`. -/
def conflictStart (s : DiskStorage) (t : Nat) : Nat → Nat
  | 0 => 0
  | ci + 1 =>
    if ci + 1 > s.firstIndex then
      match s.termAt ci with
      | none => ci + 1
      | some pt => if pt ≠ t then ci + 1 else conflictStart s t ci
    else ci + 1

/-- An entry `HandleAppendEntries` steps over: compacted away, or already there. -/
def alreadyHas (s : DiskStorage) (e : Entry) : Bool :=
  decide (e.index ≤ s.snapIndex) ||
    (decide (e.index ≤ s.lastIndex) && decide ((s.termAt e.index).getD 0 = e.term))

/-- Everything from the first entry on that is not there is appended and synced; if there is
    no such entry nothing is synced either. -/
def storeEntries (s : DiskStorage) (entries : List Entry) : DiskStorage × Bool :=
  let toAppend := entries.dropWhile (alreadyHas s)
  if toAppend.length > 0 then andThen (s.appendEntries toAppend) DiskStorage.sync else (s, true)

/-- The rest of `HandleAppendEntries` once the previous entry has been accepted. -/
def acceptEntries (n : Node) (req : AppendEntriesRequest) (resp : AppendEntriesResponse) :
    Node × AppendEntriesResponse :=
  let r := storeEntries n.store req.entries
  let n := { n with store := r.1 }
  if !r.2 then (n, resp)
  else
    let n := if req.leaderCommit > n.commitIndex then
        let lastNew := req.prevLogIndex + req.entries.length
        { n with commitIndex := min req.leaderCommit (max lastNew n.commitIndex) }
      else n
    (n, { resp with success := true })

def handleAppendEntries (n : Node) (req : AppendEntriesRequest) :
    Node × AppendEntriesResponse :=
  if req.term < n.store.term then (n, { term := n.store.term })
  else
    let n := n.follow req.term req.leaderId
    let resp : AppendEntriesResponse := { term := n.store.term }
    if req.prevLogIndex > n.store.lastIndex then
      (n, { resp with conflictIndex := n.store.lastIndex + 1 })
    else if req.prevLogIndex ≥ n.store.firstIndex ∨ req.prevLogIndex = n.store.snapIndex then
      match n.store.termAt req.prevLogIndex with
      | none => (n, { resp with conflictIndex := n.store.firstIndex })
      | some t =>
        if t ≠ req.prevLogTerm then
          (n, { resp with
            conflictTerm := t, conflictIndex := conflictStart n.store t req.prevLogIndex })
        else n.acceptEntries req resp
    else n.acceptEntries req resp

/-- The section of `HandleInstallSnapshot`. The message, if there is one, is sent after the
    mutex is released, and the reply follows it. A failed `saveSnapshot` returns without
    releasing the mutex. -/
def handleInstallSnapshot (n : Node) (req : InstallSnapshotRequest) :
    Node × InstallSnapshotResponse × Option ApplyMsg :=
  if req.term < n.store.term then (n, { term := n.store.term }, none)
  else
    let n := n.follow req.term req.leaderId
    let resp : InstallSnapshotResponse := { term := n.store.term }
    if req.lastIncludedIndex ≤ n.store.snapIndex then (n, resp, none)
    else
      let r := n.store.saveSnapshot req.lastIncludedIndex req.lastIncludedTerm req.data
        req.confState
      let n := { n with store := r.1 }
      if !r.2 then ({ n with locked := true }, resp, none)
      else
        ({ n with
            conf := req.confState
            commitIndex := req.lastIncludedIndex, lastApplied := req.lastIncludedIndex },
          resp, some (.snapshot req.data req.lastIncludedIndex req.lastIncludedTerm))

def handleReadIndex (n : Node) (req : ReadIndexRequest) : Node × ReadIndexResponse :=
  let resp : ReadIndexResponse := { term := n.store.term }
  if req.term < n.store.term then (n, resp)
  else
    let n := n.meetTerm req.term
    if req.term ≠ n.store.term ∨ n.role = .candidate then (n, resp)
    else ({ n with leaderID := req.leaderId }, { resp with ack := true })

/-! ## Snapshots and applying -/

def snapshot (n : Node) (index : Nat) (data : Bytes) : Node × Except NodeError Unit :=
  if index > n.lastApplied then (n, .error .beyondApplied)
  else
    match n.store.termAt index with
    | none => (n, .ok ())
    | some term =>
      let r := n.store.saveSnapshot index term data n.conf
      ({ n with store := r.1 }, if r.2 then .ok () else .error .storage)

/-- The bookkeeping of `applyConfChangeLocked` in the progress tables of a leader. -/
def trackMember (n : Node) (cc : ConfChange) : Node :=
  if n.role ≠ .leader then n
  else
    match cc.type with
    | .addNode =>
      if (n.nextIndex cc.nodeId).isSome then n
      else
        { n with
          nextIndex := Function.update n.nextIndex cc.nodeId (some n.store.firstIndex)
          matchIndex := Function.update n.matchIndex cc.nodeId (some 0) }
    | .removeNode =>
      { n with
        nextIndex := Function.update n.nextIndex cc.nodeId none
        matchIndex := Function.update n.matchIndex cc.nodeId none }
    | .leaveJoint =>
      { n with
        nextIndex := fun id =>
          if id ∈ n.conf.voters ∧ (n.nextIndex id).isNone then some (n.store.lastIndex + 1)
          else n.nextIndex id
        matchIndex := fun id =>
          if id ∈ n.conf.voters ∧ (n.nextIndex id).isNone then some 0 else n.matchIndex id }
    | .other _ => n

/-- The configuration, the addresses and, if the node itself is removed, its role. -/
def adoptConf (n : Node) (cc : ConfChange) (next : ConfState) : Node :=
  let removed := decide (cc.type = .removeNode ∧ cc.nodeId = n.id)
  { n with
    conf := next
    addrs :=
      if cc.context.length > 0 ∧ cc.type = .addNode then
        Function.update n.addrs cc.nodeId (some cc.context)
      else if cc.type = .removeNode then Function.update n.addrs cc.nodeId none
      else n.addrs
    role := if removed then .follower else n.role
    leaderID := if removed then 0 else n.leaderID }

/-- `applyConfChangeLocked`; the caller logs a rejected change and goes on. -/
def applyConfChangeLocked (n : Node) (cc : ConfChange) : Node × Bool :=
  match n.conf.applyConfChange cc with
  | .error _ => (n, false)
  | .ok next =>
    let n := (n.adoptConf cc next).trackMember cc
    let r := n.store.setConfState n.conf
    ({ n with store := r.1 }, r.2)

/-- What the applier does with the entry at `lastApplied + 1`. -/
def applyEntry (n : Node) (e : Entry) : Node × ApplyMsg :=
  match e.type, e.confChange with
  | .confChange, some cc => ((n.applyConfChangeLocked cc).1, .confChange cc e.index e.term)
  | _, _ => (n, .command e.data e.index e.term)

/-- `for n.lastApplied < n.commitIndex`. Every round raises `lastApplied`, so the distance to
    `commitIndex` is enough fuel; `none` is the slice panic of `entryAt`. -/
def collectLoop : Nat → Node → Option (Node × List ApplyMsg)
  | 0, n => some (n, [])
  | fuel + 1, n =>
    if n.lastApplied < n.commitIndex then
      let next := n.lastApplied + 1
      if next < n.store.firstIndex then
        collectLoop fuel { n with lastApplied := n.store.snapIndex }
      else
        match n.store.entryAt next with
        | none => none
        | some e =>
          let r := n.applyEntry e
          (collectLoop fuel { r.1 with lastApplied := next }).map fun q => (q.1, r.2 :: q.2)
    else some (n, [])

/-- The section of `applier`: everything committed and not yet applied. -/
def collect (n : Node) : Option (Node × List ApplyMsg) :=
  collectLoop (n.commitIndex - n.lastApplied) n

end Node
end Raft
end DistKV
