import Mathlib.Data.Finset.Card
import Mathlib.Data.Finset.Lattice.Fold
import Mathlib.Data.List.Sort
import Mathlib.Order.Lattice.Nat

/-!
# The Raft wire types and the membership state

`proto/raft.proto` and `raft/confstate.go`. Terms, indices and node ids are `uint64` in the
source and `Nat` here: every one of them starts at zero and is only ever raised by one or
copied from another node, so the difference is a run of 2⁶⁴ elections away. Byte strings are
lists of `UInt8`.

A Go `map[uint64]struct{}` is a `Finset Nat`; what the source calls `sortedKeys` is the
ascending enumeration of it.
-/

namespace DistKV

abbrev Bytes := List UInt8

namespace Raft

/-! ## `raft.proto` -/

inductive EntryType where
  | normal
  | confChange
  deriving DecidableEq, Repr, Inhabited

/-- proto3 enums are open, so a value outside the three named ones can arrive on the wire. -/
inductive ConfChangeType where
  | addNode
  | removeNode
  | leaveJoint
  | other (code : Nat)
  deriving DecidableEq, Repr, Inhabited

structure ConfChange where
  type : ConfChangeType
  nodeId : Nat := 0
  /-- Optional peer address. -/
  context : Bytes := []
  deriving DecidableEq, Repr, Inhabited

/-- A single Raft log entry. -/
structure Entry where
  term : Nat
  index : Nat
  type : EntryType := .normal
  data : Bytes := []
  confChange : Option ConfChange := none
  deriving DecidableEq, Repr, Inhabited

/-! ## `confstate.go` -/

/-- The committed cluster membership. During a config change `joint` holds C_old while
    `voters` holds C_new; `joint` is empty outside a joint transition. -/
structure ConfState where
  voters : Finset Nat
  joint : Finset Nat := ∅
  deriving DecidableEq

inductive ConfError where
  | confChangeInProgress
  | notInJoint
  | unknownMember
  | quorumLoss
  | invalidConfChange
  deriving DecidableEq, Repr

/-- `ErrConfChangeInProgress` and its siblings carry these texts. -/
def ConfError.message : ConfError → String
  | .confChangeInProgress => "config change already in progress"
  | .notInJoint => "not in joint config"
  | .unknownMember => "unknown member"
  | .quorumLoss => "config change would break quorum"
  | .invalidConfChange => "invalid config change"

/-- The keys of a set in ascending order. -/
def sortedKeys (m : Finset Nat) : List Nat :=
  (List.range (m.sup id + 1)).filter (· ∈ m)

def majority (n : Nat) : Nat := n / 2 + 1

namespace ConfState

def newConfState (ids : List Nat) : ConfState := { voters := ids.toFinset }

def inJoint (c : ConfState) : Bool := decide (c.joint.card > 0)

def voterIDs (c : ConfState) : List Nat := sortedKeys c.voters

def jointIDs (c : ConfState) : List Nat := sortedKeys c.joint

/-- Every server that should receive replication RPCs. -/
def allPeerIDs (c : ConfState) : List Nat :=
  if c.inJoint then sortedKeys (c.voters ∪ c.joint) else c.voterIDs

def contains (c : ConfState) (id : Nat) : Bool := decide (id ∈ c.voters)

/-- Whether `voteCount` satisfies the election quorum. -/
def hasVoteQuorum (c : ConfState) (voteCount : Nat) : Bool :=
  if c.inJoint then
    decide (voteCount ≥ majority c.joint.card) && decide (voteCount ≥ majority c.voters.card)
  else decide (voteCount ≥ majority c.voters.card)

end ConfState

/-- How many of `ids` have replicated through `idx`; an id missing from the map counts as 0. -/
def countGE (ids : List Nat) (matchIndex : Nat → Option Nat) (idx : Nat) : Nat :=
  (ids.filter fun id => decide ((matchIndex id).getD 0 ≥ idx)).length

namespace ConfState

def canCommit (c : ConfState) (idx : Nat) (matchIndex : Nat → Option Nat) : Bool :=
  if c.inJoint then
    decide (countGE c.jointIDs matchIndex idx ≥ majority c.joint.card) &&
      decide (countGE c.voterIDs matchIndex idx ≥ majority c.voters.card)
  else decide (countGE c.voterIDs matchIndex idx ≥ majority c.voters.card)

/-- The highest index replicated on the required majorities: the peers' own match values in
    descending order, the first non-zero one that can commit. -/
def maxCommitIndex (c : ConfState) (matchIndex : Nat → Option Nat) : Nat :=
  let vals := (c.allPeerIDs.map fun id => (matchIndex id).getD 0).insertionSort (· ≥ ·)
  (vals.find? fun idx => decide (idx ≠ 0) && c.canCommit idx matchIndex).getD 0

/-- Applies a committed config change and returns the new state. On an empty set of voters the source
    panics in an addition (`cloneSet` has left a nil map); a bootstrap with voters leads to none. -/
def applyConfChange (c : ConfState) (cc : ConfChange) : Except ConfError ConfState :=
  match cc.type with
  | .addNode =>
    if c.inJoint then .error .confChangeInProgress
    else .ok { voters := insert cc.nodeId c.voters, joint := c.voters }
  | .removeNode =>
    if c.inJoint then .error .confChangeInProgress
    else if !c.contains cc.nodeId then .error .unknownMember
    else if c.voters.card ≤ 1 then .error .quorumLoss
    else .ok { voters := c.voters.erase cc.nodeId, joint := c.voters }
  | .leaveJoint =>
    if !c.inJoint then .error .notInJoint
    else .ok { voters := c.voters, joint := ∅ }
  | .other _ => .error .invalidConfChange

end ConfState

/-! ## The RPC messages -/

structure RequestVoteRequest where
  term : Nat
  candidateId : Nat
  lastLogIndex : Nat
  lastLogTerm : Nat
  deriving DecidableEq, Repr

structure RequestVoteResponse where
  term : Nat
  voteGranted : Bool := false
  deriving DecidableEq, Repr

structure AppendEntriesRequest where
  term : Nat
  leaderId : Nat
  prevLogIndex : Nat
  prevLogTerm : Nat
  entries : List Entry
  leaderCommit : Nat
  deriving DecidableEq, Repr

/-- `conflictIndex` and `conflictTerm` are the fast backtracking hints. -/
structure AppendEntriesResponse where
  term : Nat
  success : Bool := false
  conflictIndex : Nat := 0
  conflictTerm : Nat := 0
  deriving DecidableEq, Repr

structure InstallSnapshotRequest where
  term : Nat
  leaderId : Nat
  lastIncludedIndex : Nat
  lastIncludedTerm : Nat
  data : Bytes
  confState : ConfState
  deriving DecidableEq

structure InstallSnapshotResponse where
  term : Nat
  deriving DecidableEq, Repr

structure ReadIndexRequest where
  term : Nat
  leaderId : Nat
  deriving DecidableEq, Repr

structure ReadIndexResponse where
  term : Nat
  ack : Bool := false
  deriving DecidableEq, Repr

inductive Request where
  | requestVote (req : RequestVoteRequest)
  | appendEntries (req : AppendEntriesRequest)
  | installSnapshot (req : InstallSnapshotRequest)
  | readIndex (req : ReadIndexRequest)
  deriving DecidableEq

inductive Response where
  | requestVote (resp : RequestVoteResponse)
  | appendEntries (resp : AppendEntriesResponse)
  | installSnapshot (resp : InstallSnapshotResponse)
  | readIndex (resp : ReadIndexResponse)
  deriving DecidableEq, Repr

end Raft
end DistKV
