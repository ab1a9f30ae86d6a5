import DistKV.Raft.Frame
import DistKV.Raft.HardState

/-!
# How a node comes to its role

A section makes the node a follower, leaves its role, term and vote counts alone, starts an
election, or counts one more vote. `RoleStep` lists these with what is known in each case; a node
becomes leader in the last one and nowhere else.
-/

namespace DistKV
namespace Raft

/-- An election has been recorded, with the node's own vote, and the other voters are asked. -/
structure Campaign (n m : Node) (sends : List Send) : Prop where
  role : m.role = .candidate
  member : n.conf.contains n.id = true
  term : m.store.term = n.store.term + 1
  votes : m.votes = Function.update n.votes (n.store.term + 1) 1
  durable : m.store.disk.files =
    (n.store.disk.files.write (.hardState (n.store.term + 1) n.id)).flush
  peers : sends.map (·.peer) = n.peerIDs.filter (· ≠ n.id)

inductive RoleStep (n : Node) (op : NodeOp) (m : Node) (sends : List Send) : Prop
  | follower (role : m.role = .follower) (votes : m.votes = n.votes)
  | same (role : m.role = n.role) (term : m.store.term = n.store.term) (votes : m.votes = n.votes)
      (quiet : m.role = .candidate → sends = [])
  /-- The new term could not be recorded: there is a candidate and no election. -/
  | failed (role : m.role = .candidate) (term : m.store.term = n.store.term + 1)
      (votes : m.votes = n.votes) (quiet : sends = [])
      (timer : ∃ timedOut due, op = .tick timedOut due) (member : n.conf.contains n.id = true)
  | campaign (election : Campaign n m sends) (timer : ∃ timedOut due, op = .tick timedOut due)
  | vote (peer : Nat) (req : RequestVoteRequest) (resp : RequestVoteResponse)
      (request : op = .reply peer (.requestVote req) (.requestVote resp))
      (candidate : n.role = .candidate) (current : n.store.term = req.term)
      (granted : resp.voteGranted = true) (term : m.store.term = n.store.term)
      (votes : m.votes = Function.update n.votes req.term (n.votes req.term + 1))
      (quiet : m.role = .candidate → sends = [])
      (role : m.role = .candidate ∨
        m.role = .leader ∧ n.conf.hasVoteQuorum (n.votes req.term + 1) = true)

namespace Node

variable {n m : Node} {op : NodeOp}

/-- Role, term and vote counts are the same. -/
structure Steady (n m : Node) : Prop where
  role : m.role = n.role
  term : m.store.term = n.store.term
  votes : m.votes = n.votes

theorem Steady.step (h : Steady n m) : RoleStep n op m [] :=
  .same h.role h.term h.votes fun _ => rfl

theorem stepDownLocked_role (term : Nat) :
    (n.stepDownLocked term).role = .follower ∧ (n.stepDownLocked term).votes = n.votes := by
  rw [stepDownLocked]
  split <;> exact ⟨rfl, rfl⟩

theorem stepDownLocked_step (term : Nat) : RoleStep n op (n.stepDownLocked term) [] :=
  .follower (stepDownLocked_role term).1 (stepDownLocked_role term).2

theorem broadcastAppendLocked_steady (hl : n.role = .leader) (due : Nat → Bool) :
    Steady n (n.broadcastAppendLocked due).1 := by
  obtain ⟨⟨f, hf⟩, -⟩ := broadcastAppendLocked_spec hl due
  rw [hf]
  exact ⟨rfl, sync_head.term, rfl⟩

theorem appendEntryLocked_steady (e : Entry) : Steady n (n.appendEntryLocked e).1 := by
  have hterm := (appendEntries_head (s := n.store) [e]).term
  simp only [appendEntryLocked]
  split <;> exact ⟨rfl, hterm, rfl⟩

theorem advanceCommitLocked_steady : Steady n n.advanceCommitLocked := by
  have hterm := (sync_head (s := n.store)).term
  simp only [advanceCommitLocked]
  split
  · exact ⟨rfl, rfl, rfl⟩
  split
  · exact ⟨rfl, hterm, rfl⟩
  split
  · exact ⟨rfl, hterm, rfl⟩
  split <;> exact ⟨rfl, hterm, rfl⟩

theorem startElectionLocked_step (timedOut : Bool) (due : Nat → Bool) :
    RoleStep n (.tick timedOut due) n.startElectionLocked.1 n.startElectionLocked.2 := by
  simp only [startElectionLocked]
  split
  · exact Steady.step ⟨rfl, rfl, rfl⟩
  next hmember =>
  split
  · exact Steady.step ⟨rfl, rfl, rfl⟩
  split
  · exact .failed rfl (setHardState_term ..) rfl rfl ⟨timedOut, due, rfl⟩
      (by simpa using hmember)
  next hok =>
  refine .campaign ⟨rfl, by simpa using hmember, setHardState_term .., rfl,
    setHardState_ok (by simpa using hok), ?_⟩ ⟨timedOut, due, rfl⟩
  rw [List.map_map]
  exact List.map_id'' (fun _ => rfl) _

theorem elected_steady : n.elected.votes = n.votes ∧ n.elected.store.term = n.store.term :=
  ⟨rfl, (appendEntries_head _).term⟩

theorem onVoteReply_step (peer : Nat) (req : RequestVoteRequest) (resp : RequestVoteResponse) :
    RoleStep n (.reply peer (.requestVote req) (.requestVote resp))
      (n.onVoteReply req.term resp).1 (n.onVoteReply req.term resp).2 := by
  simp only [onVoteReply]
  split
  · exact stepDownLocked_step _
  split
  · exact Steady.step ⟨rfl, rfl, rfl⟩
  next hcount =>
  simp only [not_or, Decidable.not_not, Bool.not_eq_false] at hcount
  obtain ⟨hrole, hterm, hgranted⟩ := hcount
  split
  swap
  · exact .vote peer req resp rfl hrole hterm hgranted rfl rfl (fun _ => rfl) (.inl hrole)
  next hquorum =>
  have hne : ({ n with votes := Function.update n.votes req.term (n.votes req.term + 1) } : Node).role
      ≠ .leader := by simp [hrole]
  rw [becomeLeaderLocked_eq hne]
  have hsteady := broadcastAppendLocked_steady
    (n := ({ n with votes := Function.update n.votes req.term (n.votes req.term + 1) } : Node).elected)
    rfl fun _ => true
  refine .vote peer req resp rfl hrole hterm hgranted (hsteady.term.trans elected_steady.2)
    (hsteady.votes.trans elected_steady.1) (fun h => ?_) (.inr ⟨hsteady.role, by simpa using hquorum⟩)
  rw [hsteady.role] at h
  cases h

theorem tick_step (timedOut : Bool) (due : Nat → Bool) :
    RoleStep n (.tick timedOut due) (n.tick timedOut due).1 (n.tick timedOut due).2 := by
  rw [tick]
  split
  · next hl =>
    have hsteady := broadcastAppendLocked_steady hl due
    refine .same hsteady.role hsteady.term hsteady.votes fun h => ?_
    rw [hsteady.role, hl] at h
    cases h
  · split
    · exact startElectionLocked_step timedOut due
    · exact Steady.step ⟨rfl, rfl, rfl⟩

theorem onAppendReply_step (peer : Nat) (req : AppendEntriesRequest) (resp : AppendEntriesResponse) :
    RoleStep n op (n.onAppendReply peer req resp) [] := by
  simp only [onAppendReply]
  split
  · exact stepDownLocked_step _
  split
  · exact Steady.step ⟨rfl, rfl, rfl⟩
  split
  · have hsteady := advanceCommitLocked_steady
      (n := n.recordMatch peer (req.prevLogIndex + req.entries.length))
    exact Steady.step ⟨hsteady.role, hsteady.term, hsteady.votes⟩
  split
  · exact Steady.step ⟨rfl, rfl, rfl⟩
  split
  · exact Steady.step ⟨rfl, rfl, rfl⟩
  split <;> exact Steady.step ⟨rfl, rfl, rfl⟩

theorem onSnapshotReply_step (peer : Nat) (req : InstallSnapshotRequest)
    (resp : InstallSnapshotResponse) : RoleStep n op (n.onSnapshotReply peer req resp) [] := by
  simp only [onSnapshotReply]
  split
  · exact stepDownLocked_step _
  split
  · exact Steady.step ⟨rfl, rfl, rfl⟩
  · exact Steady.step ⟨rfl, rfl, rfl⟩

theorem onReadIndexReply_step (req : ReadIndexRequest) (resp : ReadIndexResponse) :
    RoleStep n op (n.onReadIndexReply req resp).1 [] := by
  simp only [onReadIndexReply]
  split
  · exact stepDownLocked_step _
  split <;> exact Steady.step ⟨rfl, rfl, rfl⟩

/-! ## Handlers -/

theorem meetTerm_role (term : Nat) : (n.meetTerm term).votes = n.votes ∧
    ((n.meetTerm term).role = .follower ∨ n.meetTerm term = n) := by
  rw [meetTerm]
  split
  · exact ⟨(stepDownLocked_role term).2, .inl (stepDownLocked_role term).1⟩
  · exact ⟨rfl, .inr rfl⟩

theorem follow_role (term leaderId : Nat) :
    (n.follow term leaderId).role = .follower ∧ (n.follow term leaderId).votes = n.votes := by
  simp only [follow]
  split
  · exact stepDownLocked_role term
  · next h =>
    simp only [not_or, Decidable.not_not] at h
    exact ⟨h.2, rfl⟩

/-- What follows `meetTerm` in a handler leaves role, term and votes alone. -/
theorem meetTerm_step (term : Nat) (h : Steady (n.meetTerm term) m) : RoleStep n op m [] := by
  obtain ⟨hvotes, hrole | hsame⟩ := meetTerm_role (n := n) term
  · exact .follower (h.role.trans hrole) (h.votes.trans hvotes)
  · rw [hsame] at h
    exact h.step

theorem handleRequestVote_step (req : RequestVoteRequest) :
    RoleStep n op (n.handleRequestVote req).1 [] := by
  refine meetTerm_step req.term ?_
  simp only [handleRequestVote]
  split
  · exact ⟨rfl, rfl, rfl⟩
  split
  · exact ⟨rfl, rfl, rfl⟩
  split
  · split <;> exact ⟨rfl, setHardState_term .., rfl⟩
  · exact ⟨rfl, rfl, rfl⟩

theorem acceptEntries_role (req : AppendEntriesRequest) (resp : AppendEntriesResponse) :
    (n.acceptEntries req resp).1.role = n.role ∧ (n.acceptEntries req resp).1.votes = n.votes := by
  simp only [acceptEntries]
  split
  · exact ⟨rfl, rfl⟩
  split <;> exact ⟨rfl, rfl⟩

/-- An AppendEntries request is turned down because of its term, or it makes a follower. -/
theorem handleAppendEntries_role (req : AppendEntriesRequest) :
    (req.term < n.store.term ∧ (n.handleAppendEntries req).1 = n) ∨
      ((n.handleAppendEntries req).1.role = .follower ∧
        (n.handleAppendEntries req).1.votes = n.votes) := by
  have hf := follow_role (n := n) req.term req.leaderId
  have ha : ∀ resp, ((n.follow req.term req.leaderId).acceptEntries req resp).1.role = .follower ∧
      ((n.follow req.term req.leaderId).acceptEntries req resp).1.votes = n.votes := by
    intro resp
    obtain ⟨h1, h2⟩ := acceptEntries_role (n := n.follow req.term req.leaderId) req resp
    exact ⟨h1.trans hf.1, h2.trans hf.2⟩
  simp only [handleAppendEntries]
  split
  · next hlt => exact .inl ⟨hlt, rfl⟩
  refine .inr ?_
  split
  · exact hf
  split
  · split
    · exact hf
    split
    · exact hf
    · exact ha _
  · exact ha _

theorem handleAppendEntries_step (req : AppendEntriesRequest) :
    RoleStep n op (n.handleAppendEntries req).1 [] := by
  rcases handleAppendEntries_role (n := n) req with ⟨-, hsame⟩ | ⟨hrole, hvotes⟩
  · rw [hsame]
    exact Steady.step ⟨rfl, rfl, rfl⟩
  · exact .follower hrole hvotes

/-- A snapshot is turned down because of its term, or it makes a follower. -/
theorem handleInstallSnapshot_role (req : InstallSnapshotRequest) :
    (n.handleInstallSnapshot req).1.role = .follower ∨
      (req.term < n.store.term ∧ (n.handleInstallSnapshot req).1 = n) := by
  have hf := (follow_role (n := n) req.term req.leaderId).1
  simp only [handleInstallSnapshot]
  split
  · next hlt => exact .inr ⟨hlt, rfl⟩
  refine .inl ?_
  split
  · exact hf
  split <;> exact hf

theorem handleInstallSnapshot_step (req : InstallSnapshotRequest) :
    RoleStep n op (n.handleInstallSnapshot req).1 [] := by
  have hf := follow_role (n := n) req.term req.leaderId
  simp only [handleInstallSnapshot]
  split
  · exact Steady.step ⟨rfl, rfl, rfl⟩
  split
  · exact .follower hf.1 hf.2
  split <;> exact .follower hf.1 hf.2

theorem handleReadIndex_step (req : ReadIndexRequest) :
    RoleStep n op (n.handleReadIndex req).1 [] := by
  simp only [handleReadIndex]
  split
  · exact Steady.step ⟨rfl, rfl, rfl⟩
  split <;> exact meetTerm_step req.term ⟨rfl, rfl, rfl⟩

/-! ## The applier -/

theorem trackMember_role (cc : ConfChange) :
    (n.trackMember cc).role = n.role ∧ (n.trackMember cc).votes = n.votes := by
  rw [trackMember]
  split
  · exact ⟨rfl, rfl⟩
  split
  · split <;> exact ⟨rfl, rfl⟩
  · exact ⟨rfl, rfl⟩
  · exact ⟨rfl, rfl⟩
  · exact ⟨rfl, rfl⟩

theorem adoptConf_role (cc : ConfChange) (conf : ConfState) :
    (n.adoptConf cc conf).role = .follower ∨ (n.adoptConf cc conf).role = n.role := by
  simp only [adoptConf]
  by_cases h : cc.type = .removeNode ∧ cc.nodeId = n.id
  · exact .inl (by rw [decide_eq_true h]; rfl)
  · exact .inr (by rw [decide_eq_false h]; rfl)

/-- A node that applies its own removal becomes a follower. -/
theorem applyEntry_role (e : Entry) : (n.applyEntry e).1.votes = n.votes ∧
    (n.applyEntry e).1.store.term = n.store.term ∧
    ((n.applyEntry e).1.role = .follower ∨ (n.applyEntry e).1.role = n.role) := by
  rw [applyEntry]
  split
  swap
  · exact ⟨rfl, rfl, .inr rfl⟩
  next cc _ _ =>
  rw [applyConfChangeLocked]
  split
  · exact ⟨rfl, rfl, .inr rfl⟩
  next conf _ =>
  obtain ⟨hrole, hvotes⟩ := trackMember_role (n := n.adoptConf cc conf) cc
  refine ⟨hvotes, ?_, ?_⟩
  · simp only [trackMember_store]
    exact (setConfState_head _).1
  · show ((n.adoptConf cc conf).trackMember cc).role = _ ∨ _
    rw [hrole]
    exact adoptConf_role cc conf

theorem collectLoop_role {fuel : Nat} {msgs : List ApplyMsg}
    (h : collectLoop fuel n = some (m, msgs)) : m.votes = n.votes ∧ m.store.term = n.store.term ∧
      (m.role = .follower ∨ m.role = n.role) := by
  induction fuel generalizing n m msgs with
  | zero =>
    obtain ⟨rfl, -⟩ := Prod.mk.inj (Option.some.inj h)
    exact ⟨rfl, rfl, .inr rfl⟩
  | succ fuel ih =>
    rw [collectLoop] at h
    split at h
    swap
    · obtain ⟨rfl, -⟩ := Prod.mk.inj (Option.some.inj h)
      exact ⟨rfl, rfl, .inr rfl⟩
    simp only at h
    split at h
    · have hrest := ih h
      exact hrest
    split at h
    · cases h
    next e he =>
    obtain ⟨⟨m', msgs'⟩, hrest, hq⟩ := Option.map_eq_some_iff.mp h
    obtain ⟨rfl, -⟩ := Prod.mk.inj hq
    obtain ⟨hv, ht, hr⟩ := applyEntry_role (n := n) e
    obtain ⟨hv', ht', hr'⟩ := ih hrest
    refine ⟨hv'.trans hv, ht'.trans ht, ?_⟩
    rcases hr' with hr' | hr'
    · exact .inl hr'
    · rcases hr with hr | hr
      · exact .inl (hr'.trans hr)
      · exact .inr (hr'.trans hr)

/-- A node that leads when the applier is done has led all the time. -/
theorem collectLoop_led {fuel : Nat} {msgs : List ApplyMsg}
    (h : collectLoop fuel n = some (m, msgs)) (hl : m.role = .leader) : n.role = .leader := by
  rcases (collectLoop_role h).2.2 with hr | hr
  · cases hr.symm.trans hl
  · exact hr.symm.trans hl

theorem onReply_step {peer : Nat} {req : Request} {resp : Response} {eff : Effect}
    (h : n.onReply peer req resp = some (m, eff)) :
    RoleStep n (.reply peer req resp) m eff.sends := by
  unfold onReply at h
  split at h
  · obtain ⟨rfl, rfl⟩ := Prod.mk.inj (Option.some.inj h)
    exact onVoteReply_step peer _ _
  · obtain ⟨rfl, rfl⟩ := Prod.mk.inj (Option.some.inj h)
    exact onAppendReply_step peer _ _
  · obtain ⟨rfl, rfl⟩ := Prod.mk.inj (Option.some.inj h)
    exact onSnapshotReply_step peer _ _
  · obtain ⟨rfl, rfl⟩ := Prod.mk.inj (Option.some.inj h)
    exact onReadIndexReply_step _ _
  · cases h

/-- **Every section is one of the role steps.** -/
theorem exec_role {eff : Effect} (h : n.exec op = some (m, eff)) : RoleStep n op m eff.sends := by
  have hlock := exec_unlocked h
  simp only [exec, hlock, Bool.false_eq_true, if_false] at h
  cases op with
  | tick timedOut due =>
    obtain ⟨rfl, rfl⟩ := Prod.mk.inj (Option.some.inj h)
    exact tick_step timedOut due
  | propose command =>
    obtain ⟨rfl, rfl⟩ := Prod.mk.inj (Option.some.inj h)
    rw [propose]
    split
    · exact Steady.step ⟨rfl, rfl, rfl⟩
    · exact (appendEntryLocked_steady _).step
  | proposeConfChange cc =>
    obtain ⟨rfl, rfl⟩ := Prod.mk.inj (Option.some.inj h)
    rw [proposeConfChange]
    split
    · exact Steady.step ⟨rfl, rfl, rfl⟩
    split
    · exact Steady.step ⟨rfl, rfl, rfl⟩
    split
    · exact Steady.step ⟨rfl, rfl, rfl⟩
    · exact (appendEntryLocked_steady _).step
  | snapshot index data =>
    obtain ⟨rfl, rfl⟩ := Prod.mk.inj (Option.some.inj h)
    rw [snapshot]
    split
    · exact Steady.step ⟨rfl, rfl, rfl⟩
    split
    · exact Steady.step ⟨rfl, rfl, rfl⟩
    · exact Steady.step ⟨rfl, (saveSnapshot_head _ _ _ _).1, rfl⟩
  | collect =>
    obtain ⟨⟨m', msgs⟩, hc, hq⟩ := Option.map_eq_some_iff.mp h
    obtain ⟨rfl, rfl⟩ := Prod.mk.inj hq
    obtain ⟨hv, ht, hr⟩ := collectLoop_role hc
    rcases hr with hr | hr
    · exact .follower hr hv
    · exact Steady.step ⟨hr, ht, hv⟩
  | handle req =>
    obtain ⟨rfl, rfl⟩ := Prod.mk.inj (Option.some.inj h)
    cases req with
    | requestVote req => exact handleRequestVote_step req
    | appendEntries req => exact handleAppendEntries_step req
    | installSnapshot req => exact handleInstallSnapshot_step req
    | readIndex req => exact handleReadIndex_step req
  | reply peer req resp => exact onReply_step h
  | finish peer =>
    obtain ⟨rfl, rfl⟩ := Prod.mk.inj (Option.some.inj h)
    exact Steady.step ⟨rfl, rfl, rfl⟩

/-- Votes are asked for at the start of an election and nowhere else. -/
theorem exec_asks {eff : Effect} (h : n.exec op = some (m, eff)) {s : Send} (hs : s ∈ eff.sends)
    {req : RequestVoteRequest} (hreq : s.req = .requestVote req) :
    Campaign n m eff.sends ∧ req.term = m.store.term ∧ req.candidateId = m.id := by
  cases (exec_sends h).sent s hs with
  | append role next prevTerm above prev request => rw [hreq] at request; cases request
  | snapshot role request => rw [hreq] at request; cases request
  | vote role request =>
    rw [hreq, Request.requestVote.injEq] at request
    rw [request]
    refine ⟨?_, rfl, rfl⟩
    have hne : eff.sends ≠ [] := List.ne_nil_of_mem hs
    cases exec_role h with
    | follower hf _ => rw [role] at hf; cases hf
    | same _ _ _ quiet => exact absurd (quiet role) hne
    | failed _ _ _ quiet => exact absurd quiet hne
    | campaign election => exact election
    | vote _ _ _ _ _ _ _ _ _ quiet _ => exact absurd (quiet role) hne

end Node

theorem Campaign.recorded {n m : Node} {sends : List Send} (h : Campaign n m sends) :
    hardOf m.store.disk.files.synced = (n.store.term + 1, n.id) := by
  rw [h.durable]
  show hardOf (n.store.disk.files.synced ++ (n.store.disk.files.unsynced ++ [_])) = _
  rw [← List.append_assoc, hardOf_append]
  rfl

end Raft
end DistKV
