import DistKV.Raft.Sends

/-!
# What a critical section leaves alone

No section changes the id of a node; except for the installation of a snapshot none lowers
`commitIndex`, and only the applier and that installation move `lastApplied`.
-/

namespace DistKV
namespace Raft

/-- The fields that hardly any section touches. -/
structure Fixed (n n' : Node) : Prop where
  id : n'.id = n.id
  conf : n'.conf = n.conf
  locked : n'.locked = n.locked

/-- `n'` is the same node, has applied as much and committed no less. -/
structure Frame (n n' : Node) : Prop extends Fixed n n' where
  commit : n.commitIndex ≤ n'.commitIndex
  applied : n'.lastApplied = n.lastApplied

theorem Frame.refl (n : Node) : Frame n n := ⟨⟨rfl, rfl, rfl⟩, Nat.le_refl _, rfl⟩

theorem Frame.trans {n n' n'' : Node} (h : Frame n n') (h' : Frame n' n'') : Frame n n'' :=
  ⟨⟨h'.id.trans h.id, h'.conf.trans h.conf, h'.locked.trans h.locked⟩,
    Nat.le_trans h.commit h'.commit, h'.applied.trans h.applied⟩

/-- Only fields the frame does not speak of have changed. -/
theorem Frame.of_eq {n n' : Node} (hf : Fixed n n') (hc : n'.commitIndex = n.commitIndex)
    (ha : n'.lastApplied = n.lastApplied) : Frame n n' :=
  ⟨hf, Nat.le_of_eq hc.symm, ha⟩

namespace Node

variable {n : Node}

theorem stepDownLocked_frame (term : Nat) : Frame n (n.stepDownLocked term) := by
  rw [stepDownLocked]
  split <;> exact .of_eq ⟨rfl, rfl, rfl⟩ rfl rfl

theorem advanceCommitLocked_frame : Frame n n.advanceCommitLocked := by
  simp only [advanceCommitLocked]
  split
  · exact .refl n
  next hlt =>
  split
  · exact .of_eq ⟨rfl, rfl, rfl⟩ rfl rfl
  split
  · exact .of_eq ⟨rfl, rfl, rfl⟩ rfl rfl
  split
  · exact .of_eq ⟨rfl, rfl, rfl⟩ rfl rfl
  · exact ⟨⟨rfl, rfl, rfl⟩, Nat.le_of_lt (Nat.lt_of_not_le hlt), rfl⟩

theorem broadcastAppendLocked_frame (due : Nat → Bool) (hl : n.role = .leader) :
    Frame n (n.broadcastAppendLocked due).1 := by
  obtain ⟨⟨f, hf⟩, -⟩ := broadcastAppendLocked_spec hl due
  rw [hf]
  exact .of_eq ⟨rfl, rfl, rfl⟩ rfl rfl

theorem becomeLeaderLocked_frame : Frame n n.becomeLeaderLocked.1 := by
  by_cases hr : n.role = .leader
  · rw [becomeLeaderLocked, if_pos hr]
    exact .refl n
  · rw [becomeLeaderLocked_eq hr]
    have h : Frame n n.elected := .of_eq ⟨rfl, rfl, rfl⟩ rfl rfl
    exact h.trans (broadcastAppendLocked_frame _ rfl)

theorem startElectionLocked_frame : Frame n n.startElectionLocked.1 := by
  simp only [startElectionLocked]
  split
  · exact .refl n
  split
  · exact .refl n
  split <;> exact .of_eq ⟨rfl, rfl, rfl⟩ rfl rfl

theorem tick_frame (timedOut : Bool) (due : Nat → Bool) : Frame n (n.tick timedOut due).1 := by
  rw [tick]
  split
  · next hl => exact broadcastAppendLocked_frame _ hl
  · split
    · exact startElectionLocked_frame
    · exact .refl n

theorem appendEntryLocked_frame (e : Entry) : Frame n (n.appendEntryLocked e).1 := by
  simp only [appendEntryLocked]
  split <;> exact .of_eq ⟨rfl, rfl, rfl⟩ rfl rfl

theorem propose_frame (command : Bytes) : Frame n (n.propose command).1 := by
  rw [propose]
  split
  · exact .refl n
  · exact appendEntryLocked_frame _

theorem proposeConfChange_frame (cc : ConfChange) : Frame n (n.proposeConfChange cc).1 := by
  rw [proposeConfChange]
  split
  · exact .refl n
  split
  · exact .refl n
  split
  · exact .refl n
  · exact appendEntryLocked_frame _

theorem snapshot_frame (index : Nat) (data : Bytes) : Frame n (n.snapshot index data).1 := by
  rw [snapshot]
  split
  · exact .refl n
  split
  · exact .refl n
  · exact .of_eq ⟨rfl, rfl, rfl⟩ rfl rfl

/-! ## Handlers -/

theorem meetTerm_frame (term : Nat) : Frame n (n.meetTerm term) := by
  rw [meetTerm]
  split
  · exact stepDownLocked_frame _
  · exact .refl n

theorem follow_frame (term leaderId : Nat) : Frame n (n.follow term leaderId) := by
  simp only [follow]
  split
  · exact (stepDownLocked_frame term).trans (.of_eq ⟨rfl, rfl, rfl⟩ rfl rfl)
  · exact .of_eq ⟨rfl, rfl, rfl⟩ rfl rfl

theorem handleRequestVote_frame (req : RequestVoteRequest) :
    Frame n (n.handleRequestVote req).1 := by
  have h := meetTerm_frame (n := n) req.term
  simp only [handleRequestVote]
  split
  · exact h
  split
  · exact h
  split
  · split <;> exact h.trans (.of_eq ⟨rfl, rfl, rfl⟩ rfl rfl)
  · exact h

theorem acceptEntries_frame (req : AppendEntriesRequest) (resp : AppendEntriesResponse) :
    Frame n (n.acceptEntries req resp).1 := by
  simp only [acceptEntries]
  split
  · exact .of_eq ⟨rfl, rfl, rfl⟩ rfl rfl
  split
  · next hc =>
    exact ⟨⟨rfl, rfl, rfl⟩, Nat.le_min.mpr ⟨Nat.le_of_lt hc, Nat.le_max_right _ _⟩, rfl⟩
  · exact .of_eq ⟨rfl, rfl, rfl⟩ rfl rfl

theorem handleAppendEntries_frame (req : AppendEntriesRequest) :
    Frame n (n.handleAppendEntries req).1 := by
  have h := follow_frame (n := n) req.term req.leaderId
  simp only [handleAppendEntries]
  split
  · exact .refl n
  split
  · exact h
  split
  · split
    · exact h
    split
    · exact h
    · exact h.trans (acceptEntries_frame _ _)
  · exact h.trans (acceptEntries_frame _ _)

theorem handleReadIndex_frame (req : ReadIndexRequest) : Frame n (n.handleReadIndex req).1 := by
  have h := meetTerm_frame (n := n) req.term
  simp only [handleReadIndex]
  split
  · exact .refl n
  split
  · exact h
  · exact h.trans (.of_eq ⟨rfl, rfl, rfl⟩ rfl rfl)

theorem stepDownLocked_snapIndex (term : Nat) :
    (n.stepDownLocked term).store.snapIndex = n.store.snapIndex := by
  rw [stepDownLocked]
  split
  · exact setHardState_snapIndex ..
  · rfl

theorem follow_commitIndex (term leaderId : Nat) :
    (n.follow term leaderId).commitIndex = n.commitIndex := by
  simp only [follow, stepDownLocked]
  split
  · split <;> rfl
  · rfl

theorem follow_snapIndex (term leaderId : Nat) :
    (n.follow term leaderId).store.snapIndex = n.store.snapIndex := by
  simp only [follow]
  split
  · exact stepDownLocked_snapIndex _
  · rfl

/-- The three outcomes of an InstallSnapshot: it is turned down; the snapshot cannot be saved
    and the mutex stays locked; or both indices move to the snapshot's and there is a message
    to send. -/
inductive Installs (n : Node) (req : InstallSnapshotRequest) (m : Node) : Option ApplyMsg → Prop
  | refused (frame : Frame n m) (snapIndex : m.store.snapIndex = n.store.snapIndex)
      (unmet : ¬(n.store.term ≤ req.term ∧ n.store.snapIndex < req.lastIncludedIndex)) :
      Installs n req m none
  | failed (locked : m.locked = true) (id : m.id = n.id) (conf : m.conf = n.conf)
      (commit : m.commitIndex = n.commitIndex) (applied : m.lastApplied = n.lastApplied) :
      Installs n req m none
  | installed (term : n.store.term ≤ req.term)
      (above : n.store.snapIndex < req.lastIncludedIndex) (id : m.id = n.id)
      (conf : m.conf = req.confState) (commit : m.commitIndex = req.lastIncludedIndex)
      (applied : m.lastApplied = req.lastIncludedIndex) (reached : req.term ≤ m.store.term) :
      Installs n req m (some (.snapshot req.data req.lastIncludedIndex req.lastIncludedTerm))

theorem handleInstallSnapshot_cases (req : InstallSnapshotRequest) :
    Installs n req (n.handleInstallSnapshot req).1 (n.handleInstallSnapshot req).2.2 := by
  have h := follow_frame (n := n) req.term req.leaderId
  have hcommit := follow_commitIndex (n := n) req.term req.leaderId
  have hsnap := follow_snapIndex (n := n) req.term req.leaderId
  simp only [handleInstallSnapshot]
  split
  · next hlt => exact .refused (.refl n) rfl fun hmet => absurd hlt (Nat.not_lt.mpr hmet.1)
  next hterm =>
  split
  · next hle =>
    refine .refused h hsnap fun hmet => absurd hmet.2 (Nat.not_lt.mpr ?_)
    rw [← hsnap]
    exact hle
  next hlt =>
  split
  · exact .failed rfl h.id h.conf hcommit h.applied
  · refine .installed (Nat.le_of_not_lt hterm) (by rw [← hsnap]; exact Nat.lt_of_not_le hlt) h.id
      rfl rfl rfl ?_
    show req.term ≤ ((n.follow _ _).store.saveSnapshot _ _ _ _).1.term
    rw [(saveSnapshot_head _ _ _ _).1]
    exact Nat.le_of_eq (follow_term req.leaderId (Nat.le_of_not_lt hterm)).symm

/-! ## Replies -/

theorem onVoteReply_frame (newTerm : Nat) (resp : RequestVoteResponse) :
    Frame n (n.onVoteReply newTerm resp).1 := by
  simp only [onVoteReply]
  split
  · exact stepDownLocked_frame _
  split
  · exact .refl n
  have hvotes : Frame n { n with votes := Function.update n.votes newTerm (n.votes newTerm + 1) } :=
    .of_eq ⟨rfl, rfl, rfl⟩ rfl rfl
  split
  · exact hvotes.trans becomeLeaderLocked_frame
  · exact hvotes

theorem onReply_frame {peer : Nat} {req : Request} {resp : Response} {m : Node} {eff : Effect}
    (h : n.onReply peer req resp = some (m, eff)) : Frame n m := by
  unfold onReply at h
  split at h
  · obtain ⟨rfl, -⟩ := Prod.mk.inj (Option.some.inj h)
    exact onVoteReply_frame _ _
  · next req resp =>
    obtain ⟨rfl, -⟩ := Prod.mk.inj (Option.some.inj h)
    simp only [onAppendReply]
    split
    · exact stepDownLocked_frame _
    split
    · exact .refl n
    split
    · have h : Frame n (n.recordMatch peer (req.prevLogIndex + req.entries.length)) :=
        .of_eq ⟨rfl, rfl, rfl⟩ rfl rfl
      exact h.trans advanceCommitLocked_frame
    split
    · exact .of_eq ⟨rfl, rfl, rfl⟩ rfl rfl
    split
    · exact .of_eq ⟨rfl, rfl, rfl⟩ rfl rfl
    split <;> exact .of_eq ⟨rfl, rfl, rfl⟩ rfl rfl
  · obtain ⟨rfl, -⟩ := Prod.mk.inj (Option.some.inj h)
    simp only [onSnapshotReply]
    split
    · exact stepDownLocked_frame _
    split
    · exact .refl n
    · exact .of_eq ⟨rfl, rfl, rfl⟩ rfl rfl
  · obtain ⟨rfl, -⟩ := Prod.mk.inj (Option.some.inj h)
    simp only [onReadIndexReply]
    split
    · exact stepDownLocked_frame _
    split <;> exact .refl n
  · cases h

/-! ## The applier -/

theorem trackMember_frame (cc : ConfChange) : (n.trackMember cc).id = n.id ∧
    (n.trackMember cc).commitIndex = n.commitIndex ∧
    (n.trackMember cc).lastApplied = n.lastApplied ∧ (n.trackMember cc).locked = n.locked := by
  rw [trackMember]
  split
  · exact ⟨rfl, rfl, rfl, rfl⟩
  split
  · split <;> exact ⟨rfl, rfl, rfl, rfl⟩
  · exact ⟨rfl, rfl, rfl, rfl⟩
  · exact ⟨rfl, rfl, rfl, rfl⟩
  · exact ⟨rfl, rfl, rfl, rfl⟩

/-- An applied entry changes the configuration at most. -/
theorem applyEntry_frame (e : Entry) : (n.applyEntry e).1.id = n.id ∧
    (n.applyEntry e).1.commitIndex = n.commitIndex ∧
    (n.applyEntry e).1.lastApplied = n.lastApplied ∧ (n.applyEntry e).1.locked = n.locked := by
  rw [applyEntry]
  split
  swap
  · exact ⟨rfl, rfl, rfl, rfl⟩
  next cc _ _ =>
  rw [applyConfChangeLocked]
  split
  · exact ⟨rfl, rfl, rfl, rfl⟩
  · exact trackMember_frame cc

/-- The applier keeps the id and `commitIndex` and raises `lastApplied`. -/
theorem collectLoop_frame {fuel : Nat} {m : Node} {msgs : List ApplyMsg}
    (h : collectLoop fuel n = some (m, msgs)) :
    m.id = n.id ∧ m.locked = n.locked ∧ m.commitIndex = n.commitIndex ∧
      n.lastApplied ≤ m.lastApplied := by
  induction fuel generalizing n m msgs with
  | zero =>
    obtain ⟨rfl, -⟩ := Prod.mk.inj (Option.some.inj h)
    exact ⟨rfl, rfl, rfl, Nat.le_refl _⟩
  | succ fuel ih =>
    rw [collectLoop] at h
    split at h
    swap
    · obtain ⟨rfl, -⟩ := Prod.mk.inj (Option.some.inj h)
      exact ⟨rfl, rfl, rfl, Nat.le_refl _⟩
    simp only at h
    split at h
    · next hlt =>
      -- `lastApplied` skips what the snapshot covers
      rw [DiskStorage.firstIndex] at hlt
      obtain ⟨h1, h2, h3, h4⟩ := ih h
      exact ⟨h1, h2, h3, by simp only at h4; omega⟩
    · split at h
      · cases h
      · next e he =>
        obtain ⟨⟨m', msgs'⟩, hrest, hq⟩ := Option.map_eq_some_iff.mp h
        obtain ⟨rfl, -⟩ := Prod.mk.inj hq
        obtain ⟨hid, hc, -, hl⟩ := applyEntry_frame (n := n) e
        obtain ⟨h1, h2, h3, h4⟩ := ih hrest
        exact ⟨h1.trans hid, h2.trans hl, h3.trans hc, Nat.le_trans (Nat.le_succ _) h4⟩

/-! ## Sections -/

/-- Every section but the applier's and the installation of a snapshot. -/
theorem exec_frame {op : NodeOp} {m : Node} {eff : Effect} (h : n.exec op = some (m, eff))
    (hc : op ≠ .collect) (hop : ∀ req, op ≠ .handle (.installSnapshot req)) : Frame n m := by
  have hlock := exec_unlocked h
  simp only [exec, hlock, Bool.false_eq_true, if_false] at h
  cases op with
  | tick timedOut due =>
    obtain ⟨rfl, -⟩ := Prod.mk.inj (Option.some.inj h)
    exact tick_frame _ _
  | propose command =>
    obtain ⟨rfl, -⟩ := Prod.mk.inj (Option.some.inj h)
    exact propose_frame _
  | proposeConfChange cc =>
    obtain ⟨rfl, -⟩ := Prod.mk.inj (Option.some.inj h)
    exact proposeConfChange_frame _
  | snapshot index data =>
    obtain ⟨rfl, -⟩ := Prod.mk.inj (Option.some.inj h)
    exact snapshot_frame _ _
  | collect => exact absurd rfl hc
  | handle req =>
    obtain ⟨rfl, -⟩ := Prod.mk.inj (Option.some.inj h)
    cases req with
    | requestVote req => exact handleRequestVote_frame req
    | appendEntries req => exact handleAppendEntries_frame req
    | installSnapshot req => exact absurd rfl (hop req)
    | readIndex req => exact handleReadIndex_frame req
  | reply peer req resp => exact onReply_frame h
  | finish peer =>
    obtain ⟨rfl, -⟩ := Prod.mk.inj (Option.some.inj h)
    exact .of_eq ⟨rfl, rfl, hlock.symm⟩ rfl rfl

theorem exec_collect {m : Node} {eff : Effect} (h : n.exec .collect = some (m, eff)) :
    n.collect = some (m, eff.collected) ∧ eff.install = none := by
  have hlock := exec_unlocked h
  simp only [exec, hlock, Bool.false_eq_true, if_false] at h
  obtain ⟨⟨m', msgs⟩, hc, hq⟩ := Option.map_eq_some_iff.mp h
  obtain ⟨rfl, rfl⟩ := Prod.mk.inj hq
  exact ⟨hc, rfl⟩

theorem exec_install {req : InstallSnapshotRequest} {m : Node} {eff : Effect}
    (h : n.exec (.handle (.installSnapshot req)) = some (m, eff)) :
    Installs n req m eff.install := by
  have hlock := exec_unlocked h
  simp only [exec, hlock, Bool.false_eq_true, if_false] at h
  obtain ⟨rfl, rfl⟩ := Prod.mk.inj (Option.some.inj h)
  exact handleInstallSnapshot_cases req

/-- Only the installation of a snapshot has a message to announce. -/
theorem exec_no_install {op : NodeOp} {m : Node} {eff : Effect} (h : n.exec op = some (m, eff))
    (hop : ∀ req, op ≠ .handle (.installSnapshot req)) : eff.install = none := by
  have hlock := exec_unlocked h
  simp only [exec, hlock, Bool.false_eq_true, if_false] at h
  cases op with
  | handle req =>
    obtain ⟨-, rfl⟩ := Prod.mk.inj (Option.some.inj h)
    cases req with
    | installSnapshot req => exact absurd rfl (hop req)
    | _ => rfl
  | collect =>
    obtain ⟨_, -, hq⟩ := Option.map_eq_some_iff.mp h
    obtain ⟨-, rfl⟩ := Prod.mk.inj hq
    rfl
  | reply peer req resp =>
    simp only [onReply] at h
    split at h <;> cases h <;> rfl
  | _ =>
    obtain ⟨-, rfl⟩ := Prod.mk.inj (Option.some.inj h)
    rfl

theorem exec_id {op : NodeOp} {m : Node} {eff : Effect} (h : n.exec op = some (m, eff)) :
    m.id = n.id := by
  by_cases hc : op = .collect
  · subst hc
    exact (collectLoop_frame (exec_collect h).1).1
  by_cases hop : ∃ req, op = .handle (.installSnapshot req)
  · obtain ⟨req, rfl⟩ := hop
    have hinst := exec_install h
    generalize eff.install = msg at hinst
    cases hinst with
    | refused frame _ => exact frame.id
    | failed _ id _ _ _ => exact id
    | installed _ _ id _ _ _ => exact id
  · exact (exec_frame h hc fun req hreq => hop ⟨req, hreq⟩).id

end Node
end Raft
end DistKV
