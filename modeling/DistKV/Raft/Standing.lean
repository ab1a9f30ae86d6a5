import DistKV.Raft.ConfFold
import DistKV.Raft.Roles

/-!
# Candidates and voters

Two facts about the role of a node that hold from section to section. A candidate does not move its
`commitIndex`: an AppendEntries request that is not turned down makes it a follower, and only a
leader counts match values (`Node.exec_rests`). And whoever is a candidate or leads is a voter of its
own configuration (`Node.exec_stands`).
-/

namespace DistKV
namespace Raft

namespace Node

variable {n m : Node} {op : NodeOp} {eff : Effect}

/-! ## Candidates rest -/

/-- A candidate has not moved its `commitIndex`. -/
def Rests (n m : Node) : Prop := m.role = .candidate → m.commitIndex = n.commitIndex

theorem Rests.of_eq (h : m.commitIndex = n.commitIndex) : Rests n m := fun _ => h

theorem Rests.of_follower (h : m.role = .follower) : Rests n m := fun hm => by
  rw [h] at hm
  cases hm

theorem Rests.of_leader (hl : n.role = .leader) (h : Steady n m) : Rests n m := fun hm => by
  rw [h.role, hl] at hm
  cases hm

theorem stepDownLocked_rests (term : Nat) : Rests n (n.stepDownLocked term) :=
  .of_follower (stepDownLocked_role term).1

theorem meetTerm_commitIndex (term : Nat) : (n.meetTerm term).commitIndex = n.commitIndex := by
  unfold meetTerm stepDownLocked
  split <;> rfl

theorem appendEntryLocked_rests (e : Entry) : Rests n (n.appendEntryLocked e).1 := by
  simp only [appendEntryLocked]
  split <;> exact .of_eq rfl

theorem tick_rests (timedOut : Bool) (due : Nat → Bool) : Rests n (n.tick timedOut due).1 := by
  unfold tick
  split
  · next hl => exact .of_leader hl (broadcastAppendLocked_steady hl due)
  split
  · simp only [startElectionLocked]
    split
    · exact .of_eq rfl
    split
    · exact .of_eq rfl
    split <;> exact .of_eq rfl
  · exact .of_eq rfl

theorem handle_rests (req : Request) : Rests n (n.handle req).1 := by
  cases req with
  | requestVote req =>
    have hmeet : Rests n (n.meetTerm req.term) := .of_eq (meetTerm_commitIndex req.term)
    show Rests n (n.handleRequestVote req).1
    simp only [handleRequestVote]
    split
    · exact hmeet
    split
    · exact hmeet
    split
    · split <;> exact hmeet
    · exact hmeet
  | appendEntries req =>
    rcases handleAppendEntries_role (n := n) req with ⟨-, hsame⟩ | ⟨hf, -⟩
    · exact .of_eq (congrArg Node.commitIndex hsame)
    · exact .of_follower hf
  | installSnapshot req =>
    rcases handleInstallSnapshot_role (n := n) req with hf | ⟨-, hsame⟩
    · exact .of_follower hf
    · exact .of_eq (congrArg Node.commitIndex hsame)
  | readIndex req =>
    show Rests n (n.handleReadIndex req).1
    simp only [handleReadIndex]
    split
    · exact .of_eq rfl
    split <;> exact .of_eq (meetTerm_commitIndex req.term)

theorem onVoteReply_rests (newTerm : Nat) (resp : RequestVoteResponse) :
    Rests n (n.onVoteReply newTerm resp).1 := by
  simp only [onVoteReply]
  split
  · exact stepDownLocked_rests _
  split
  · exact .of_eq rfl
  next hcount =>
  split
  swap
  · exact .of_eq rfl
  -- enough votes, and the candidate leads
  have hne : ({ n with votes := Function.update n.votes newTerm (n.votes newTerm + 1) } : Node).role
      ≠ .leader := by
    simp only [not_or, Decidable.not_not] at hcount
    simp [hcount.1]
  rw [becomeLeaderLocked_eq hne]
  intro hm
  rw [(broadcastAppendLocked_steady rfl _).role] at hm
  cases hm

/-- A reply moves the `commitIndex` of a leader only. -/
theorem onReply_rests {peer : Nat} {req : Request} {resp : Response}
    (h : n.onReply peer req resp = some (m, eff)) : Rests n m := by
  unfold onReply at h
  split at h
  · obtain ⟨rfl, -⟩ := Prod.mk.inj (Option.some.inj h)
    exact onVoteReply_rests _ _
  · next req resp =>
    obtain ⟨rfl, -⟩ := Prod.mk.inj (Option.some.inj h)
    simp only [onAppendReply]
    split
    · exact stepDownLocked_rests _
    split
    · exact .of_eq rfl
    next hlead =>
    simp only [not_or, Decidable.not_not] at hlead
    split
    · have hsteady := advanceCommitLocked_steady
        (n := n.recordMatch peer (req.prevLogIndex + req.entries.length))
      exact .of_leader hlead.1 ⟨hsteady.role, hsteady.term, hsteady.votes⟩
    split
    · exact .of_eq rfl
    split
    · exact .of_eq rfl
    split <;> exact .of_eq rfl
  · obtain ⟨rfl, -⟩ := Prod.mk.inj (Option.some.inj h)
    simp only [onSnapshotReply]
    split
    · exact stepDownLocked_rests _
    split <;> exact .of_eq rfl
  · obtain ⟨rfl, -⟩ := Prod.mk.inj (Option.some.inj h)
    simp only [onReadIndexReply]
    split
    · exact stepDownLocked_rests _
    split <;> exact .of_eq rfl
  · cases h

/-- **No section moves the `commitIndex` of a candidate.** -/
theorem exec_rests (h : n.exec op = some (m, eff)) : Rests n m := by
  have hlock := exec_unlocked h
  simp only [exec, hlock, Bool.false_eq_true, if_false] at h
  cases op with
  | tick timedOut due =>
    obtain ⟨rfl, -⟩ := Prod.mk.inj (Option.some.inj h)
    exact tick_rests timedOut due
  | propose command =>
    obtain ⟨rfl, -⟩ := Prod.mk.inj (Option.some.inj h)
    rw [propose]
    split
    · exact .of_eq rfl
    · exact appendEntryLocked_rests _
  | proposeConfChange cc =>
    obtain ⟨rfl, -⟩ := Prod.mk.inj (Option.some.inj h)
    rw [proposeConfChange]
    split
    · exact .of_eq rfl
    split
    · exact .of_eq rfl
    split
    · exact .of_eq rfl
    · exact appendEntryLocked_rests _
  | snapshot index data =>
    obtain ⟨rfl, -⟩ := Prod.mk.inj (Option.some.inj h)
    rw [snapshot]
    split
    · exact .of_eq rfl
    split <;> exact .of_eq rfl
  | collect =>
    obtain ⟨⟨m', msgs⟩, hc, hq⟩ := Option.map_eq_some_iff.mp h
    obtain ⟨rfl, -⟩ := Prod.mk.inj hq
    exact .of_eq (collectLoop_frame hc).2.2.1
  | handle req =>
    obtain ⟨rfl, -⟩ := Prod.mk.inj (Option.some.inj h)
    exact handle_rests req
  | reply peer req resp => exact onReply_rests h
  | finish peer =>
    obtain ⟨rfl, -⟩ := Prod.mk.inj (Option.some.inj h)
    exact .of_eq rfl

/-- A candidate is one already, or has just raised its term. -/
theorem exec_candidate_term (h : n.exec op = some (m, eff)) (hm : m.role = .candidate) :
    n.role = .candidate ∧ m.store.term = n.store.term ∨ n.store.term < m.store.term := by
  cases exec_role h with
  | follower role => rw [hm] at role; cases role
  | same role term => exact .inl ⟨role.symm.trans hm, term⟩
  | failed role term => exact .inr (by rw [term]; exact Nat.lt_succ_self _)
  | campaign election => exact .inr (by rw [election.term]; exact Nat.lt_succ_self _)
  | vote peer req resp request candidate current granted term => exact .inl ⟨candidate, term⟩

/-! ## Voters -/

/-- Whoever is no follower takes itself for a voter. -/
def Stands (n : Node) : Prop := n.role ≠ .follower → n.id ∈ n.conf.voters

theorem applyEntry_removed {e : Entry} {cc : ConfChange} {next : ConfState}
    (he : e.change? = some cc) (hcc : n.conf.applyConfChange cc = .ok next)
    (htype : cc.type = .removeNode) (hid : cc.nodeId = n.id) :
    (n.applyEntry e).1.role = .follower := by
  unfold Entry.change? at he
  split at he
  swap
  · cases he
  next cc' ht hc =>
  obtain rfl := Option.some.inj he
  have hdone : (n.applyEntry e).1.role = ((n.adoptConf cc' next).trackMember cc').role := by
    simp only [applyEntry, ht, hc, applyConfChangeLocked, hcc]
  rw [hdone, (trackMember_role cc').1, adoptConf, decide_eq_true ⟨htype, hid⟩]
  rfl

theorem applyEntry_stands (e : Entry) (h : n.Stands) : (n.applyEntry e).1.Stands := by
  intro hrole
  have hold : n.role ≠ .follower := by
    intro hf
    rcases (applyEntry_role (n := n) e).2.2 with hr | hr
    · exact hrole hr
    · exact hrole (hr.trans hf)
  rw [(applyEntry_frame (n := n) e).1, applyEntry_conf e]
  cases he : e.change? with
  | none =>
    rw [ConfState.absorb_plain he]
    exact h hold
  | some cc =>
    rw [ConfState.absorb_change he]
    cases hcc : n.conf.applyConfChange cc with
    | error err => exact h hold
    | ok next =>
      show n.id ∈ next.voters
      cases ConfState.applyConfChange_changed hcc with
      | add => exact Finset.mem_insert_of_mem (h hold)
      | leave => exact h hold
      | remove type =>
        refine Finset.mem_erase.mpr ⟨fun heq => ?_, h hold⟩
        exact hrole (applyEntry_removed he hcc type heq.symm)

theorem collectLoop_stands {fuel : Nat} {msgs : List ApplyMsg}
    (hl : collectLoop fuel n = some (m, msgs)) (h : n.Stands) : m.Stands := by
  induction fuel generalizing n m msgs with
  | zero =>
    obtain ⟨rfl, -⟩ := Prod.mk.inj (Option.some.inj hl)
    exact h
  | succ fuel ih =>
    rw [collectLoop] at hl
    split at hl
    swap
    · obtain ⟨rfl, -⟩ := Prod.mk.inj (Option.some.inj hl)
      exact h
    simp only at hl
    split at hl
    · exact ih hl h
    split at hl
    · cases hl
    next e he =>
    obtain ⟨⟨m', rest⟩, hrest, hq⟩ := Option.map_eq_some_iff.mp hl
    obtain ⟨rfl, -⟩ := Prod.mk.inj hq
    have hnext := applyEntry_stands e h
    exact ih hrest hnext

/-- **Sections keep it so**: elections are started by voters, and who applies its own removal
    becomes a follower. -/
theorem exec_stands (hex : n.exec op = some (m, eff)) (h : n.Stands) : m.Stands := by
  by_cases hc : op = .collect
  · subst hc
    exact collectLoop_stands (exec_collect hex).1 h
  by_cases hi : ∃ req, op = .handle (.installSnapshot req)
  · obtain ⟨req, rfl⟩ := hi
    have hlock := exec_unlocked hex
    simp only [exec, hlock, Bool.false_eq_true, if_false] at hex
    obtain ⟨rfl, -⟩ := Prod.mk.inj (Option.some.inj hex)
    show (n.handleInstallSnapshot req).1.Stands
    rcases handleInstallSnapshot_role (n := n) req with hf | ⟨-, hsame⟩
    · exact fun hrole => absurd hf hrole
    · rw [hsame]
      exact h
  have hframe := exec_frame hex hc fun req hreq => hi ⟨req, hreq⟩
  intro hrole
  rw [hframe.id, hframe.conf]
  cases exec_role hex with
  | follower role => exact absurd role hrole
  | same role => exact h (role ▸ hrole)
  | failed _ _ _ _ _ member => exact of_decide_eq_true member
  | campaign election => exact of_decide_eq_true election.member
  | vote peer req resp request candidate => exact h (by rw [candidate]; simp)

end Node

end Raft
end DistKV
