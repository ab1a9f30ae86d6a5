import Mathlib.Logic.Relation
import DistKV.Raft.Cluster
import DistKV.Raft.Guard

/-!
# What a critical section does to the storage

A section calls the storage a few times, and the calls are of a handful of kinds. `StoreStep`
lists them with what the caller has checked at that point; `exec_store` reads every section off
as a sequence of such steps. An invariant of the storage is then a case analysis over
`StoreStep` and never has to look at a handler again.
-/

namespace DistKV
namespace Raft

theorem mem_of_entryAt {s : DiskStorage} {index : Nat} {e : Entry}
    (h : s.entryAt index = some e) : e ∈ s.log := by
  rw [DiskStorage.entryAt] at h
  split at h
  · cases h
  · exact List.mem_of_getElem? h

/-- The sections that append an entry of their own. -/
def NodeOp.Appends : NodeOp → Prop
  | .propose _ => True
  | .proposeConfChange _ => True
  | .reply _ (.requestVote _) _ => True
  | _ => False

/-- One storage call of the section `op` in the process with id `i` and configuration `conf`. -/
inductive StoreStep (i : Nat) (conf : ConfState) (op : NodeOp) : DiskStorage → DiskStorage → Prop
  | stepDown {s} (term : Nat) (later : s.term < term) :
      StoreStep i conf op s (s.setHardState term 0).1
  | campaign {s} (member : conf.contains i = true) :
      StoreStep i conf op s (s.setHardState (s.term + 1) i).1
  | vote {s} (req : RequestVoteRequest) (request : op = .handle (.requestVote req))
      (current : req.term = s.term) (free : s.votedFor = 0 ∨ s.votedFor = req.candidateId) :
      StoreStep i conf op s (s.setHardState s.term req.candidateId).1
  /-- A leader's own entry. -/
  | entry {s} (e : Entry) (next : e.index = s.lastIndex + 1) (current : e.term = s.term)
      (type : e.type = .confChange → ∃ cc, op = .proposeConfChange cc) (own : op.Appends) :
      StoreStep i conf op s (s.appendEntries [e]).1
  | accept {s} (req : AppendEntriesRequest) (request : op = .handle (.appendEntries req))
      (current : req.term = s.term) (reaches : req.prevLogIndex ≤ s.lastIndex) :
      StoreStep i conf op s (s.appendEntries (req.entries.dropWhile (Node.alreadyHas s))).1
  | sync {s} : StoreStep i conf op s s.sync.1
  | install {s} (req : InstallSnapshotRequest) (request : op = .handle (.installSnapshot req))
      (current : req.term = s.term) :
      StoreStep i conf op s (s.saveSnapshot req.lastIncludedIndex req.lastIncludedTerm req.data
        req.confState).1
  | compact {s} (index term : Nat) (data : Bytes) (request : op = .snapshot index data)
      (held : s.termAt index = some term) :
      StoreStep i conf op s (s.saveSnapshot index term data conf).1
  | applied {s} (request : op = .collect) (e : Entry) (held : e ∈ s.log)
      (type : e.type = .confChange) (c : ConfState) :
      StoreStep i conf op s (s.setConfState c).1

theorem setHardState_term (s : DiskStorage) (term votedFor : Nat) :
    (s.setHardState term votedFor).1.term = term := by
  rw [DiskStorage.setHardState, andThen]
  split <;> rfl

theorem setHardState_snapIndex (s : DiskStorage) (term votedFor : Nat) :
    (s.setHardState term votedFor).1.snapIndex = s.snapIndex := by
  rw [DiskStorage.setHardState, andThen]
  split <;> rfl

def StoreSteps (i : Nat) (conf : ConfState) (op : NodeOp) : DiskStorage → DiskStorage → Prop :=
  Relation.ReflTransGen (StoreStep i conf op)

/-- An invariant of the single calls is an invariant of a section. -/
theorem StoreSteps.keep {i : Nat} {conf : ConfState} {op : NodeOp} {s s' : DiskStorage}
    {P : DiskStorage → Prop} (h : StoreSteps i conf op s s') (h0 : P s)
    (hs : ∀ {s s'}, StoreStep i conf op s s' → P s → P s') : P s' := by
  induction h with
  | refl => exact h0
  | tail _ hstep ih => exact hs hstep ih

namespace Node

variable {n : Node} {op : NodeOp}

theorem stepDownLocked_store (term : Nat) :
    StoreSteps n.id n.conf op n.store (n.stepDownLocked term).store := by
  rw [stepDownLocked]
  split
  · next h => exact .single (.stepDown term h)
  · exact .refl

/-- A later term is recorded. -/
theorem stepDownLocked_disk (term : Nat) : (n.stepDownLocked term).store =
    if n.store.term < term then (n.store.setHardState term 0).1 else n.store := by
  rw [stepDownLocked]
  split
  · rfl
  · rfl

theorem sendAppendLocked_store (peer : Nat) (due : Bool) :
    (n.sendAppendLocked peer due).1.store = n.store := by
  simp only [sendAppendLocked]
  split
  · rfl
  · split
    · split <;> rfl
    · split
      · rfl
      · split <;> rfl

theorem sendAll_store (due : Nat → Bool) (ps : List Nat) :
    (n.sendAll due ps).1.store = n.store := by
  induction ps generalizing n with
  | nil => rfl
  | cons p ps ih =>
    simp only [sendAll]
    split
    · exact ih
    · rw [ih, sendAppendLocked_store]

theorem broadcastAppendLocked_store (due : Nat → Bool) :
    (n.broadcastAppendLocked due).1.store = n.store.sync.1 := by
  simp only [broadcastAppendLocked]
  split
  · rw [sendAll_store]
  · rfl

theorem appendEntryLocked_store (e : Entry) :
    (n.appendEntryLocked e).1.store = (n.store.appendEntries [e]).1 := by
  simp only [appendEntryLocked]
  split <;> rfl

theorem becomeLeaderLocked_store (own : op.Appends) :
    StoreSteps n.id n.conf op n.store n.becomeLeaderLocked.1.store := by
  simp only [becomeLeaderLocked]
  split
  · exact .refl
  · rw [broadcastAppendLocked_store]
    have hnoop : StoreStep n.id n.conf op n.store (n.store.appendEntries
        [{ term := n.store.term, index := n.store.lastIndex + 1 }]).1 :=
      .entry _ rfl rfl (by simp) own
    refine .tail (.single hnoop) ?_
    split <;> exact .sync

theorem startElectionLocked_store :
    StoreSteps n.id n.conf op n.store n.startElectionLocked.1.store := by
  simp only [startElectionLocked]
  split
  · exact .refl
  · next hc =>
    split
    · exact .refl
    · have hstep : StoreStep n.id n.conf op n.store
          (n.store.setHardState (n.store.term + 1) n.id).1 := .campaign (by simpa using hc)
      split <;> exact .single hstep

theorem onVoteReply_store (own : op.Appends) (newTerm : Nat) (resp : RequestVoteResponse) :
    StoreSteps n.id n.conf op n.store (n.onVoteReply newTerm resp).1.store := by
  simp only [onVoteReply]
  split
  · exact stepDownLocked_store _
  · split
    · exact .refl
    · split
      · exact becomeLeaderLocked_store (n := { n with
          votes := Function.update n.votes newTerm (n.votes newTerm + 1) }) own
      · exact .refl

theorem tick_store (timedOut : Bool) (due : Nat → Bool) :
    StoreSteps n.id n.conf op n.store (n.tick timedOut due).1.store := by
  rw [tick]
  split
  · rw [broadcastAppendLocked_store]
    exact .single .sync
  · split
    · exact startElectionLocked_store
    · exact .refl

theorem advanceCommitLocked_store :
    StoreSteps n.id n.conf op n.store n.advanceCommitLocked.store := by
  simp only [advanceCommitLocked]
  split
  · exact .refl
  · have hs : StoreSteps n.id n.conf op n.store n.store.sync.1 := .single .sync
    split
    · exact hs
    · split
      · exact hs
      · split <;> exact hs

theorem onAppendReply_store (peer : Nat) (req : AppendEntriesRequest)
    (resp : AppendEntriesResponse) :
    StoreSteps n.id n.conf op n.store (n.onAppendReply peer req resp).store := by
  simp only [onAppendReply]
  split
  · exact stepDownLocked_store _
  · split
    · exact .refl
    · split
      · -- the progress tables change first
        exact advanceCommitLocked_store (n := n.recordMatch peer _)
      · split
        · exact .refl
        · split
          · exact .refl
          · split <;> exact .refl

theorem onSnapshotReply_store (peer : Nat) (req : InstallSnapshotRequest)
    (resp : InstallSnapshotResponse) :
    StoreSteps n.id n.conf op n.store (n.onSnapshotReply peer req resp).store := by
  simp only [onSnapshotReply]
  split
  · exact stepDownLocked_store _
  · split
    · exact .refl
    · exact .refl

theorem onReadIndexReply_store (req : ReadIndexRequest) (resp : ReadIndexResponse) :
    StoreSteps n.id n.conf op n.store (n.onReadIndexReply req resp).1.store := by
  simp only [onReadIndexReply]
  split
  · exact stepDownLocked_store _
  · split <;> exact .refl

/-! ### Handlers -/

theorem stepDownLocked_term {term : Nat} (h : n.store.term ≤ term) :
    (n.stepDownLocked term).store.term = term := by
  rw [stepDownLocked]
  split
  · exact setHardState_term ..
  · next hle => exact Nat.le_antisymm h (Nat.le_of_not_lt hle)

theorem meetTerm_store (op : NodeOp) (term : Nat) :
    StoreSteps n.id n.conf op n.store (n.meetTerm term).store := by
  rw [meetTerm]
  split
  · exact stepDownLocked_store _
  · exact .refl

theorem le_meetTerm (term : Nat) : term ≤ (n.meetTerm term).store.term := by
  rw [meetTerm]
  split
  · next h => exact Nat.le_of_eq (stepDownLocked_term (Nat.le_of_lt h)).symm
  · next h => exact Nat.le_of_not_lt h

theorem follow_store (op : NodeOp) (term leaderId : Nat) :
    StoreSteps n.id n.conf op n.store (n.follow term leaderId).store := by
  simp only [follow]
  split
  · exact stepDownLocked_store _
  · exact .refl

theorem follow_disk (term leaderId : Nat) : (n.follow term leaderId).store =
    if n.store.term < term then (n.store.setHardState term 0).1 else n.store := by
  simp only [follow]
  split
  · exact stepDownLocked_disk term
  · next h => rw [if_neg fun hlt => h (.inl hlt)]

theorem follow_term {term : Nat} (leaderId : Nat) (h : n.store.term ≤ term) :
    (n.follow term leaderId).store.term = term := by
  simp only [follow]
  split
  · exact stepDownLocked_term h
  · next hle => exact Nat.le_antisymm h (Nat.le_of_not_lt fun hlt => hle (.inl hlt))

theorem handleRequestVote_store (req : RequestVoteRequest) :
    StoreSteps n.id n.conf (.handle (.requestVote req)) n.store (n.handleRequestVote req).1.store := by
  have hsteps := meetTerm_store (n := n) (.handle (.requestVote req)) req.term
  have hle := le_meetTerm (n := n) req.term
  simp only [handleRequestVote]
  generalize n.meetTerm req.term = m at hsteps hle ⊢
  split
  · exact hsteps
  · next hge =>
    split
    · exact hsteps
    · split
      · next hvote =>
        have hstep : StoreStep n.id n.conf (.handle (.requestVote req)) m.store
            (m.store.setHardState m.store.term req.candidateId).1 :=
          .vote req rfl (by omega) hvote.1
        split <;> exact hsteps.tail hstep
      · exact hsteps

theorem acceptEntries_store {m : Node} (req : AppendEntriesRequest) (resp : AppendEntriesResponse)
    (hcur : req.term = m.store.term) (hreach : req.prevLogIndex ≤ m.store.lastIndex) :
    StoreSteps n.id n.conf (.handle (.appendEntries req)) m.store
      (m.acceptEntries req resp).1.store := by
  have hstep : StoreStep n.id n.conf (.handle (.appendEntries req)) m.store
      (m.store.appendEntries (req.entries.dropWhile (alreadyHas m.store))).1 :=
    .accept req rfl hcur hreach
  have hr : StoreSteps n.id n.conf (.handle (.appendEntries req)) m.store
      (storeEntries m.store req.entries).1 := by
    simp only [storeEntries]
    split
    · rw [andThen]
      split
      · exact .tail (.single hstep) .sync
      · exact .single hstep
    · exact .refl
  simp only [acceptEntries]
  split
  · exact hr
  · split <;> exact hr

theorem handleAppendEntries_store (req : AppendEntriesRequest) :
    StoreSteps n.id n.conf (.handle (.appendEntries req)) n.store
      (n.handleAppendEntries req).1.store := by
  simp only [handleAppendEntries]
  split
  · exact .refl
  · next hge =>
    have hsteps := follow_store (n := n) (.handle (.appendEntries req)) req.term req.leaderId
    have hterm := follow_term (n := n) req.leaderId (Nat.le_of_not_lt hge)
    generalize n.follow req.term req.leaderId = m at hsteps hterm ⊢
    have haccept : req.prevLogIndex ≤ m.store.lastIndex → ∀ resp,
        StoreSteps n.id n.conf (.handle (.appendEntries req)) n.store
          (m.acceptEntries req resp).1.store :=
      fun hreach resp => hsteps.trans (acceptEntries_store req resp hterm.symm hreach)
    split
    · exact hsteps
    · next hreach =>
      split
      · split
        · exact hsteps
        · split
          · exact hsteps
          · exact haccept (Nat.le_of_not_lt hreach) _
      · exact haccept (Nat.le_of_not_lt hreach) _

theorem handleInstallSnapshot_store (req : InstallSnapshotRequest) :
    StoreSteps n.id n.conf (.handle (.installSnapshot req)) n.store
      (n.handleInstallSnapshot req).1.store := by
  simp only [handleInstallSnapshot]
  split
  · exact .refl
  · next hge =>
    have hsteps := follow_store (n := n) (.handle (.installSnapshot req)) req.term req.leaderId
    have hterm := follow_term (n := n) req.leaderId (Nat.le_of_not_lt hge)
    generalize n.follow req.term req.leaderId = m at hsteps hterm ⊢
    split
    · exact hsteps
    · have hstep : StoreStep n.id n.conf (.handle (.installSnapshot req)) m.store
          (m.store.saveSnapshot req.lastIncludedIndex req.lastIncludedTerm req.data
            req.confState).1 := .install req rfl hterm.symm
      split <;> exact hsteps.tail hstep

theorem handleReadIndex_store (req : ReadIndexRequest) :
    StoreSteps n.id n.conf op n.store (n.handleReadIndex req).1.store := by
  simp only [handleReadIndex]
  split
  · exact .refl
  · split <;> exact meetTerm_store op _

theorem snapshot_store (index : Nat) (data : Bytes) :
    StoreSteps n.id n.conf (.snapshot index data) n.store (n.snapshot index data).1.store := by
  simp only [snapshot]
  split
  · exact .refl
  · split
    · exact .refl
    · next term hterm => exact .single (.compact index term data rfl hterm)

theorem trackMember_store (cc : ConfChange) : (n.trackMember cc).store = n.store := by
  rw [trackMember]
  split
  · rfl
  · split
    · split <;> rfl
    · rfl
    · rfl
    · rfl

theorem trackMember_conf (cc : ConfChange) : (n.trackMember cc).conf = n.conf := by
  rw [trackMember]
  split
  · rfl
  · split
    · split <;> rfl
    · rfl
    · rfl
    · rfl

theorem applyConfChangeLocked_store (cc : ConfChange) :
    (n.applyConfChangeLocked cc).1.store = n.store ∨
      ∃ c, (n.applyConfChangeLocked cc).1.store = (n.store.setConfState c).1 := by
  rw [applyConfChangeLocked]
  split
  · exact .inl rfl
  · next c _ =>
    simp only [trackMember_store]
    exact .inr ⟨_, rfl⟩

theorem collectLoop_store {i : Nat} {conf : ConfState} {fuel : Nat} {m m' : Node}
    {msgs : List ApplyMsg} (h : collectLoop fuel m = some (m', msgs)) :
    StoreSteps i conf .collect m.store m'.store := by
  induction fuel generalizing m m' msgs with
  | zero =>
    simp only [collectLoop, Option.some.injEq, Prod.mk.injEq] at h
    rw [h.1]
    exact .refl
  | succ fuel ih =>
    rw [collectLoop] at h
    split at h
    swap
    · simp only [Option.some.injEq, Prod.mk.injEq] at h
      rw [h.1]
      exact .refl
    simp only at h
    split at h
    · have hrest := ih h
      exact hrest
    · split at h
      · cases h
      · next e he =>
        obtain ⟨⟨m'', msgs'⟩, hrest, hq⟩ := Option.map_eq_some_iff.mp h
        simp only [Prod.mk.injEq] at hq
        rw [← hq.1]
        have hmem : e ∈ m.store.log := mem_of_entryAt he
        -- the entry is a configuration change or leaves the storage alone
        have hone : StoreSteps i conf .collect m.store (m.applyEntry e).1.store := by
          rw [applyEntry]
          split
          · next cc htype _ =>
            rcases applyConfChangeLocked_store (n := m) cc with hs | ⟨c, hs⟩
            · rw [hs]; exact .refl
            · rw [hs]; exact .single (.applied rfl e hmem htype c)
          · exact .refl
        have htail := ih hrest
        exact hone.trans htail

theorem collect_store {m' : Node} {msgs : List ApplyMsg} (h : n.collect = some (m', msgs)) :
    StoreSteps n.id n.conf .collect n.store m'.store := collectLoop_store h

theorem handle_store (req : Request) :
    StoreSteps n.id n.conf (.handle req) n.store (n.handle req).1.store := by
  cases req with
  | requestVote req => exact handleRequestVote_store req
  | appendEntries req => exact handleAppendEntries_store req
  | installSnapshot req => exact handleInstallSnapshot_store req
  | readIndex req => exact handleReadIndex_store req

theorem onReply_store {peer : Nat} {req : Request} {resp : Response} {m : Node} {eff : Effect}
    (h : n.onReply peer req resp = some (m, eff)) :
    StoreSteps n.id n.conf (.reply peer req resp) n.store m.store := by
  unfold onReply at h
  split at h
  · next vote answer =>
    have own : NodeOp.Appends (.reply peer (.requestVote vote) (.requestVote answer)) := trivial
    obtain ⟨rfl, -⟩ := Prod.mk.inj (Option.some.inj h)
    exact onVoteReply_store own _ _
  · obtain ⟨rfl, -⟩ := Prod.mk.inj (Option.some.inj h)
    exact onAppendReply_store _ _ _
  · obtain ⟨rfl, -⟩ := Prod.mk.inj (Option.some.inj h)
    exact onSnapshotReply_store _ _ _
  · obtain ⟨rfl, -⟩ := Prod.mk.inj (Option.some.inj h)
    exact onReadIndexReply_store _ _
  · cases h

theorem exec_unlocked {m : Node} {eff : Effect} (h : n.exec op = some (m, eff)) :
    n.locked = false := by
  cases hl : n.locked with
  | false => rfl
  | true => simp [exec, hl] at h

/-- **Every section is a sequence of storage steps.** -/
theorem exec_store {m : Node} {eff : Effect} (h : n.exec op = some (m, eff)) :
    StoreSteps n.id n.conf op n.store m.store := by
  have hlock := exec_unlocked h
  simp only [exec, hlock, Bool.false_eq_true, if_false] at h
  cases op with
  | tick timedOut due =>
    obtain ⟨rfl, -⟩ := Prod.mk.inj (Option.some.inj h)
    exact tick_store _ _
  | propose command =>
    obtain ⟨rfl, -⟩ := Prod.mk.inj (Option.some.inj h)
    rw [propose]
    split
    · exact .refl
    · rw [appendEntryLocked_store]
      exact .single (.entry _ rfl rfl (by simp) trivial)
  | proposeConfChange cc =>
    obtain ⟨rfl, -⟩ := Prod.mk.inj (Option.some.inj h)
    rw [proposeConfChange]
    split
    · exact .refl
    · split
      · exact .refl
      · split
        · exact .refl
        · rw [appendEntryLocked_store]
          exact .single (.entry _ rfl rfl (fun _ => ⟨cc, rfl⟩) trivial)
  | snapshot index data =>
    obtain ⟨rfl, -⟩ := Prod.mk.inj (Option.some.inj h)
    exact snapshot_store _ _
  | collect =>
    obtain ⟨⟨m', msgs⟩, hc, hq⟩ := Option.map_eq_some_iff.mp h
    obtain ⟨rfl, -⟩ := Prod.mk.inj hq
    exact collect_store hc
  | handle req =>
    obtain ⟨rfl, -⟩ := Prod.mk.inj (Option.some.inj h)
    exact handle_store req
  | reply peer req resp => exact onReply_store h
  | finish peer =>
    obtain ⟨rfl, -⟩ := Prod.mk.inj (Option.some.inj h)
    exact .refl

end Node

/-! ## The term and the snapshot only grow -/

theorem StoreStep.grows {i : Nat} {conf : ConfState} {op : NodeOp} {s s' : DiskStorage}
    (h : StoreStep i conf op s s') : s.term ≤ s'.term ∧ s.snapIndex ≤ s'.snapIndex := by
  have hsave : ∀ (s : DiskStorage) index term data conf,
      s.term ≤ (s.saveSnapshot index term data conf).1.term ∧
      s.snapIndex ≤ (s.saveSnapshot index term data conf).1.snapIndex := by
    intro s index term data conf
    obtain ⟨ht, -, hi⟩ := saveSnapshot_head (s := s) index term data conf
    exact ⟨Nat.le_of_eq ht.symm, by omega⟩
  cases h with
  | stepDown term later =>
    rw [setHardState_term, setHardState_snapIndex]
    exact ⟨Nat.le_of_lt later, Nat.le_refl _⟩
  | campaign member =>
    rw [setHardState_term, setHardState_snapIndex]
    exact ⟨Nat.le_succ _, Nat.le_refl _⟩
  | vote req request current free =>
    rw [setHardState_term, setHardState_snapIndex]
    exact ⟨Nat.le_refl _, Nat.le_refl _⟩
  | entry e next current type =>
    rw [(appendEntries_head _).term, (appendEntries_head _).snapIndex]
    exact ⟨Nat.le_refl _, Nat.le_refl _⟩
  | accept req request current reaches =>
    rw [(appendEntries_head _).term, (appendEntries_head _).snapIndex]
    exact ⟨Nat.le_refl _, Nat.le_refl _⟩
  | sync =>
    rw [sync_head.term, sync_head.snapIndex]
    exact ⟨Nat.le_refl _, Nat.le_refl _⟩
  | install req request current => exact hsave ..
  | compact index term data request held => exact hsave ..
  | applied request e held type c =>
    obtain ⟨h1, -, h2⟩ := setConfState_head (s := s) c
    rw [h1, h2]
    exact ⟨Nat.le_refl _, Nat.le_refl _⟩

theorem StoreSteps.grows {i : Nat} {conf : ConfState} {op : NodeOp} {s s' : DiskStorage}
    (h : StoreSteps i conf op s s') : s.term ≤ s'.term ∧ s.snapIndex ≤ s'.snapIndex :=
  h.keep (P := fun s' => s.term ≤ s'.term ∧ s.snapIndex ≤ s'.snapIndex)
    ⟨Nat.le_refl _, Nat.le_refl _⟩ fun hstep hs =>
      ⟨Nat.le_trans hs.1 hstep.grows.1, Nat.le_trans hs.2 hstep.grows.2⟩

end Raft
end DistKV
