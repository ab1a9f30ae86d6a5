import DistKV.Raft.Durable
import DistKV.Raft.Election

/-!
# Where an entry comes from

An entry enters the cluster in one section: a leader accepts a command or a change, or a candidate
that has won appends its no-op. Everything else copies entries. The node is elected in the term of
the entry, and as long as it leads in this term its log does not shrink, so the place behind its log
is a new one; and once it has stopped to lead, by a crash in the middle of the very section or
later, it never leads in this term again. Index and term therefore determine an entry: in every log,
at every moment of a run without configuration changes, whatever fails (`entry_unique`).
-/

namespace DistKV
namespace Raft

open Run (IsRun)

/-! ## Authors -/

/-- The section `op` of `n` tries to append `e` on the node's own account. -/
inductive Authors (n : Node) : NodeOp → Entry → Prop
  | propose (command : Bytes) (leader : n.role = .leader) :
      Authors n (.propose command)
        { term := n.store.term, index := n.store.lastIndex + 1, data := command }
  | confChange (cc : ConfChange) (accepts : n.AcceptsConfChange cc) :
      Authors n (.proposeConfChange cc)
        { term := n.store.term, index := n.store.lastIndex + 1, type := .confChange,
          confChange := some cc }
  | noop (peer : Nat) (req : RequestVoteRequest) (resp : RequestVoteResponse)
      (candidate : n.role = .candidate) (current : n.store.term = req.term)
      (answer : resp.term ≤ n.store.term) (granted : resp.voteGranted = true)
      (quorum : n.conf.hasVoteQuorum (n.votes req.term + 1) = true) :
      Authors n (.reply peer (.requestVote req) (.requestVote resp))
        { term := n.store.term, index := n.store.lastIndex + 1 }

/-- The storage after an author's section. -/
inductive OwnAppend (s : DiskStorage) (e : Entry) : DiskStorage → Prop
  | written : OwnAppend s e (s.appendEntries [e]).1
  | synced : OwnAppend s e (s.appendEntries [e]).1.sync.1

section Authors

variable {n m : Node} {op : NodeOp} {e e' : Entry} {eff : Effect}

theorem Authors.unique (h : Authors n op e) (h' : Authors n op e') : e = e' := by
  cases h with
  | propose command leader => cases h'; rfl
  | confChange cc accepts => cases h'; rfl
  | noop peer req resp candidate current answer granted quorum => cases h'; rfl

theorem Authors.next (h : Authors n op e) :
    e.index = n.store.lastIndex + 1 ∧ e.term = n.store.term := by
  cases h with
  | propose command leader => exact ⟨rfl, rfl⟩
  | confChange cc accepts => exact ⟨rfl, rfl⟩
  | noop peer req resp candidate current answer granted quorum => exact ⟨rfl, rfl⟩

theorem Authors.role (h : Authors n op e) : n.role = .leader ∨ n.role = .candidate := by
  cases h with
  | propose command leader => exact .inl leader
  | confChange cc accepts => exact .inl accepts.1
  | noop peer req resp candidate current answer granted quorum => exact .inr candidate

theorem appendEntryLocked_own (e : Entry) : OwnAppend n.store e (n.appendEntryLocked e).1.store := by
  rw [Node.appendEntryLocked_store]
  exact .written

/-- The candidate's last vote. -/
theorem onVoteReply_wins {term : Nat} {resp : RequestVoteResponse} (hc : n.role = .candidate)
    (hterm : n.store.term = term) (hle : resp.term ≤ n.store.term) (hg : resp.voteGranted = true)
    (hq : n.conf.hasVoteQuorum (n.votes term + 1) = true) :
    n.onVoteReply term resp =
      Node.broadcastAppendLocked
        ({ n with votes := Function.update n.votes term (n.votes term + 1) } : Node).elected
        fun _ => true := by
  have hnot : ¬(n.role ≠ .candidate ∨ n.store.term ≠ term ∨ resp.voteGranted = false) := by
    simp [hc, hterm, hg]
  have hne : ({ n with votes := Function.update n.votes term (n.votes term + 1) } : Node).role ≠
      .leader := by simp [hc]
  simp only [Node.onVoteReply]
  rw [if_neg (Nat.not_lt.mpr hle), if_neg hnot, if_pos (by simpa using hq),
    Node.becomeLeaderLocked_eq hne]

/-- The same node up to its supply of failures. -/
theorem authors_withFaults (faults : List Bool) :
    Authors (n.withFaults faults) op e ↔ Authors n op e := by
  constructor
  · intro h
    cases h with
    | propose command leader => exact .propose command leader
    | confChange cc accepts => exact .confChange cc accepts
    | noop peer req resp candidate current answer granted quorum =>
      exact .noop peer req resp candidate current answer granted quorum
  · intro h
    cases h with
    | propose command leader => exact .propose (n := n.withFaults faults) command leader
    | confChange cc accepts => exact .confChange (n := n.withFaults faults) cc accepts
    | noop peer req resp candidate current answer granted quorum =>
      exact .noop (n := n.withFaults faults) peer req resp candidate current answer granted quorum

/-- What an author's section does. -/
theorem Authors.outcome (h : Authors n op e) (hex : n.exec op = some (m, eff)) :
    OwnAppend n.store e m.store ∧ m.role = .leader := by
  have hlock := Node.exec_unlocked hex
  simp only [Node.exec, hlock, Bool.false_eq_true, if_false] at hex
  cases h with
  | propose command leader =>
    obtain ⟨rfl, -⟩ := Prod.mk.inj (Option.some.inj hex)
    rw [Node.propose, if_neg (by rw [leader]; simp)]
    exact ⟨appendEntryLocked_own _, (Node.appendEntryLocked_steady _).role.trans leader⟩
  | confChange cc accepts =>
    obtain ⟨rfl, -⟩ := Prod.mk.inj (Option.some.inj hex)
    rw [Node.proposeConfChange_accepted accepts]
    exact ⟨appendEntryLocked_own _, (Node.appendEntryLocked_steady _).role.trans accepts.1⟩
  | noop peer req resp candidate current answer granted quorum =>
    obtain ⟨rfl, -⟩ := Prod.mk.inj (Option.some.inj hex)
    rw [onVoteReply_wins candidate current answer granted quorum]
    refine ⟨?_, (Node.broadcastAppendLocked_steady rfl _).role⟩
    rw [Node.broadcastAppendLocked_store]
    exact .synced

/-- A section that may append an entry does so, or changes at most the term. -/
theorem exec_appends (hop : op.Appends) (hex : n.exec op = some (m, eff)) :
    m.store = n.store ∨ (∃ term, m.store = (n.store.setHardState term 0).1) ∨
      ∃ e, Authors n op e ∧ OwnAppend n.store e m.store := by
  by_cases ha : ∃ e, Authors n op e
  · obtain ⟨e, he⟩ := ha
    exact .inr (.inr ⟨e, he, (he.outcome hex).1⟩)
  have hlock := Node.exec_unlocked hex
  simp only [Node.exec, hlock, Bool.false_eq_true, if_false] at hex
  cases op with
  | propose command =>
    obtain ⟨rfl, -⟩ := Prod.mk.inj (Option.some.inj hex)
    rw [Node.propose]
    split
    · exact .inl rfl
    · next hl => exact absurd ⟨_, .propose command (by simpa using hl)⟩ ha
  | proposeConfChange cc =>
    obtain ⟨rfl, -⟩ := Prod.mk.inj (Option.some.inj hex)
    obtain ⟨err, hrej⟩ := Node.proposeConfChange_rejected fun hacc => ha ⟨_, .confChange cc hacc⟩
    rw [hrej]
    exact .inl rfl
  | reply peer req resp =>
    cases req with
    | requestVote req =>
      cases resp with
      | requestVote resp =>
        obtain ⟨rfl, -⟩ := Prod.mk.inj (Option.some.inj hex)
        simp only [Node.onVoteReply]
        split
        · next hlt =>
          rw [Node.stepDownLocked_disk, if_pos hlt]
          exact .inr (.inl ⟨_, rfl⟩)
        next hle =>
        split
        · exact .inl rfl
        next hcount =>
        simp only [not_or, Decidable.not_not, Bool.not_eq_false] at hcount
        split
        · next hq =>
          exact absurd ⟨_, .noop peer req resp hcount.1 hcount.2.1 (Nat.le_of_not_lt hle)
            hcount.2.2 (by simpa using hq)⟩ ha
        · exact .inl rfl
      | _ => cases hex
    | _ => cases hop
  | _ => cases hop

end Authors

/-! ## Only authors bring entries -/

section Sourced

variable {K : Entry → Prop}

def SourcedFiles (K : Entry → Prop) (f : Files) : Prop := ∀ e, .append e ∈ f.records → K e

/-- Every entry of the storage is one of `K`. -/
structure Sourced (K : Entry → Prop) (s : DiskStorage) : Prop where
  log : ∀ e ∈ s.log, K e
  files : SourcedFiles K s.disk.files

theorem SourcedFiles.write {f : Files} (h : SourcedFiles K f) {r : WalRecord}
    (hr : ∀ e, r = .append e → K e) : SourcedFiles K (f.write r) := by
  intro e he
  rw [Files.records_write] at he
  rcases List.mem_append.mp he with he | he
  · exact h e he
  · exact hr e (List.mem_singleton.mp he).symm

theorem sourcedGuard (K : Entry → Prop) : Guard (Sourced K) (SourcedFiles K) where
  quiet hd h := ⟨h.log, by simpa only [hd] using h.files⟩
  files h := h.files
  flush {s} h := by
    refine ⟨h.log, fun e he => h.files e ?_⟩
    rwa [DiskStorage.withFiles, Files.records_flush] at he

variable {s : DiskStorage}

theorem Sourced.push (h : Sourced K s) {e : Entry} (he : K e) :
    Sourced K ({ s with log := s.log ++ [e] }.withFiles (s.disk.files.write (.append e))) := by
  refine ⟨fun x hx => ?_, h.files.write fun x hx => ?_⟩
  · rcases List.mem_append.mp hx with hx | hx
    · exact h.log x hx
    · rw [List.mem_singleton.mp hx]
      exact he
  · rw [← WalRecord.append.inj hx]
    exact he

theorem Sourced.setHardState (h : Kept (Sourced K) (SourcedFiles K) s) (term votedFor : Nat) :
    Kept (Sourced K) (SourcedFiles K) (s.setHardState term votedFor).1 :=
  (sourcedGuard K).setHardState h ⟨h.1.log, h.1.files⟩ ⟨h.1.log, h.1.files.write (by simp)⟩

theorem Sourced.appendEntries (h : Kept (Sourced K) (SourcedFiles K) s) {es : List Entry}
    (hes : ∀ e ∈ es, K e) : Kept (Sourced K) (SourcedFiles K) (s.appendEntries es).1 := by
  refine (sourcedGuard K).appendEntries (Q := fun es s => Sourced K s ∧ ∀ e ∈ es, K e)
    (fun hq => hq.1) (fun hd hq => ⟨(sourcedGuard K).quiet hd hq.1, hq.2⟩) ?_ h
    (fun _ _ _ _ => ⟨h.1, hes⟩) ?_
  · rintro e es s ⟨hs, hk⟩
    exact ⟨hs.push (hk e List.mem_cons_self), fun x hx => hk x (List.mem_cons_of_mem _ hx)⟩
  · intro e es' x _ _ _
    refine ⟨⟨fun y hy => h.1.log y ?_, h.1.files.write (by simp)⟩, hes⟩
    exact (List.rdropWhile_prefix _ _).subset hy

theorem Sourced.saveSnapshot (h : Kept (Sourced K) (SourcedFiles K) s) (index term : Nat)
    (data : Bytes) (conf : ConfState) :
    Kept (Sourced K) (SourcedFiles K) (s.saveSnapshot index term data conf).1 := by
  have hlog : ∀ e ∈ s.log.filter (fun e => decide (e.index > index)), K e :=
    fun e he => h.1.log e (List.mem_of_mem_filter he)
  refine (sourcedGuard K).saveSnapshot h ⟨h.1.log, h.1.files⟩ (fun _ => ⟨h.1.log, h.1.files⟩)
    (fun _ => ⟨h.1.log, h.1.files⟩) (fun _ => ⟨hlog, h.1.files⟩) ?_
  intro _ f _ _ _ huns hsyn
  refine ⟨hlog, fun e he => hlog e ?_⟩
  rw [DiskStorage.withFiles, Files.records, huns, hsyn, List.append_nil] at he
  simpa using he

theorem StoreStep.sourced {i : Nat} {conf : ConfState} {op : NodeOp} {s s' : DiskStorage}
    (h : StoreStep i conf op s s') (hop : ¬op.Appends)
    (hreq : ∀ req, op = .handle (.appendEntries req) → ∀ e ∈ req.entries, K e)
    (hs : Kept (Sourced K) (SourcedFiles K) s) : Kept (Sourced K) (SourcedFiles K) s' := by
  cases h with
  | stepDown term later => exact Sourced.setHardState hs _ _
  | campaign member => exact Sourced.setHardState hs _ _
  | vote req request current free => exact Sourced.setHardState hs _ _
  | entry e next current type own => exact absurd own hop
  | accept req request current reaches =>
    refine Sourced.appendEntries hs fun e he => hreq req request e ?_
    exact (List.dropWhile_suffix _).subset he
  | sync => exact (sourcedGuard K).sync hs
  | install req request current => exact Sourced.saveSnapshot hs _ _ _ _
  | compact index term data request held => exact Sourced.saveSnapshot hs _ _ _ _
  | applied request e held type c =>
    exact (sourcedGuard K).setConfState hs ⟨hs.1.log, hs.1.files⟩
      ⟨hs.1.log, hs.1.files.write (by simp)⟩

theorem OwnAppend.sourced {s' : DiskStorage} {e : Entry} (h : OwnAppend s e s')
    (next : e.index = s.lastIndex + 1) (he : (s.appendEntries [e]).2 = true → K e)
    (hs : Kept (Sourced K) (SourcedFiles K) s) : Kept (Sourced K) (SourcedFiles K) s' := by
  have happend := (sourcedGuard K).appendNext next hs fun hok => hs.1.push (he hok)
  cases h with
  | written => exact happend
  | synced => exact (sourcedGuard K).sync happend

/-- What the author of the section has written is one of `K`. -/
def Authorised (K : Entry → Prop) (n : Node) (op : NodeOp) (faults : List Bool) : Prop :=
  ∀ e, Authors n op e → ((n.withFaults faults).store.appendEntries [e]).2 = true → K e

theorem exec_sourced {n n' : Node} {op : NodeOp} {faults : List Bool} {eff : Effect}
    (hn : Sourced K n.store) (hok : Authorised K n op faults)
    (hreq : ∀ req, op = .handle (.appendEntries req) → ∀ e ∈ req.entries, K e)
    (hex : (n.withFaults faults).exec op = some (n', eff)) :
    Kept (Sourced K) (SourcedFiles K) n'.store := by
  have hstart : Kept (Sourced K) (SourcedFiles K) (n.withFaults faults).store :=
    ⟨(sourcedGuard K).quiet (b := n.store.dirty) rfl hn, by simp [Node.withFaults]⟩
  by_cases hop : op.Appends
  · rcases exec_appends hop hex with hsame | ⟨term, hterm⟩ | ⟨e, he, happend⟩
    · rw [hsame]
      exact hstart
    · rw [hterm]
      exact Sourced.setHardState hstart _ _
    · exact happend.sourced he.next.1 (hok e ((authors_withFaults faults).mp he)) hstart
  · exact (Node.exec_store hex).keep hstart fun hstep hs => hstep.sourced hop hreq hs

def SourcedRequest (K : Entry → Prop) : Request → Prop
  | .appendEntries req => ∀ e ∈ req.entries, K e
  | _ => True

def sourced (K : Entry → Prop) : Assertion where
  node _ n := Sourced K n.store
  files _ := SourcedFiles K
  call _ _ := SourcedRequest K

theorem sourced_sent {n : Node} (hn : Sourced K n.store) {s : Send} (hs : Sent n s) :
    SourcedRequest K s.req := by
  cases hs with
  | vote role request => rw [request]; trivial
  | snapshot role request => rw [request]; trivial
  | append role next prevTerm above prev request =>
    rw [request]
    intro e he
    change e ∈ n.store.entriesFrom next at he
    rw [DiskStorage.entriesFrom] at he
    split at he
    · cases he
    · exact hn.log e (List.mem_of_mem_drop he)

theorem SourcedFiles.recover {f : Files} (h : SourcedFiles K f) {keep : Nat} {peers : List Nat}
    (ho : DiskStorage.openDiskStorage (f.crash keep) peers = some s) : Sourced K s := by
  have hr := recovered_of_open ho
  have hrecs : ∀ e, .append e ∈ (f.crash keep).synced → K e :=
    fun e hm => h e ((f.crash_synced keep).subset hm)
  refine ⟨fun e he => ?_, fun e he => hrecs e ?_⟩
  · rw [hr.log] at he
    exact hrecs e (mem_logOf he)
  · rw [hr.disk] at he
    simpa [Files.records, Files.crash] using he

/-- **Entries are copied, except by their authors.** -/
theorem sourcedRule (cfg : Config) (K : Entry → Prop) :
    Rule cfg (Authorised K) (sourced K) where
  init i := ⟨List.forall_mem_nil _, fun _ h => by cases h⟩
  files h := h.files
  recover h ho := h.recover ho
  exec {i n faults op n' eff} _ hn hok hop hex := by
    have hreq : ∀ req, op = .handle (.appendEntries req) → ∀ e ∈ req.entries, K e := by
      rintro req rfl
      obtain ⟨_, h⟩ := hop
      exact h
    have hk := exec_sourced hn hok hreq hex
    exact ⟨hk.1, hk.2, fun _ _ _ => trivial,
      fun s hs => ⟨sourced_sent hk.1 ((Node.exec_sends hex).sent s hs), trivial⟩,
      fun _ _ _ _ => trivial⟩
  read _ _ _ _ _ _ _ hreq := ⟨by rw [hreq]; trivial, trivial⟩

end Sourced

/-! ## A leader's log does not shrink -/

section Reach

variable {N : Nat} {s : DiskStorage}

theorem reachGuard (N : Nat) : Guard (fun s => N ≤ s.lastIndex) (fun _ => True) where
  quiet _ h := h
  files _ := trivial
  flush h := h

theorem lastIndex_push (s : DiskStorage) (e : Entry) (f : Files) :
    ({ s with log := s.log ++ [e] }.withFiles f).lastIndex = e.index := by
  rw [DiskStorage.lastIndex]
  simp [DiskStorage.withFiles]

/-- A snapshot of an index of the log leaves the last index where it is. -/
theorem lastIndex_compact {index : Nat} (hle : index ≤ s.lastIndex) (hlt : s.snapIndex < index)
    {s' : DiskStorage} (hlog : s'.log = s.log.filter fun e => decide (e.index > index))
    (hsnap : s'.snapIndex = index) : s.lastIndex ≤ s'.lastIndex := by
  rw [DiskStorage.lastIndex] at hle ⊢
  rw [DiskStorage.lastIndex, hlog, hsnap]
  cases hl : s.log.getLast? with
  | none =>
    rw [hl] at hle
    exact absurd hle (Nat.not_le.mpr hlt)
  | some x =>
    rw [hl] at hle
    obtain ⟨front, hfront⟩ := List.getLast?_eq_some_iff.mp hl
    show x.index ≤ _
    by_cases hx : x.index > index
    · rw [hfront, List.filter_append, List.filter_singleton]
      simp [hx]
    · split
      · next y hy =>
        have hmem := List.mem_of_getLast? hy
        have hgt := of_decide_eq_true (List.mem_filter.mp hmem).2
        exact Nat.le_trans (Nat.le_of_not_lt hx) (Nat.le_of_lt hgt)
      · exact Nat.le_of_not_lt hx

theorem OwnAppend.reach {s' : DiskStorage} {e : Entry} (h : OwnAppend s e s')
    (next : e.index = s.lastIndex + 1) : s.lastIndex ≤ s'.lastIndex ∧
      ((s.appendEntries [e]).2 = true → e.index ≤ s'.lastIndex) := by
  have hle : s.lastIndex ≤ (s.appendEntries [e]).1.lastIndex := by
    refine ((reachGuard s.lastIndex).appendNext next ⟨Nat.le_refl _, fun _ _ => trivial⟩ ?_).1
    intro _
    rw [lastIndex_push]
    omega
  have hok : (s.appendEntries [e]).2 = true → e.index ≤ (s.appendEntries [e]).1.lastIndex := by
    intro hok
    rw [DiskStorage.lastIndex, (appendEntries_ok hok).1]
    simp
  cases h with
  | written => exact ⟨hle, hok⟩
  | synced =>
    have hsame : (s.appendEntries [e]).1.sync.1.lastIndex = (s.appendEntries [e]).1.lastIndex := by
      rw [DiskStorage.lastIndex, DiskStorage.lastIndex, sync_log, sync_head.snapIndex]
    rw [hsame]
    exact ⟨hle, hok⟩

/-- The sections that put another node's entries in the place of the node's own. -/
def NodeOp.Copies : NodeOp → Prop
  | .handle (.appendEntries _) => True
  | .handle (.installSnapshot _) => True
  | _ => False

/-- Only what a leader sends makes a log shorter. -/
theorem StoreStep.reach {i : Nat} {conf : ConfState} {op : NodeOp} {s s' : DiskStorage}
    (h : StoreStep i conf op s s') (hop : ¬op.Copies) (hs : N ≤ s.lastIndex) :
    N ≤ s'.lastIndex := by
  have hk : Kept (fun s => N ≤ s.lastIndex) (fun _ => True) s := ⟨hs, fun _ _ => trivial⟩
  have hg := reachGuard N
  have hhard : ∀ term votedFor, Kept (fun s => N ≤ s.lastIndex) (fun _ => True)
      (s.setHardState term votedFor).1 := fun _ _ => hg.setHardState hk hs hs
  have hconf : ∀ c, Kept (fun s => N ≤ s.lastIndex) (fun _ => True) (s.setConfState c).1 :=
    fun _ => hg.setConfState hk hs hs
  cases h with
  | stepDown term later => exact (hhard _ _).1
  | campaign member => exact (hhard _ _).1
  | vote req request current free => exact (hhard _ _).1
  | entry e next current type own =>
    exact Nat.le_trans hs ((OwnAppend.written (s := s) (e := e)).reach next).1
  | accept req request current reaches =>
    subst request
    exact absurd trivial hop
  | sync => exact (hg.sync hk).1
  | install req request current =>
    subst request
    exact absurd trivial hop
  | compact index term data request held =>
    have hkeep : s.snapIndex < index → ∀ {s' : DiskStorage},
        s'.log = s.log.filter (fun e => decide (e.index > index)) → s'.snapIndex = index →
        N ≤ s'.lastIndex := by
      intro hlt s' hlog hsnap
      refine Nat.le_trans hs (lastIndex_compact ?_ hlt hlog hsnap)
      rw [DiskStorage.termAt, if_neg (Nat.ne_of_gt hlt)] at held
      split at held
      · cases held
      · omega
    exact (hg.saveSnapshot hk hs (fun _ => hs) (fun _ => hs) (fun hlt => hkeep hlt rfl rfl)
      fun hlt f _ _ _ _ _ => hkeep hlt rfl rfl).1
  | applied request e held type c => exact (hconf c).1

/-- A leader's requests leave a node alone that leads afterwards. -/
theorem exec_leading {n m : Node} {op : NodeOp} {eff : Effect} (hex : n.exec op = some (m, eff))
    (hl : m.role = .leader) : m = n ∨ ¬op.Copies := by
  have hlock := Node.exec_unlocked hex
  simp only [Node.exec, hlock, Bool.false_eq_true, if_false] at hex
  cases op with
  | handle req =>
    obtain ⟨rfl, -⟩ := Prod.mk.inj (Option.some.inj hex)
    cases req with
    | appendEntries req =>
      rcases Node.handleAppendEntries_role (n := n) req with ⟨-, hsame⟩ | ⟨hrole, -⟩
      · exact .inl hsame
      · cases hrole.symm.trans hl
    | installSnapshot req =>
      rcases Node.handleInstallSnapshot_role (n := n) req with hrole | ⟨-, hsame⟩
      · cases hrole.symm.trans hl
      · exact .inl hsame
    | requestVote req => exact .inr id
    | readIndex req => exact .inr id
  | _ => exact .inr id

/-- **A node that copies nothing does not lose the end of its log.** -/
theorem exec_reach {n m : Node} {op : NodeOp} {eff : Effect} (hex : n.exec op = some (m, eff))
    (hop : m = n ∨ ¬op.Copies) : n.store.lastIndex ≤ m.store.lastIndex := by
  rcases hop with rfl | hop
  · exact Nat.le_refl _
  · exact (Node.exec_store hex).keep (P := fun s => n.store.lastIndex ≤ s.lastIndex)
      (Nat.le_refl _) fun hstep hs => hstep.reach hop hs

end Reach

/-! ## An author's term -/

/-- The node is not in the running for `term` any more, and `P` holds of it whenever it leads there. -/
structure Reign (term : Nat) (P : Node → Prop) (n : Node) : Prop where
  candidate : n.store.term = term → n.role ≠ .candidate
  leader : n.store.term = term → n.role = .leader → P n

theorem Reign.follower {term : Nat} {P : Node → Prop} {n : Node} (h : n.role = .follower) :
    Reign term P n := by
  constructor
  · intro _ hc
    cases h.symm.trans hc
  · intro _ hl
    cases h.symm.trans hl

/-- A section keeps what it keeps of a leader: nobody is elected twice in one term. -/
theorem Reign.exec {term : Nat} {P R : Node → Prop} {n m : Node} {op : NodeOp} {eff : Effect}
    (h : Reign term P n) (hterm : term ≤ n.store.term) (hex : n.exec op = some (m, eff))
    (hkeep : n.role = .leader → m.role = .leader → P n → R m) : Reign term R m := by
  cases Node.exec_role hex with
  | follower role votes => exact .follower role
  | same role same votes quiet =>
    constructor
    · intro ht hc
      exact h.candidate (same.symm.trans ht) (role.symm.trans hc)
    · intro ht hl
      have hn := role.symm.trans hl
      exact hkeep hn hl (h.leader (same.symm.trans ht) hn)
  | failed role later votes quiet timer => constructor <;> (intro ht; omega)
  | campaign election timer =>
    have hlater := election.term
    constructor <;> (intro ht; omega)
  | vote peer req resp request candidate current granted same votes quiet role =>
    constructor
    · intro ht
      exact absurd candidate (h.candidate (same.symm.trans ht))
    · intro ht
      exact absurd candidate (h.candidate (same.symm.trans ht))

/-- The same along a run, as long as the node does not fall back behind the term. -/
theorem Reign.run {cfg : Config} {σ : Nat → Cluster} {α : Nat → Option Action}
    (hrun : IsRun (Cluster.step cfg) (Cluster.init cfg) σ α) {term i k : Nat} {P : Node → Prop}
    (h : Reign term P ((σ k).node i)) (hterm : ∀ t, k ≤ t → term ≤ ((σ t).node i).store.term)
    (hkeep : ∀ t faults op m eff, k ≤ t →
      (((σ t).node i).withFaults faults).exec op = some (m, eff) →
      ((σ t).node i).role = .leader → m.role = .leader → P ((σ t).node i) → P m) {l : Nat}
    (hl : k ≤ l) : Reign term P ((σ l).node i) := by
  refine hrun.invariant_from (P := fun c => Reign term P (c.node i)) h
    (fun t act ht hact hreign => ?_) hl
  have hnode := step_node (hrun.next t act hact) i
  generalize (σ (t + 1)).node i = m at hnode ⊢
  cases hnode with
  | same => exact hreign
  | ran ev faults op eff runs resolves exec =>
    -- what the file operations are going to do is no part of `P`
    have hstart : Reign term (fun _ => P ((σ t).node i)) (((σ t).node i).withFaults faults) :=
      ⟨hreign.candidate, hreign.leader⟩
    exact hstart.exec (hterm t ht) exec fun hn hm hp => hkeep t faults op m eff ht exec hn hm hp
  | restarted during faults point keep files store crashes found opens => exact .follower rfl

/-- Node `n` will not append at `index` in `term` again: it leads in the term with a log that reaches
    beyond, or it is not in the running. -/
structure Spent (term index : Nat) (n : Node) : Prop where
  candidate : n.store.term = term → n.role ≠ .candidate
  leader : n.store.term = term → n.role = .leader → index ≤ n.store.lastIndex

theorem spent_iff_reign {term index : Nat} {n : Node} :
    Spent term index n ↔ Reign term (fun n => index ≤ n.store.lastIndex) n :=
  ⟨fun h => ⟨h.candidate, h.leader⟩, fun h => ⟨h.candidate, h.leader⟩⟩

theorem Spent.exec {term index : Nat} {n m : Node} {op : NodeOp} {eff : Effect}
    (h : Spent term index n) (hterm : term ≤ n.store.term) (hex : n.exec op = some (m, eff)) :
    Spent term index m := by
  rw [spent_iff_reign] at h ⊢
  exact h.exec hterm hex fun _ hl hle => Nat.le_trans hle (exec_reach hex (exec_leading hex hl))

/-! ## Runs -/

/-- The action writes the entry `e`, in a section of node `i`. -/
structure Creates (c : Cluster) (act : Action) (i : Nat) (e : Entry) : Prop where
  wrote : ∃ ev faults op, act.section? = some (ev, faults) ∧ c.resolve ev = some (i, op) ∧
    Authors (c.node i) op e ∧ (((c.node i).withFaults faults).store.appendEntries [e]).2 = true

theorem Creates.unique {c : Cluster} {act : Action} {i j : Nat} {e e' : Entry}
    (h : Creates c act i e) (h' : Creates c act j e') : e = e' := by
  obtain ⟨ev, faults, op, hsec, hres, hauth, -⟩ := h
  obtain ⟨ev', faults', op', hsec', hres', hauth', -⟩ := h'
  obtain ⟨rfl, rfl⟩ := Prod.mk.inj (Option.some.inj (hsec.symm.trans hsec'))
  obtain ⟨rfl, rfl⟩ := Prod.mk.inj (Option.some.inj (hres.symm.trans hres'))
  exact hauth.unique hauth'

section Run

variable {cfg : Config} {σ : Nat → Cluster} {α : Nat → Option Action} {Q : Finset Nat → Prop}

/-- By some moment of the run `e` has been written by its author. -/
def Created (σ : Nat → Cluster) (α : Nat → Option Action) (e : Entry) : Prop :=
  ∃ k act i, α k = some act ∧ Creates (σ k) act i e

/-- Every entry has an author. -/
theorem created_run (hrun : IsRun (Cluster.step cfg) (Cluster.init cfg) σ α) (k i : Nat) {e : Entry}
    (he : e ∈ ((σ k).node i).store.log) : Created σ α e := by
  have hall := (sourcedRule cfg (Created σ α)).run hrun (fun j act hact ev faults b op hsec hres x
    hauth hok => ⟨j, act, b, hact, ⟨ev, faults, op, hsec, hres, hauth, hok⟩⟩) k
  exact (hall.node i).log e he

/-- The node whose section it is, after the action. -/
theorem Creates.spent {c c' : Cluster} {act : Action} {i : Nat} {e : Entry}
    (h : Creates c act i e) (hs : c.step cfg act = some c') :
    Spent e.term e.index (c'.node i) := by
  obtain ⟨ev, faults, op, hsec, hres, hauth, hok⟩ := h
  cases act with
  | run ev' faults' =>
    obtain ⟨rfl, rfl⟩ := Prod.mk.inj (Option.some.inj hsec)
    obtain ⟨j, n, eff, ho, rfl⟩ := step_run hs
    obtain ⟨op', hres', -, hex⟩ := outcome_some ho
    obtain ⟨rfl, rfl⟩ := Prod.mk.inj (Option.some.inj (hres.symm.trans hres'))
    rw [node_finishSection, if_pos rfl]
    obtain ⟨happend, hl⟩ := ((authors_withFaults _).mpr hauth).outcome hex
    constructor
    · intro _ hc
      cases hl.symm.trans hc
    · intro _ _
      exact (happend.reach hauth.next.1).2 hok
  | restart j during faults' point keep =>
    obtain ⟨-, files, store, hf, -, rfl⟩ := step_restart hs
    rcases filesAt_some hf with ⟨rfl, -⟩ | ⟨ev', n, eff, rfl, hout, -⟩
    · cases hsec
    obtain ⟨rfl, rfl⟩ := Prod.mk.inj (Option.some.inj hsec)
    obtain ⟨op', hres', -, -⟩ := outcome_some hout
    obtain ⟨rfl, rfl⟩ := Prod.mk.inj (Option.some.inj (hres.symm.trans hres'))
    rw [node_restarted, if_pos rfl]
    exact spent_iff_reign.mpr (.follower rfl)
  | _ => cases hsec

section Elections

variable (hrun : IsRun (Cluster.step cfg) (Cluster.init cfg) σ α)
  (hpolls : ∀ k, Polls Q (Cast σ k) (σ k))
include hrun hpolls

/-- A leader has voted for itself. -/
theorem leader_own (k i : Nat) (hl : ((σ k).node i).role = .leader) :
    Cast σ k i ((σ k).node i).store.term i := by
  induction k with
  | zero =>
    rw [hrun.start] at hl
    cases hl
  | succ k ih =>
    cases ha : α k with
    | none =>
      rw [hrun.idle k ha] at hl ⊢
      exact (ih hl).mono (Nat.le_succ k)
    | some act =>
      refine Cast.mono ?_ (Nat.le_succ k)
      have hnode := step_node (hrun.next k act ha) i
      generalize (σ (k + 1)).node i = m at hnode hl ⊢
      cases hnode with
      | same => exact ih hl
      | ran ev faults op eff runs resolves exec =>
        cases Node.exec_role exec with
        | follower role votes => cases role.symm.trans hl
        | same role same votes quiet =>
          rw [same]
          exact ih (role.symm.trans hl)
        | failed role later votes quiet timer => cases role.symm.trans hl
        | campaign election timer => cases election.role.symm.trans hl
        | vote peer req resp request candidate current granted same votes quiet role =>
          subst request
          rw [same, current]
          exact ((hpolls k).all.op resolves).1.2.2.1
      | restarted during faults point keep files store crashes found opens => cases hl

/-- An author has been elected in the term of its entry, and has voted for itself. -/
theorem Creates.elected (hcounts : ∀ k i V, ((σ k).node i).Counting V → Q V) {k i : Nat}
    {act : Action} {e : Entry} (h : Creates (σ k) act i e) :
    Elected Q (Cast σ k) i e.term ∧ Cast σ k i e.term i := by
  obtain ⟨ev, faults, op, hsec, hres, hauth, -⟩ := h
  have hlead : ((σ k).node i).role = .leader → e.term = ((σ k).node i).store.term →
      Elected Q (Cast σ k) i e.term ∧ Cast σ k i e.term i := by
    intro hl hterm
    rw [hterm]
    exact ⟨(hpolls k).all.node i hl, leader_own hrun hpolls k i hl⟩
  cases hauth with
  | propose command leader => exact hlead leader rfl
  | confChange cc accepts => exact hlead accepts.1 rfl
  | noop peer req resp candidate current answer granted quorum =>
    show Elected Q (Cast σ k) i ((σ k).node i).store.term ∧ _
    rw [current]
    refine ⟨(hpolls k).wins hres candidate current granted quorum (hcounts k i) fun _ _ _ h => h, ?_⟩
    exact ((hpolls k).all.op hres).1.2.2.1

/-- The author of an entry does not write at its place in its term again. -/
theorem Creates.spent_run (hcounts : ∀ k i V, ((σ k).node i).Counting V → Q V) {k i : Nat}
    {act : Action} {e : Entry} (ha : α k = some act) (h : Creates (σ k) act i e) {l : Nat}
    (hl : k < l) : Spent e.term e.index ((σ l).node i) := by
  have hcast := (h.elected hrun hpolls hcounts).2
  have hspent := h.spent (hrun.next k act ha)
  rw [spent_iff_reign] at hspent ⊢
  refine hspent.run hrun (fun t ht => ?_) (fun t faults op m eff _ hex _ hlead hle => ?_) hl
  · -- its vote for itself keeps the node from falling back behind the term
    exact ((hcast.mono (Nat.le_of_succ_le ht)).above hrun).le.term
  · have hreach := exec_reach hex (exec_leading hex hlead)
    exact Nat.le_trans hle hreach

/-- Two entries of one index and term are written in the same section. -/
theorem Created.unique (hcounts : ∀ k i V, ((σ k).node i).Counting V → Q V)
    (hmeet : ∀ V W, Q V → Q W → ∃ v, v ∈ V ∧ v ∈ W) {e e' : Entry} (h : Created σ α e)
    (h' : Created σ α e') (hindex : e.index = e'.index) (hterm : e.term = e'.term) : e = e' := by
  obtain ⟨k, act, i, ha, hc⟩ := h
  obtain ⟨k', act', i', ha', hc'⟩ := h'
  have helected := (hc.elected hrun hpolls hcounts).1
  rw [hterm] at helected
  obtain rfl := helected.unique hrun hmeet (hc'.elected hrun hpolls hcounts).1
  -- a later section of the author would append behind the earlier entry
  have hlater : ∀ {k k' act act' e e'}, α k = some act → Creates (σ k) act i e →
      Creates (σ k') act' i e' → e.index = e'.index → e.term = e'.term → ¬k < k' := by
    intro k k' act act' e e' ha hc hc' hindex hterm hlt
    have hspent := hc.spent_run hrun hpolls hcounts ha hlt
    obtain ⟨ev, faults, op, -, -, hauth, -⟩ := hc'
    obtain ⟨hnext, hcur⟩ := hauth.next
    have hcur' := hcur.symm.trans hterm.symm
    rcases hauth.role with hl | hcand
    · have hreach := hspent.leader hcur' hl
      omega
    · exact hspent.candidate hcur' hcand
  rcases Nat.lt_trichotomy k k' with hlt | rfl | hlt
  · exact absurd hlt (hlater ha hc hc' hindex hterm)
  · obtain rfl := Option.some.inj (ha.symm.trans ha')
    exact hc.unique hc'
  · exact absurd hlt (hlater ha' hc' hc hindex.symm hterm.symm)

end Elections

/-- **Index and term determine an entry**: in the logs of any two nodes at any two moments of a run
    without configuration changes, with any storage failures. -/
theorem entry_unique (hrun : IsRun (Cluster.step cfg) (Cluster.init cfg) σ α)
    (fixed : ∀ k act, α k = some act → ¬act.Reconfigures (σ k)) {j k a b : Nat} {e e' : Entry}
    (he : e ∈ ((σ j).node a).store.log) (he' : e' ∈ ((σ k).node b).store.log)
    (hindex : e.index = e'.index) (hterm : e.term = e'.term) : e = e' := by
  have hcounts : ∀ k i V, ((σ k).node i).Counting V →
      (ConfState.newConfState cfg.peers).Counts V := by
    intro k i V hV
    have hc := hV.2
    rwa [((fixed_run hrun fixed k).node i).2.1] at hc
  exact (created_run hrun j a he).unique hrun (polls_fixed hrun fixed) hcounts
    (fun _ _ => newConfState_meet) (created_run hrun k b he') hindex hterm

end Run

end Raft
end DistKV
