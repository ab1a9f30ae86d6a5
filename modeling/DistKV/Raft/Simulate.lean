import DistKV.Raft.Ghost
import DistKV.Raft.Quorum
import DistKV.Raft.Roles

/-!
# Sections that are followed by the ghost: terms, elections, leaders

A section calls the storage and moves a few variables; the ghost takes steps along with it.
`Simulates a₀ a i n` is the state in the middle of a section that began with the ghost in `a₀`: the
ghost has come to `a`, the node is `n`, and a crash at any point up to here is one the abstract node
can have had. The handlers of a follower are in `Accept.lean`.
-/

namespace DistKV
namespace Raft

open TermLog (Settled lastTerm)

structure Simulates (q : Prop) (G : GhostGuard) (peers : List Nat) (a₀ a : Ghost) (i : Nat)
    (n : Node) : Prop where
  tracks : Tracks q G peers a₀ a i n.store
  node : NodeRel q a i n

section Storage

variable {peers : List Nat} {s : DiskStorage}

theorem Clean.setHardState_unsynced (h : Clean peers s) (term votedFor : Nat) :
    (s.setHardState term votedFor).1.disk.files.unsynced = [] := by
  rw [DiskStorage.setHardState_calm h.calm]
  rfl

theorem Clean.setHardState_ok (h : Clean peers s) (term votedFor : Nat) :
    (s.setHardState term votedFor).2 = true := by
  rw [DiskStorage.setHardState_calm h.calm]

theorem Clean.sync_ok (h : Clean peers s) : s.sync.2 = true := by
  rw [DiskStorage.sync_calm h.calm]

theorem Clean.sync_unsynced (h : Clean peers s)
    (flag : s.dirty = false → s.disk.files.unsynced = []) :
    s.sync.1.disk.files.unsynced = [] := by
  rw [DiskStorage.sync_calm h.calm]
  cases hd : s.dirty with
  | false => exact flag hd
  | true => rfl

theorem lastIndex_lt {first : Nat} (h : s.lastIndex < first) :
    ∀ x, s.log.getLast? = some x → x.index < first := by
  intro x hx
  rw [DiskStorage.lastIndex, hx] at h
  exact h

/-- An entry behind the last one: nothing is truncated. -/
theorem Clean.appendNext (h : Clean peers s) {e : Entry} (hindex : e.index = s.lastIndex + 1) :
    truncateFrom s.log e.index = s.log ∧ s.appendEntries [e] =
      ({ s with log := s.log ++ [e], dirty := true }.puts [s.disk.files.write (.append e)],
        true) := by
  have hlast := lastIndex_lt (s := s) (Nat.lt_of_lt_of_eq (Nat.lt_succ_self _) hindex.symm)
  have hkeep := DiskStorage.truncateFrom_self hlast
  have hnone : s.truncation e.index = [] := by
    rw [DiskStorage.truncation]
    split
    · next x hx => exact if_neg (Nat.not_le_of_lt (hlast x hx))
    · rfl
  refine ⟨hkeep, ?_⟩
  rw [DiskStorage.appendEntries_calm h.calm, hkeep, DiskStorage.appendRecords, hnone]
  rfl

theorem keptClean_setHardState (h : Kept (Clean peers) CleanFiles s) (term votedFor : Nat) :
    Kept (Clean peers) CleanFiles (s.setHardState term votedFor).1 := by
  obtain ⟨hstored, hordered⟩ := keptClean_split h
  have hst := Stored.setHardState hstored term votedFor
  have hord : Kept _ _ (s.setHardState term votedFor).1 :=
    orderedGuard.setHardState hordered hordered.1 (hordered.1.write _)
  exact ⟨h.1.setHardState hst.1, fun f hf => ⟨hst.2 f hf, hord.2 f hf⟩⟩

/-- A call that is one of the steps a section takes. -/
theorem keptClean_step {i : Nat} {op : NodeOp} {s' : DiskStorage}
    (h : Kept (Clean peers) CleanFiles s)
    (hstep : StoreStep i (.newConfState peers) op s s')
    (hop : ∀ req, op = .handle req → CleanRequest peers req) (hcollect : op ≠ .collect) :
    Kept (Clean peers) CleanFiles s' :=
  hstep.clean hop (.inr rfl) hcollect h

end Storage

section Sections

variable {q : Prop} {G : GhostGuard} {peers : List Nat} {a₀ a a' : Ghost} {i : Nat}
  {n : Node}

theorem Tracks.inv (hi : GhostInv a₀) {s : DiskStorage} (h : Tracks q G peers a₀ a i s) :
    GhostInv a :=
  (hi.steps h.steps).1

theorem NodeRel.synced (hrel : Rel q a i n.store.view) (hs : Stored n.store)
    (hcommit : Committed a n.commitIndex n.store.view) (happlied : n.lastApplied ≤ n.commitIndex)
    (hu : n.store.disk.files.unsynced = [])
    (hleader : n.role = .leader → LeaderRel a i n.store.term n.matchIndex)
    (hcandidate : n.role = .candidate → CandidateRel a i n.store.term)
    (howned : n.role = .leader → a.com n.store.term ≤ n.commitIndex) : NodeRel q a i n :=
  ⟨hrel, hcommit, happlied, fun _ => hu, fun _ => hu, pending_synced hs hu hrel.length, hleader,
    hcandidate, howned⟩

/-! ## Hard states -/

/-- A hard state is recorded and the node changes its role. -/
theorem Simulates.hardState (hi : GhostInv a₀) (h : Simulates q G peers a₀ a i n)
    {term votedFor : Nat} (role : Role)
    (hsteps : GhostSteps G i a a')
    (hrel : Rel q a' i { n.store.view with term := term, votedFor := votedFor })
    (hterm : n.store.term ≤ term) (hleader : role = .leader → LeaderRel a' i term n.matchIndex)
    (hcandidate : role = .candidate → CandidateRel a' i term)
    (howned : role = .leader → a'.com term ≤ n.commitIndex) :
    Simulates q G peers a₀ a' i
      { n with store := (n.store.setHardState term votedFor).1, role := role } := by
  have hc := h.tracks.clean.1
  obtain ⟨-, he, -⟩ := (h.tracks.inv hi).steps hsteps
  have hclean := keptClean_setHardState h.tracks.clean term votedFor
  have htracks := h.tracks.setHardState hclean hsteps hrel
  have hview := hc.setHardState_view term votedFor
  refine ⟨htracks, NodeRel.synced htracks.rel hclean.1.stored ?_ h.node.applied
    (hc.setHardState_unsynced _ _) ?_ ?_ ?_⟩
  · rw [hview]
    exact h.node.commit.mono he hterm
  · intro hr
    rw [setHardState_term]
    exact hleader hr
  · intro hr
    rw [setHardState_term]
    exact hcandidate hr
  · intro hr
    rw [setHardState_term]
    exact howned hr

theorem Simulates.stepDown (hi : GhostInv a₀) (h : Simulates q G peers a₀ a i n) {term : Nat}
    (later : n.store.term < term) :
    ∃ a', GhostSteps G i a a' ∧ Simulates q G peers a₀ a' i (n.stepDownLocked term) := by
  obtain ⟨a', hsteps, hrel⟩ := h.node.rel.bump (h.tracks.inv hi) later
  refine ⟨a', hsteps, ?_⟩
  rw [Node.stepDownLocked, if_pos later]
  exact h.hardState hi .follower hsteps hrel (Nat.le_of_lt later) (by simp) (by simp) (by simp)

/-- A candidate that hears of the leader of its term. -/
theorem Simulates.giveUp (h : Simulates q G peers a₀ a i n) (hr : n.role ≠ .leader) :
    Simulates q G peers a₀ a i { n with role := .follower } :=
  ⟨h.tracks, NodeRel.synced h.node.rel h.tracks.clean.1.stored h.node.commit h.node.applied
    (h.node.quiet hr) (by simp) (by simp) (by simp)⟩

theorem Simulates.meetTerm (hi : GhostInv a₀) (h : Simulates q G peers a₀ a i n) (term : Nat) :
    ∃ a', GhostSteps G i a a' ∧ Simulates q G peers a₀ a' i (n.meetTerm term) := by
  rw [Node.meetTerm]
  split
  · next later => exact h.stepDown hi later
  · exact ⟨a, .refl, h⟩

theorem Simulates.startElection (hi : GhostInv a₀) (h : Simulates q G peers a₀ a i n)
    (hid : n.id = i) (hne : i ≠ 0) :
    ∃ a', GhostSteps G i a a' ∧ Simulates q G peers a₀ a' i n.startElectionLocked.1 := by
  simp only [Node.startElectionLocked]
  split
  · exact ⟨a, .refl, h⟩
  split
  · exact ⟨a, .refl, h⟩
  obtain ⟨a', hsteps, hrel, hcand, hno⟩ := h.node.rel.campaign (h.tracks.inv hi) hne
  have hnext := h.hardState hi .candidate hsteps hrel (Nat.le_succ _) (by simp)
    (fun _ => ⟨hcand, hno⟩) (by simp)
  rw [h.tracks.clean.1.setHardState_ok, hid]
  exact ⟨a', hsteps, hnext.tracks, { hnext.node with }⟩

/-- `termAt` above the snapshot reads the whole log. -/
theorem Rel.termAt_eq {s : DiskStorage} (h : Rel q a i s.view) (hs : Stored s) {k : Nat}
    (hk : s.snapIndex ≤ k) : s.termAt (k + 1) = (a.log i)[k]?.map Entry.term := by
  have hentry := h.entry (k - s.snapIndex)
  rw [Nat.add_sub_cancel' hk] at hentry
  rw [hentry, termAt_above hs.chain (Nat.lt_add_one_of_le hk), Nat.sub_sub, Nat.add_sub_add_right]

/-- What `RequestVote` compares is the last entry of the whole log. -/
theorem Rel.last_eq {s : DiskStorage} (h : Rel q a i s.view) (hs : Stored s) :
    (a.log i).length = s.lastIndex ∧
      lastTerm Entry.term (a.log i) = (s.termAt s.lastIndex).getD 0 := by
  have hlen : (a.log i).length = s.snapIndex + s.log.length := h.length
  refine ⟨hlen.trans hs.lastIndex.symm, ?_⟩
  rw [h.lastTerm_eq, hs.lastIndex]
  show (s.log.getLast?.map Entry.term).getD s.snapTerm = _
  cases hl : s.log.getLast? with
  | none =>
    rw [List.getLast?_eq_none_iff.mp hl, List.length_nil, Nat.add_zero, termAt_snapIndex]
    rfl
  | some e =>
    rw [List.getLast?_eq_getElem?] at hl
    have hlt := (List.getElem?_eq_some_iff.mp hl).1
    rw [termAt_above hs.chain (by omega), Nat.add_sub_cancel_left, hl]
    rfl

theorem Simulates.handleRequestVote (hi : GhostInv a₀) (h : Simulates q G peers a₀ a₀ i n)
    {source : Nat} {req : RequestVoteRequest} (hreq : GhostRequest a₀ source i (.requestVote req)) :
    ∃ a, Simulates q G peers a₀ a i (n.handleRequestVote req).1 := by
  obtain ⟨a, hsteps, hmet⟩ := h.meetTerm hi req.term
  obtain ⟨hia, he, -⟩ := hi.steps hsteps
  obtain ⟨rfl, hne, M, hM, hlen, hterm⟩ := hreq.mono he
  have hle := Node.le_meetTerm (n := n) req.term
  simp only [Node.handleRequestVote]
  generalize n.meetTerm req.term = m at hmet hle ⊢
  split
  · exact ⟨a, hmet⟩
  next hge =>
  have hcur : m.store.term = req.term := Nat.le_antisymm (Nat.le_of_not_lt hge) hle
  split
  · exact ⟨a, hmet⟩
  split
  swap
  · exact ⟨a, hmet⟩
  next hgrant =>
  obtain ⟨free, hnewer⟩ := hgrant
  -- the check of the handler is the abstract one
  have hlast := hmet.node.rel.last_eq hmet.tracks.clean.1.stored
  have hup : TermLog.UpToDate Entry.term M (a.log i) := by
    rw [decide_eq_true_eq] at hnewer
    rw [TermLog.UpToDate, hlast.1, hlast.2, hlen, hterm]
    exact hnewer
  rw [hmet.tracks.clean.1.setHardState_ok]
  simp only [if_true]
  rw [← hcur] at hM
  obtain ⟨a', hvote, hrel, hlog, hldr, hcom⟩ := hmet.node.rel.voteFor hia hne free hM hup
  obtain ⟨-, he', -⟩ := hia.steps hvote
  refine ⟨a', hmet.hardState hi m.role hvote hrel (Nat.le_refl _) (fun hr => ?_) (fun hr => ?_)
    fun hr => ?_⟩
  · have hl := hmet.node.leader hr
    exact hl.mono he' (by rw [hldr, hlog]; exact hl.own) (by rw [hlog])
  · obtain ⟨hcand, hno⟩ := hmet.node.candidate hr
    exact ⟨by rw [hlog]; exact he'.cand hcand, by rw [hldr]; exact hno⟩
  · rw [hcom]
    exact hmet.node.owned hr

/-! ## Leaders -/

theorem Simulates.sync (h : Simulates q G peers a₀ a i n) :
    Simulates q G peers a₀ a i { n with store := n.store.sync.1 } ∧
      n.store.sync.1.disk.files.unsynced = [] := by
  have hc := h.tracks.clean.1
  have hclean := keptClean_step h.tracks.clean (.sync : StoreStep 0 _ (.finish 0) _ _) (by simp)
    (by simp)
  have htracks := h.tracks.sync hclean
  have hu := hc.sync_unsynced h.node.flag
  have hview := hc.sync_view
  have hterm : n.store.sync.1.term = n.store.term := congrArg View.term hview
  refine ⟨⟨htracks, NodeRel.synced htracks.rel hclean.1.stored ?_ h.node.applied hu ?_ ?_ ?_⟩, hu⟩
  · rw [hview]
    exact h.node.commit
  · rw [hterm]
    exact h.node.leader
  · rw [hterm]
    exact h.node.candidate
  · rw [hterm]
    exact h.node.owned

theorem Simulates.broadcast (h : Simulates q G peers a₀ a i n) (hl : n.role = .leader)
    (due : Nat → Bool) : Simulates q G peers a₀ a i (n.broadcastAppendLocked due).1 := by
  obtain ⟨f, hf⟩ := (Node.broadcastAppendLocked_spec hl due).1
  have hs := h.sync.1
  rw [hf]
  exact ⟨hs.tracks, { hs.node with }⟩

/-- A leader's own entry in the storage. -/
theorem Tracks.extend (hi : GhostInv a₀) {s : DiskStorage} (h : Tracks q G peers a₀ a i s)
    (own : a.ldr s.term = some (i, a.log i)) {e : Entry} (hterm : e.term = s.term)
    (hindex : e.index = s.lastIndex + 1) (allowed : G.entry (a.log i) e) :
    ∃ a', GhostSteps G i a a' ∧ Tracks q G peers a₀ a' i (s.appendEntries [e]).1 ∧
      a'.log i = a.log i ++ [e] ∧ a'.ldr s.term = some (i, a'.log i) ∧ a'.acc = a.acc ∧
      a'.com = a.com := by
  have hc := h.clean.1
  obtain ⟨hkeep, -⟩ := hc.appendNext hindex
  have hclean := keptClean_step h.clean
    (.entry e hindex hterm (fun _ => ⟨⟨.leaveJoint, 0, []⟩, rfl⟩) trivial :
      StoreStep 0 _ (.proposeConfChange ⟨.leaveJoint, 0, []⟩) _ _) (by simp) (by simp)
  obtain ⟨a', hsteps, hrel, hlog, hldr, hacc, hcom⟩ := h.rel.extend (h.inv hi) own hterm allowed
  refine ⟨a', hsteps, h.appendEntries hclean ?_ ?_ hsteps (by rw [hkeep]; exact hrel), hlog, hldr,
    hacc, hcom⟩
  · intro x hx
    rw [List.mem_singleton.mp hx, hindex, hc.stored.lastIndex]
    omega
  · intro j
    rw [hkeep]
    cases j with
    | zero => exact ⟨a, .refl, by rw [List.take_zero, List.append_nil]; exact h.rel⟩
    | succ j => exact ⟨a', hsteps, by rw [List.take_of_length_le (by simp)]; exact hrel⟩

/-- The new entry has not been acknowledged: no acknowledgement goes beyond the leader's log. -/
theorem Pending.extend (hi : GhostInv a) {s : DiskStorage} (hc : Clean peers s)
    (h : Pending a i s) (hrel : Rel q a i s.view) (own : a.ldr s.term = some (i, a.log i))
    {e : Entry} (hterm : e.term = s.term) (hindex : e.index = s.lastIndex + 1)
    (hlog : a'.log i = a.log i ++ [e]) (hacc : a'.acc = a.acc) :
    Pending a' i (s.appendEntries [e]).1 := by
  have hlen : (a.log i).length = s.snapIndex + s.log.length := hrel.length
  rw [(hc.appendNext hindex).2]
  intro p hs hp
  have hp' : p <+: s.disk.files.records ++ [.append e] := by
    rw [← Files.records_write]
    exact hp
  rcases List.prefix_concat_iff.mp hp' with rfl | hold
  · -- nothing is lost
    refine ⟨(s.log ++ [e]).length, ?_, fun k x hk hx => ?_⟩
    · have habove : e.index > s.snapIndex := by
        rw [hindex, hc.stored.lastIndex]
        omega
      show logOf s.snapIndex _ = (s.log ++ [e]).take _
      rw [List.take_length, logOf_append, ← hc.stored.log, replayLog, if_pos habove]
    · have hlt := (List.getElem?_eq_some_iff.mp hx).1
      have hk' : s.snapIndex + (s.log ++ [e]).length ≤ k := hk
      rw [hlog] at hlt
      simp only [List.length_append, List.length_singleton] at hlt hk'
      omega
  · obtain ⟨j, hj, hun⟩ := h p hs hold
    refine ⟨min j s.log.length, ?_, fun k x hk hx => ?_⟩
    · show logOf s.snapIndex p = (s.log ++ [e]).take (min j s.log.length)
      rw [hj, List.take_append_of_le_length (Nat.min_le_right _ _), List.take_eq_take_min]
    · have hk' : s.snapIndex + min j s.log.length ≤ k := hk
      rw [hlog] at hx
      rw [hacc]
      rcases Nat.lt_or_ge k (a.log i).length with hlt | hge
      · rw [List.getElem?_append_left hlt] at hx
        exact hun k x (by omega) hx
      · have hx' : x = e := by
          rw [List.getElem?_append_right hge] at hx
          exact List.mem_singleton.mp (List.mem_of_getElem? hx)
        rw [hx', hterm]
        exact Nat.le_trans (hi.acc_le own) hge

/-- A leader appends an entry and counts itself. -/
theorem Simulates.extend (hi : GhostInv a₀) (h : Simulates q G peers a₀ a i n)
    (hl : n.role = .leader) {e : Entry} (hterm : e.term = n.store.term)
    (hindex : e.index = n.store.lastIndex + 1) (allowed : G.entry (a.log i) e) :
    ∃ a', GhostSteps G i a a' ∧ Simulates q G peers a₀ a' i
      { n with
        store := (n.store.appendEntries [e]).1
        matchIndex := Function.update n.matchIndex i (some e.index) } := by
  have hc := h.tracks.clean.1
  have hleader := h.node.leader hl
  obtain ⟨a', hsteps, htracks, hlog, hldr, hacc, hcom⟩ :=
    h.tracks.extend hi hleader.own hterm hindex allowed
  have hia := h.tracks.inv hi
  obtain ⟨-, he, -⟩ := hia.steps hsteps
  have hpend := h.node.pending.extend hia hc h.node.rel hleader.own hterm hindex hlog hacc
  have happ := (hc.appendNext hindex).2
  have hgrow := hleader.mono he hldr (by rw [hlog]; exact List.prefix_append _ _)
  refine ⟨a', hsteps, htracks, ⟨htracks.rel, ?_, h.node.applied, ?_, fun hr => absurd hl hr, hpend,
    fun _ => ?_, fun hr => ?_, fun _ => ?_⟩⟩
  · obtain ⟨hle, P, hP, hPlen, hpre⟩ := h.node.commit
    rw [happ]
    exact ⟨hle, P, hP.mono he (Nat.le_refl _), hPlen, hpre.trans (List.prefix_append _ _)⟩
  · rw [happ]
    exact fun h => by cases h
  · rw [happ]
    have hlen : (a.log i).length = n.store.snapIndex + n.store.log.length := h.node.rel.length
    refine hgrow.update ?_ fun hne => absurd rfl hne
    rw [hindex, hc.stored.lastIndex, hlog, List.length_append, hlen]
    exact Nat.le_refl _
  · change n.role = .candidate at hr
    rw [hl] at hr
    cases hr
  · rw [happ, hcom]
    exact h.node.owned hl

theorem Simulates.appendEntry (hi : GhostInv a₀) (h : Simulates q G peers a₀ a i n)
    (hid : n.id = i) (hl : n.role = .leader) {e : Entry} (hterm : e.term = n.store.term)
    (hindex : e.index = n.store.lastIndex + 1) (allowed : G.entry (a.log i) e) :
    ∃ a', GhostSteps G i a a' ∧ Simulates q G peers a₀ a' i (n.appendEntryLocked e).1 := by
  subst hid
  obtain ⟨a', hsteps, hnext⟩ := h.extend hi hl hterm hindex allowed
  have happ := (h.tracks.clean.1.appendNext hindex).2
  rw [happ] at hnext
  rw [Node.appendEntryLocked, happ]
  exact ⟨a', hsteps, hnext⟩

/-- Commands and no-ops are not restricted. -/
def Permits (G : GhostGuard) : Prop := ∀ L e, e.type = .normal → G.entry L e

theorem Simulates.propose (hi : GhostInv a₀) (h : Simulates q G peers a₀ a₀ i n)
    (hid : n.id = i) (hG : Permits G) (command : Bytes) :
    ∃ a, Simulates q G peers a₀ a i (n.propose command).1 := by
  rw [Node.propose]
  split
  · exact ⟨a₀, h⟩
  next hl =>
  obtain ⟨a, -, hnext⟩ := h.appendEntry hi hid (Decidable.not_not.mp hl)
    (e := { term := n.store.term, index := n.store.lastIndex + 1, data := command }) rfl rfl
    (hG _ _ rfl)
  exact ⟨a, hnext⟩

/-! ## Elections -/

/-- The votes of `V` are enough in `term`: one of them was cast for the leader of the term, if there
    is one, and one by a node that knows what is committed. -/
structure Winning (G : GhostGuard) (a : Ghost) (term : Nat) (V : Finset Nat) : Prop where
  quorum : G.quorum V
  sole : ∀ c L, a.ldr term = some (c, L) → ∃ v ∈ V, v ∈ a.bal term
  informed : TermLog.Informed a term V

/-- A candidate with enough votes becomes the leader of its term. -/
theorem Simulates.becomeLeader (hi : GhostInv a₀) (h : Simulates q G peers a₀ a i n)
    (hid : n.id = i) (hG : Permits G) (hr : n.role = .candidate) {V : Finset Nat}
    (hV : Winning G a n.store.term V) (hvotes : ∀ v ∈ V, a.voted v n.store.term = some i) :
    ∃ a', Simulates q G peers a₀ a' i n.becomeLeaderLocked.1 := by
  subst hid
  have hia := h.tracks.inv hi
  obtain ⟨hcand, hno⟩ := h.node.candidate hr
  have hterm : a.term n.id = n.store.term := h.node.rel.term
  -- another leader of the term would have had one of the votes, too
  have hfree : a.ldr n.store.term = none := by
    cases hl : a.ldr n.store.term with
    | none => rfl
    | some cL =>
      obtain ⟨c, L⟩ := cL
      obtain ⟨v, hvV, hvb⟩ := hV.sole c L hl
      have hvote := hia.voters _ c L hl v hvb
      rw [hvotes v hvV, Option.some.injEq] at hvote
      subst hvote
      exact absurd hl (hno L)
  obtain ⟨b, hsteps, hldr, hlog, hvoted, hbterm, hbcom⟩ : ∃ b, GhostSteps G n.id a b ∧
      b.ldr n.store.term = some (n.id, b.log n.id) ∧ b.log = a.log ∧ b.voted = a.voted ∧
      b.term = a.term ∧ b.com = a.com := by
    have hinf := hV.informed
    rw [← hterm] at hcand hfree hvotes hinf ⊢
    exact ⟨_, .single (.elect V hcand hfree hV.quorum hvotes hinf), Function.update_self .., rfl, rfl,
      rfl, rfl⟩
  have hzero : a.com n.store.term = 0 := hia.com_zero hfree
  obtain ⟨-, he, -⟩ := hia.steps hsteps
  have hrel : Rel q b n.id n.store.view :=
    h.node.rel.congr he (by rw [hbterm]) (by rw [hlog]) (by rw [hvoted])
  have hfresh : ∀ p m, (if p ∈ n.peerIDs then some 0 else none) = some m → m = 0 := by
    intro p m hm
    split at hm
    · exact (Option.some.inj hm).symm
    · cases hm
  have hlead : Simulates q G peers a₀ b n.id
      { n with
        role := .leader
        matchIndex := fun p => if p ∈ n.peerIDs then some 0 else none } :=
    ⟨h.tracks.idle hsteps hrel, NodeRel.synced hrel h.tracks.clean.1.stored
      (h.node.commit.mono he (Nat.le_refl _)) h.node.applied (h.node.quiet (by rw [hr]; simp))
      (fun _ => ⟨hldr, ⟨_, he.cand hcand, by rw [hlog]⟩,
        fun p m _ hm => by rw [hfresh p m hm]; exact acked_zero hldr,
        fun m hm => by rw [hfresh _ m hm]; exact Nat.zero_le _⟩) (by simp)
      fun _ => by rw [hbcom, hzero]; exact Nat.zero_le _⟩
  obtain ⟨a', -, hnext⟩ := hlead.extend hi rfl
    (e := { term := n.store.term, index := n.store.lastIndex + 1 }) rfl rfl (hG _ _ rfl)
  have hok : (n.store.appendEntries [{ term := n.store.term, index := n.store.lastIndex + 1 }]).2 =
      true := by
    rw [(h.tracks.clean.1.appendNext rfl).2]
  have helected : Simulates q G peers a₀ a' n.id n.elected := by
    refine ⟨hnext.tracks, { hnext.node with leader := fun _ => ?_ }⟩
    have hl := hnext.node.leader rfl
    simp only [Node.elected, hok, if_true]
    exact hl
  refine ⟨a', ?_⟩
  rw [Node.becomeLeaderLocked_eq (by rw [hr]; simp)]
  exact helected.broadcast rfl _

/-! ## Acknowledgements -/

theorem Simulates.recordMatch (h : Simulates q G peers a₀ a i n) (hl : n.role = .leader)
    {peer matched : Nat} (hacked : Acked a n.store.term peer matched) :
    Simulates q G peers a₀ a i (n.recordMatch peer matched) := by
  have hleader := h.node.leader hl
  refine ⟨h.tracks, { h.node with leader := fun _ => ?_ }⟩
  show LeaderRel a i n.store.term (if matched > (n.matchIndex peer).getD 0 then
    Function.update n.matchIndex peer (some matched) else n.matchIndex)
  split
  · refine hleader.update ?_ fun _ => hacked
    obtain ⟨c, L, hcl, hm, -⟩ := hacked
    rw [hleader.own, Option.some.injEq, Prod.mk.injEq] at hcl
    rw [hcl.2]
    exact hm
  · exact hleader

/-- The ghost acknowledges or commits, and the node, with everything synced, moves its commit index
    at most. -/
theorem Simulates.recommit (hi : GhostInv a₀) (h : Simulates q G peers a₀ a i n)
    (hu : n.store.disk.files.unsynced = []) (hsteps : GhostSteps G i a a')
    (hterm : a'.term = a.term) (hlog : a'.log = a.log) (hvoted : a'.voted = a.voted)
    (hldr : a'.ldr = a.ldr) {index : Nat} (hcommit : Committed a' index n.store.view)
    (happlied : n.lastApplied ≤ index)
    (howned : n.role = .leader → a'.com n.store.term ≤ index) :
    Simulates q G peers a₀ a' i { n with commitIndex := index } := by
  obtain ⟨-, he, -⟩ := (h.tracks.inv hi).steps hsteps
  have hrel := h.node.rel.congr he (by rw [hterm]) (by rw [hlog]) (by rw [hvoted])
  refine ⟨h.tracks.idle hsteps hrel, NodeRel.synced hrel h.tracks.clean.1.stored
    hcommit happlied hu (fun hr => ?_) (fun hr => ?_) howned⟩
  · have hl := h.node.leader hr
    exact hl.mono he (by rw [hldr, hlog]; exact hl.own) (by rw [hlog])
  · obtain ⟨hcand, hno⟩ := h.node.candidate hr
    exact ⟨by rw [hlog]; exact he.cand hcand, by rw [hldr]; exact hno⟩

/-- The ghost acknowledges, and the node stays as it is. -/
theorem Simulates.idle (hi : GhostInv a₀) (h : Simulates q G peers a₀ a i n)
    (hu : n.store.disk.files.unsynced = []) (hsteps : GhostSteps G i a a')
    (hterm : a'.term = a.term) (hlog : a'.log = a.log) (hvoted : a'.voted = a.voted)
    (hldr : a'.ldr = a.ldr) (hcom : a'.com = a.com) : Simulates q G peers a₀ a' i n := by
  obtain ⟨-, he, -⟩ := (h.tracks.inv hi).steps hsteps
  refine h.recommit hi hu hsteps hterm hlog hvoted hldr (h.node.commit.mono he (Nat.le_refl _))
    h.node.applied fun hr => ?_
  rw [hcom]
  exact h.node.owned hr

/-- Acknowledged by a quorum, or committed before: settled either way. -/
theorem settle_commit {T k : Nat} {L : List Entry} {e : Entry} {V : Finset Nat}
    (hterm : a.term i = T) (own : a.ldr T = some (i, L)) (entry : L[k]? = some e)
    (current : e.term = T) (hV : G.quorum V) (hover : TermLog.Overtaken a T V)
    (hacked : ∀ v ∈ V, k < a.acc v T ∨ k < a.com T) :
    ∃ a', GhostSteps G i a a' ∧ Settled a' T (L.take (k + 1)) ∧ a'.term = a.term ∧
      a'.log = a.log ∧ a'.voted = a.voted ∧ a'.ldr = a.ldr ∧ a'.com T ≤ max (a.com T) (k + 1) := by
  subst hterm
  have hlen : (L.take (k + 1)).length ≤ k + 1 := List.length_take_le _ _
  rcases Nat.lt_or_ge k (a.com (a.term i)) with hlt | hge
  · exact ⟨a, .refl, .inr ⟨_, i, L, Nat.le_refl _, own, List.take_prefix _ _,
      Nat.le_trans hlen hlt⟩, rfl, rfl, rfl, rfl, Nat.le_max_left _ _⟩
  · have hall : ∀ v ∈ V, k < a.acc v (a.term i) := fun v hv =>
      (hacked v hv).resolve_right (Nat.not_lt_of_le hge)
    refine ⟨_, .single (.commit L k e V own entry current hV hall hover), .inr ⟨_, i, L, Nat.le_refl _,
      own, List.take_prefix _ _, ?_⟩, rfl, rfl, rfl, rfl, ?_⟩
    · simp only [Function.update_self]
      exact Nat.le_trans hlen (Nat.le_max_right _ _)
    · simp only [Function.update_self]
      exact Nat.le_refl _

/-- A leader acknowledges its own log once it is synced. -/
theorem Simulates.ackSelf (hi : GhostInv a₀) (h : Simulates q G peers a₀ a i n)
    (hl : n.role = .leader) (hu : n.store.disk.files.unsynced = []) :
    ∃ a', Simulates q G peers a₀ a' i n ∧ a'.log = a.log ∧ a'.ldr = a.ldr ∧ a'.bal = a.bal ∧
      (a.log i).length ≤ a'.acc i n.store.term := by
  have hterm : a.term i = n.store.term := h.node.rel.term
  have hleader := h.node.leader hl
  obtain ⟨a', hsteps, hacc, hterm', hlog, hvoted, hldr, hcom, hbal⟩ : ∃ a', GhostSteps G i a a' ∧
      (a.log i).length ≤ a'.acc i (a.term i) ∧ a'.term = a.term ∧ a'.log = a.log ∧
      a'.voted = a.voted ∧ a'.ldr = a.ldr ∧ a'.com = a.com ∧ a'.bal = a.bal := by
    refine ⟨_, .single (.ack i (a.log i) (a.log i).length (by rw [hterm]; exact hleader.own)
      (Nat.le_refl _) (by rw [List.take_length])), ?_, rfl, rfl, rfl, rfl, rfl, rfl⟩
    simp [TermLog.cell]
  rw [hterm] at hacc
  exact ⟨a', h.idle hi hu hsteps hterm' hlog hvoted hldr hcom, hlog, hldr, hbal, hacc⟩

/-- An entry of its own term that a quorum has, and with it everything before. -/
theorem Simulates.commit (hi : GhostInv a₀) (h : Simulates q G peers a₀ a i n)
    (hl : n.role = .leader) (hu : n.store.disk.files.unsynced = []) {index : Nat}
    (hgt : n.commitIndex < index) (hterm : n.store.termAt index = some n.store.term)
    {V : Finset Nat} (hV : G.quorum V) (hover : TermLog.Overtaken a n.store.term V)
    (hmatch : ∀ v ∈ V, ∃ m, n.matchIndex v = some m ∧ index ≤ m) :
    ∃ a', Simulates q G peers a₀ a' i { n with commitIndex := index } := by
  obtain ⟨b, hb, hlogb, hldrb, hbalb, haccb⟩ := h.ackSelf hi hl hu
  have hoverb : TermLog.Overtaken b n.store.term V := by
    intro U c L hU hldr
    rw [hldrb] at hldr
    rw [hbalb]
    exact hover U c L hU hldr
  have hleader := hb.node.leader hl
  have hsnap : n.store.snapIndex ≤ n.commitIndex := h.node.commit.1
  obtain ⟨k, rfl⟩ : ∃ k, index = k + 1 := ⟨index - 1, by omega⟩
  -- the entry in the abstract log
  obtain ⟨e, he, hcur⟩ : ∃ e, (b.log i)[k]? = some e ∧ e.term = n.store.term := by
    rw [hb.node.rel.termAt_eq hb.tracks.clean.1.stored (by omega)] at hterm
    exact Option.map_eq_some_iff.mp hterm
  have hacked : ∀ v ∈ V, k < b.acc v n.store.term ∨ k < b.com n.store.term := by
    intro v hv
    obtain ⟨m, hm, hle⟩ := hmatch v hv
    by_cases hvi : v = i
    · subst hvi
      have hself := (h.node.leader hl).self m hm
      exact .inl (by omega)
    · obtain ⟨c, L, hcl, -, hall⟩ := hleader.peers v m hvi hm
      rw [hleader.own, Option.some.injEq, Prod.mk.injEq] at hcl
      exact hall k e (by omega) (hcl.2 ▸ he) hcur
  obtain ⟨a', hsteps, hsettled, hterm', hlog, hvoted, hldr, hcom⟩ :=
    settle_commit hb.node.rel.term hleader.own he hcur hV hoverb hacked
  have hlen : k < (b.log i).length := (List.getElem?_eq_some_iff.mp he).1
  refine ⟨a', hb.recommit hi hu hsteps hterm' hlog hvoted hldr
    ⟨Nat.le_trans hsnap (Nat.le_of_lt hgt), _, hsettled, ?_, ?_⟩
    (Nat.le_trans hb.node.applied (Nat.le_of_lt hgt)) fun _ => ?_⟩
  · rw [List.length_take]
    exact Nat.min_eq_left hlen
  · rw [← hb.node.rel.log]
    exact (List.take_prefix _ _).drop _
  · have howned := Nat.le_trans (hb.node.owned hl) (Nat.le_of_lt hgt)
    exact Nat.le_trans hcom (Nat.max_le.mpr ⟨howned, Nat.le_refl _⟩)

theorem Simulates.advanceCommit (hi : GhostInv a₀) (h : Simulates q G peers a₀ a i n)
    (hl : n.role = .leader)
    (hcounts : ∀ V, n.Counting V → G.quorum V ∧ TermLog.Overtaken a n.store.term V) :
    ∃ a', Simulates q G peers a₀ a' i n.advanceCommitLocked := by
  simp only [Node.advanceCommitLocked, h.tracks.clean.1.sync_ok]
  split
  · exact ⟨a, h⟩
  next hgt =>
  obtain ⟨hsync, hu⟩ := h.sync
  simp only [Bool.not_true, Bool.false_eq_true, if_false]
  split
  · exact ⟨a, hsync⟩
  next t ht =>
  split
  · exact ⟨a, hsync⟩
  next hcur =>
  obtain ⟨V, hV, hmatch⟩ := ConfState.maxCommitIndex_counts
    (Nat.lt_of_le_of_lt (Nat.zero_le _) (Nat.lt_of_not_le hgt))
  rw [Decidable.not_not.mp hcur] at ht
  have hrole : n.role ≠ .follower := by
    rw [hl]
    decide
  obtain ⟨hquorum, hover⟩ := hcounts V ⟨hrole, hV⟩
  have hterm : n.store.sync.1.term = n.store.term := congrArg View.term h.tracks.clean.1.sync_view
  rw [← hterm] at hover
  exact hsync.commit hi hl hu (Nat.lt_of_not_le hgt) ht hquorum hover hmatch

/-! ## Replies -/

theorem Simulates.onVoteReply (hi : GhostInv a₀) (h : Simulates q G peers a₀ a₀ i n)
    (hid : n.id = i) (hG : Permits G) {newTerm : Nat} {resp : RequestVoteResponse}
    (hquorum : n.role = .candidate → n.store.term = newTerm → resp.voteGranted = true →
      n.conf.hasVoteQuorum (n.votes newTerm + 1) = true →
      ∃ V, Winning G a₀ newTerm V ∧ ∀ v ∈ V, a₀.voted v newTerm = some i) :
    ∃ a, Simulates q G peers a₀ a i (n.onVoteReply newTerm resp).1 := by
  simp only [Node.onVoteReply]
  split
  · next later =>
    obtain ⟨a, -, hnext⟩ := h.stepDown hi later
    exact ⟨a, hnext⟩
  split
  · exact ⟨a₀, h⟩
  next hc =>
  simp only [not_or, Decidable.not_not, Bool.not_eq_false] at hc
  obtain ⟨hr, hcur, hgranted⟩ := hc
  have hcount : Simulates q G peers a₀ a₀ i
      { n with votes := Function.update n.votes newTerm (n.votes newTerm + 1) } :=
    ⟨h.tracks, { h.node with }⟩
  split
  · next hq =>
    rw [Function.update_self] at hq
    obtain ⟨V, hV, hvotes⟩ := hquorum hr hcur hgranted hq
    rw [← hcur] at hV hvotes
    exact hcount.becomeLeader hi hid hG hr hV hvotes
  · exact ⟨a₀, hcount⟩

theorem Simulates.onAppendReply (hi : GhostInv a₀) (h : Simulates q G peers a₀ a₀ i n)
    (hcounts : n.role = .leader → ∀ V, n.Counting V →
      G.quorum V ∧ TermLog.Overtaken a₀ n.store.term V) {peer : Nat} {req : AppendEntriesRequest}
    {resp : AppendEntriesResponse}
    (hreply : GhostReply a₀ peer (.appendEntries req) (.appendEntries resp)) :
    ∃ a, Simulates q G peers a₀ a i (n.onAppendReply peer req resp) := by
  simp only [Node.onAppendReply]
  split
  · next later =>
    obtain ⟨a, -, hnext⟩ := h.stepDown hi later
    exact ⟨a, hnext⟩
  split
  · exact ⟨a₀, h⟩
  next hc =>
  simp only [not_or, Decidable.not_not] at hc
  obtain ⟨hl, hcur⟩ := hc
  have hsame : ∀ next, Simulates q G peers a₀ a₀ i { n with nextIndex := next } :=
    fun next => ⟨h.tracks, { h.node with }⟩
  split
  · next hs =>
    have hacked := hreply hs
    rw [← hcur] at hacked
    exact (h.recordMatch hl hacked).advanceCommit hi hl (hcounts hl)
  split
  · exact ⟨a₀, hsame _⟩
  split
  · exact ⟨a₀, hsame _⟩
  split
  · exact ⟨a₀, hsame _⟩
  · exact ⟨a₀, h⟩

theorem Simulates.onSnapshotReply (hi : GhostInv a₀) (h : Simulates q G peers a₀ a₀ i n)
    {peer : Nat} {req : InstallSnapshotRequest} {resp : InstallSnapshotResponse}
    (hreq : GhostRequest a₀ i peer (.installSnapshot req)) :
    ∃ a, Simulates q G peers a₀ a i (n.onSnapshotReply peer req resp) := by
  simp only [Node.onSnapshotReply]
  split
  · next later =>
    obtain ⟨a, -, hnext⟩ := h.stepDown hi later
    exact ⟨a, hnext⟩
  split
  · exact ⟨a₀, h⟩
  next hc =>
  simp only [not_or, Decidable.not_not] at hc
  obtain ⟨hl, hcur⟩ := hc
  obtain ⟨-, L, hldr, P, hP, hlen, -⟩ := hreq
  rw [← hcur] at hldr hP
  -- whatever the follower has now, the snapshot was settled when it was sent
  exact ⟨a₀, h.recordMatch hl (acked_of_settled hi hldr hP (Nat.le_of_eq hlen.symm))⟩

theorem Simulates.onReadIndexReply (hi : GhostInv a₀) (h : Simulates q G peers a₀ a₀ i n)
    (req : ReadIndexRequest) (resp : ReadIndexResponse) :
    ∃ a, Simulates q G peers a₀ a i (n.onReadIndexReply req resp).1 := by
  simp only [Node.onReadIndexReply]
  split
  · next later =>
    obtain ⟨a, -, hnext⟩ := h.stepDown hi later
    exact ⟨a, hnext⟩
  split
  · exact ⟨a₀, h⟩
  · exact ⟨a₀, h⟩

theorem Simulates.handleReadIndex (hi : GhostInv a₀) (h : Simulates q G peers a₀ a₀ i n)
    (req : ReadIndexRequest) : ∃ a, Simulates q G peers a₀ a i (n.handleReadIndex req).1 := by
  obtain ⟨a, -, hmet⟩ := h.meetTerm hi req.term
  simp only [Node.handleReadIndex]
  split
  · exact ⟨a₀, h⟩
  split
  · exact ⟨a, hmet⟩
  · exact ⟨a, hmet.tracks, { hmet.node with }⟩

end Sections

end Raft
end DistKV
