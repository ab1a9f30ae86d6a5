import DistKV.Raft.Accept
import DistKV.Raft.FixedVoters

/-!
# Every section is followed by the ghost

The applier first: it may change the configuration, the progress tables and the role of a node, and
none of that touches the log. Then the rules are put together: a section that begins with a node
related to the ghost ends with one (`Simulates.exec`), what it sends says something true about the
ghost (`NodeRel.sent`), and a node that crashes, in the section or between two, comes back related
to the ghost after steps of its own (`CrashSafe.recover`).
-/

namespace DistKV
namespace Raft

open TermLog (Settled lastTerm)

variable {q : Prop} {G : GhostGuard} {peers : List Nat} {a₀ a a' : Ghost} {i : Nat}
  {n : Node} {s : DiskStorage}

/-! ## The applier -/

/-- The leader forgets how far peers are, or begins to count them from nothing. -/
theorem LeaderRel.retrack {term : Nat} {matchIndex matchIndex' : Nat → Option Nat}
    (h : LeaderRel a i term matchIndex)
    (hnew : ∀ p m, matchIndex' p = some m → m = 0 ∨ matchIndex p = some m) :
    LeaderRel a i term matchIndex' := by
  refine ⟨h.own, h.base, fun p m hp hm => ?_, fun m hm => ?_⟩
  · rcases hnew p m hm with rfl | hold
    · exact acked_zero h.own
    · exact h.peers p m hp hold
  · rcases hnew i m hm with rfl | hold
    · exact Nat.zero_le _
    · exact h.self m hold

theorem Node.trackMember_matchIndex (cc : ConfChange) {p m : Nat}
    (h : (n.trackMember cc).matchIndex p = some m) : m = 0 ∨ n.matchIndex p = some m := by
  unfold Node.trackMember at h
  split at h
  · exact .inr h
  split at h
  · split at h
    · exact .inr h
    · simp only [Function.update_apply] at h
      split at h
      · exact .inl (Option.some.inj h).symm
      · exact .inr h
  · simp only [Function.update_apply] at h
    split at h
    · cases h
    · exact .inr h
  · simp only at h
    split at h
    · exact .inl (Option.some.inj h).symm
    · exact .inr h
  · exact .inr h

/-- A configuration change takes effect. -/
theorem Simulates.applyEntry (h : Simulates q G peers a₀ a i n) (hcn : CleanNode peers n)
    (e : Entry) : Simulates q G peers a₀ a i (n.applyEntry e).1 := by
  have hclean := (hcn.applyEntry e).store
  unfold Node.applyEntry at hclean ⊢
  split
  swap
  · exact h
  next cc hct hcc =>
  simp only [hct, hcc] at hclean
  unfold Node.applyConfChangeLocked at hclean ⊢
  split
  · exact h
  next next hok =>
  simp only [hok] at hclean
  have hstore : ((n.adoptConf cc next).trackMember cc).store = n.store :=
    Node.trackMember_store (n := n.adoptConf cc next) cc
  obtain ⟨-, hcommit, happlied, -⟩ := Node.trackMember_frame (n := n.adoptConf cc next) cc
  have hrole : ((n.adoptConf cc next).trackMember cc).role = .follower ∨
      ((n.adoptConf cc next).trackMember cc).role = n.role := by
    rw [(Node.trackMember_role (n := n.adoptConf cc next) cc).1]
    exact Node.adoptConf_role cc next
  have hmatch : ∀ p m, ((n.adoptConf cc next).trackMember cc).matchIndex p = some m →
      m = 0 ∨ n.matchIndex p = some m :=
    fun p m hm => Node.trackMember_matchIndex (n := n.adoptConf cc next) cc hm
  generalize (n.adoptConf cc next).trackMember cc = m at *
  rw [hstore] at hclean
  show Simulates q G peers a₀ a i { m with store := (m.store.setConfState m.conf).1 }
  rw [hstore]
  have htracks := h.tracks.setConfState hclean
  have hview := h.tracks.clean.1.setConfState_view m.conf
  have hterm : (n.store.setConfState m.conf).1.term = n.store.term := congrArg View.term hview
  have hu : (n.store.setConfState m.conf).1.disk.files.unsynced = [] := by
    rw [DiskStorage.setConfState_calm h.tracks.clean.1.calm]
    rfl
  refine ⟨htracks, NodeRel.synced htracks.rel hclean.1.stored ?_ ?_ hu (fun hr => ?_)
    (fun hr => ?_) fun hr => ?_⟩
  · show Committed a m.commitIndex (n.store.setConfState m.conf).1.view
    rw [hview, hcommit]
    exact h.node.commit
  · show m.lastApplied ≤ m.commitIndex
    rw [happlied, hcommit]
    exact h.node.applied
  · rcases hrole with hf | hsame
    · rw [hf] at hr
      cases hr
    · rw [hterm]
      exact (h.node.leader (hsame.symm.trans hr)).retrack hmatch
  · rcases hrole with hf | hsame
    · rw [hf] at hr
      cases hr
    · rw [hterm]
      exact h.node.candidate (hsame.symm.trans hr)
  · rcases hrole with hf | hsame
    · rw [hf] at hr
      cases hr
    · show a.com (n.store.setConfState m.conf).1.term ≤ m.commitIndex
      rw [hterm, hcommit]
      exact h.node.owned (hsame.symm.trans hr)

theorem Simulates.applied (h : Simulates q G peers a₀ a i n) (index : Nat)
    (hle : index ≤ n.commitIndex) : Simulates q G peers a₀ a i { n with lastApplied := index } :=
  ⟨h.tracks, { h.node with applied := hle }⟩

theorem Simulates.collectLoop {fuel : Nat} {m : Node} {msgs : List ApplyMsg}
    (h : Simulates q G peers a₀ a i n) (hcn : CleanNode peers n)
    (hl : Node.collectLoop fuel n = some (m, msgs)) : Simulates q G peers a₀ a i m := by
  induction fuel generalizing n m msgs with
  | zero =>
    obtain ⟨rfl, -⟩ := Prod.mk.inj (Option.some.inj hl)
    exact h
  | succ fuel ih =>
    rw [Node.collectLoop] at hl
    split at hl
    swap
    · obtain ⟨rfl, -⟩ := Prod.mk.inj (Option.some.inj hl)
      exact h
    next hlt =>
    simp only at hl
    split at hl
    · exact ih (h.applied _ h.node.commit.1) ⟨hcn.store, hcn.conf⟩ hl
    split at hl
    · cases hl
    next e he =>
    obtain ⟨⟨m', msgs'⟩, hrest, hq⟩ := Option.map_eq_some_iff.mp hl
    obtain ⟨rfl, -⟩ := Prod.mk.inj hq
    have hcn' := hcn.applyEntry e
    have hcommit := (Node.applyEntry_frame (n := n) e).2.1
    have hnext := (h.applyEntry hcn e).applied (n.lastApplied + 1) (by rw [hcommit]; exact hlt)
    exact ih hnext ⟨hcn'.store, hcn'.conf⟩ hrest

/-! ## Sections -/

/-- The section begins: nothing has been written yet, and a crash would leave what it would have
    left before. -/
theorem NodeRel.begin (hi : GhostInv a) (h : NodeRel q a i n) (hcn : CleanNode peers n) :
    Simulates q G peers a a i (n.withFaults []) := by
  have hclean := hcn.withFaults.store
  have hfiles : CrashSafe q G a i n.store.disk.files := by
    intro p hs hp
    rw [hcn.store.1.view_cut hs hp]
    by_cases hl : n.role = .leader
    · obtain ⟨j, hj, hun⟩ := h.pending p hs hp
      obtain ⟨b, hsteps, hrel, -⟩ := h.rel.lose hi (h.leader hl).own hun
      rw [hj]
      exact ⟨b, hsteps, hrel⟩
    · -- nothing is unsynced
      rw [Files.eq_records (h.quiet hl) hs hp, ← hcn.store.1.stored.log]
      exact ⟨a, .refl, h.rel⟩
  refine ⟨⟨hclean, .refl, h.rel, hfiles, ?_⟩, { h with }⟩
  intro f hf
  exact absurd hf List.not_mem_nil

/-- The entry a leader appends for a change. -/
abbrev Node.changeEntry (n : Node) (cc : ConfChange) : Entry :=
  { term := n.store.term, index := n.store.lastIndex + 1, type := .confChange, confChange := some cc }

theorem Simulates.proposeConfChange (hi : GhostInv a₀) (h : Simulates q G peers a₀ a₀ i n)
    (hid : n.id = i) {cc : ConfChange}
    (hG : n.AcceptsConfChange cc → G.entry (a₀.log i) (n.changeEntry cc)) :
    ∃ a, Simulates q G peers a₀ a i (n.proposeConfChange cc).1 := by
  unfold Node.proposeConfChange
  split
  · exact ⟨a₀, h⟩
  next hl =>
  split
  · exact ⟨a₀, h⟩
  next hjoint =>
  split
  · exact ⟨a₀, h⟩
  next next hok =>
  have hacc : n.AcceptsConfChange cc := by
    refine ⟨Decidable.not_not.mp hl, fun hne => ?_, by rw [hok]; rfl⟩
    exact Bool.eq_false_iff.mpr fun htrue => hjoint ⟨hne, htrue⟩
  obtain ⟨a, -, hnext⟩ := h.appendEntry hi hid hacc.1 (e := n.changeEntry cc) rfl rfl (hG hacc)
  exact ⟨a, hnext⟩

theorem Simulates.tick (hi : GhostInv a₀) (h : Simulates q G peers a₀ a₀ i n) (hid : n.id = i)
    (hne : i ≠ 0) (timedOut : Bool) (due : Nat → Bool) :
    ∃ a, Simulates q G peers a₀ a i (n.tick timedOut due).1 := by
  have hother : ∃ a, Simulates q G peers a₀ a i
      (if timedOut then n.startElectionLocked else (n, [])).1 := by
    split
    · obtain ⟨a, -, hnext⟩ := h.startElection hi hid hne
      exact ⟨a, hnext⟩
    · exact ⟨a₀, h⟩
  unfold Node.tick
  cases hr : n.role with
  | leader => exact ⟨a₀, h.broadcast hr due⟩
  | follower => exact hother
  | candidate => exact hother

/-- What is known of the message a section deals with. -/
def OpRel (q : Prop) (G : GhostGuard) (peers : List Nat) (a : Ghost) (i : Nat) (n : Node) :
    NodeOp → Prop
  | .handle req => CleanRequest peers req ∧ (∃ source, GhostRequest a source i req) ∧
      ∀ r, req = .installSnapshot r → q → n.store.term ≤ r.term →
        n.store.snapIndex < r.lastIncludedIndex →
        n.store.Fits r.lastIncludedIndex r.lastIncludedTerm
  | .reply peer req resp => GhostRequest a i peer req ∧ GhostReply a peer req resp ∧
      ∀ vr resp', req = .requestVote vr → resp = .requestVote resp' → n.role = .candidate →
        n.store.term = vr.term → resp'.voteGranted = true →
        n.conf.hasVoteQuorum (n.votes vr.term + 1) = true →
        ∃ V, Winning G a vr.term V ∧ ∀ v ∈ V, a.voted v vr.term = some i
  | .proposeConfChange cc => n.AcceptsConfChange cc → G.entry (a.log i) (n.changeEntry cc)
  | _ => True

/-- What the sets the node counts have to satisfy. -/
def Commits (G : GhostGuard) (a : Ghost) (n : Node) : Prop :=
  n.role = .leader → ∀ V, n.Counting V → G.quorum V ∧ TermLog.Overtaken a n.store.term V

theorem Simulates.handle (hi : GhostInv a₀) (h : Simulates q G peers a₀ a₀ i n) {req : Request}
    (hop : OpRel q G peers a₀ i n (.handle req)) :
    ∃ a, Simulates q G peers a₀ a i (n.handle req).1 ∧
      ∀ r, (n.handle req).2.resp = some r → GhostReply a i req r := by
  obtain ⟨hclean, ⟨source, hreq⟩, hfit⟩ := hop
  cases req with
  | requestVote req =>
    obtain ⟨a, hnext⟩ := h.handleRequestVote hi hreq
    exact ⟨a, hnext, fun _ _ => trivial⟩
  | appendEntries req =>
    obtain ⟨a, hnext, hreply⟩ := h.handleAppendEntries hi hreq hclean
    refine ⟨a, hnext, fun r hr => ?_⟩
    obtain rfl := Option.some.inj hr
    exact hreply
  | installSnapshot req =>
    obtain ⟨a, hnext⟩ := h.handleInstallSnapshot hi hreq hclean (hfit req rfl)
    exact ⟨a, hnext, fun _ _ => trivial⟩
  | readIndex req =>
    obtain ⟨a, hnext⟩ := h.handleReadIndex hi req
    exact ⟨a, hnext, fun _ _ => trivial⟩

theorem Simulates.onReply (hi : GhostInv a₀) (h : Simulates q G peers a₀ a₀ i n)
    (hid : n.id = i) (hG : Permits G) (hcounts : Commits G a₀ n) {peer : Nat} {req : Request}
    {resp : Response} (hop : OpRel q G peers a₀ i n (.reply peer req resp)) {m : Node}
    {eff : Effect} (hr : n.onReply peer req resp = some (m, eff)) :
    ∃ a, Simulates q G peers a₀ a i m := by
  obtain ⟨hreq, hreply, hvote⟩ := hop
  unfold Node.onReply at hr
  split at hr
  · obtain ⟨rfl, -⟩ := Prod.mk.inj (Option.some.inj hr)
    exact h.onVoteReply hi hid hG (hvote _ _ rfl rfl)
  · obtain ⟨rfl, -⟩ := Prod.mk.inj (Option.some.inj hr)
    exact h.onAppendReply hi hcounts hreply
  · obtain ⟨rfl, -⟩ := Prod.mk.inj (Option.some.inj hr)
    exact h.onSnapshotReply hi hreq
  · obtain ⟨rfl, -⟩ := Prod.mk.inj (Option.some.inj hr)
    exact h.onReadIndexReply hi _ _
  · cases hr

/-- **A section is followed by the ghost**, and so is its reply. -/
theorem Simulates.exec (hi : GhostInv a₀) (h : Simulates q G peers a₀ a₀ i n)
    (hcn : CleanNode peers n) (hid : n.id = i) (hne : i ≠ 0) (hG : Permits G)
    (hcounts : Commits G a₀ n) {op : NodeOp} (hop : OpRel q G peers a₀ i n op)
    {m : Node} {eff : Effect} (hex : n.exec op = some (m, eff)) :
    ∃ a, Simulates q G peers a₀ a i m ∧
      ∀ req r, op = .handle req → eff.resp = some r → GhostReply a i req r := by
  have hlock := Node.exec_unlocked hex
  simp only [Node.exec, hlock, Bool.false_eq_true, if_false] at hex
  have hquiet : (∃ a, Simulates q G peers a₀ a i m) → (∀ req, op ≠ .handle req) →
      ∃ a, Simulates q G peers a₀ a i m ∧
        ∀ req r, op = .handle req → eff.resp = some r → GhostReply a i req r := by
    rintro ⟨a, hnext⟩ hno
    exact ⟨a, hnext, fun req r heq => absurd heq (hno req)⟩
  cases op with
  | tick timedOut due =>
    obtain ⟨rfl, -⟩ := Prod.mk.inj (Option.some.inj hex)
    exact hquiet (h.tick hi hid hne timedOut due) (by simp)
  | propose command =>
    obtain ⟨rfl, -⟩ := Prod.mk.inj (Option.some.inj hex)
    exact hquiet (h.propose hi hid hG command) (by simp)
  | proposeConfChange cc =>
    obtain ⟨rfl, -⟩ := Prod.mk.inj (Option.some.inj hex)
    exact hquiet (h.proposeConfChange hi hid hop) (by simp)
  | snapshot index data =>
    obtain ⟨rfl, -⟩ := Prod.mk.inj (Option.some.inj hex)
    exact hquiet ⟨a₀, h.snapshot hi hcn.proper index data⟩ (by simp)
  | collect =>
    obtain ⟨⟨m', msgs⟩, hcol, heq⟩ := Option.map_eq_some_iff.mp hex
    obtain ⟨rfl, -⟩ := Prod.mk.inj heq
    exact hquiet ⟨a₀, h.collectLoop hcn hcol⟩ (by simp)
  | handle req =>
    obtain ⟨rfl, rfl⟩ := Prod.mk.inj (Option.some.inj hex)
    obtain ⟨a, hnext, hreply⟩ := h.handle hi hop
    refine ⟨a, hnext, fun req' r heq hr => ?_⟩
    obtain rfl := NodeOp.handle.inj heq
    exact hreply r hr
  | reply peer req resp => exact hquiet (h.onReply hi hid hG hcounts hop hex) (by simp)
  | finish peer =>
    obtain ⟨rfl, -⟩ := Prod.mk.inj (Option.some.inj hex)
    exact hquiet ⟨a₀, h.tracks, { h.node with }⟩ (by simp)

/-! ## What is sent -/

/-- What stands before the entries of an AppendEntries request. -/
theorem LeaderRel.prev_eq {term : Nat} {matchIndex : Nat → Option Nat} (hi : GhostInv a)
    (h : LeaderRel a i s.term matchIndex) (hrel : Rel q a i s.view) (hs : Stored s)
    {next : Nat} (above : s.firstIndex ≤ next) (prev : s.termAt (next - 1) = some term) :
    next - 1 ≤ (a.log i).length ∧ lastTerm Entry.term ((a.log i).take (next - 1)) = term := by
  have hfirst : s.snapIndex + 1 ≤ next := above
  have hlen : (a.log i).length = s.snapIndex + s.log.length := hrel.length
  rcases Nat.lt_or_eq_of_le (Nat.le_sub_one_of_lt hfirst) with hlt | heq
  · obtain ⟨k, hk⟩ : ∃ k, next - 1 = k + 1 := ⟨next - 2, by omega⟩
    rw [hk] at prev ⊢
    rw [hrel.termAt_eq hs (by omega), Option.map_eq_some_iff] at prev
    obtain ⟨e, he, rfl⟩ := prev
    exact ⟨(List.getElem?_eq_some_iff.mp he).1, TermLog.lastTerm_take he⟩
  · -- the snapshot itself, and the leader's log begins with what it stands for
    rw [← heq] at prev ⊢
    rw [termAt_snapIndex, Option.some.injEq] at prev
    obtain ⟨P, hP, hPlen, hlast, -⟩ := hrel.snap
    have hpre := settled_whole hi h.own hP
    refine ⟨by omega, ?_⟩
    have htake : (a.log i).take s.snapIndex = P := by
      have hsnap : s.snapIndex = P.length := hPlen.symm
      rw [hsnap, ← TermLog.take_eq_of_isPrefix hpre (Nat.le_refl _), List.take_length]
    rw [htake, hlast]
    exact prev

theorem Rel.entriesFrom_eq (h : Rel q a i s.view) {next : Nat}
    (above : s.firstIndex ≤ next) : s.entriesFrom next <+: (a.log i).drop (next - 1) := by
  have hfirst : s.snapIndex + 1 ≤ next := above
  unfold DiskStorage.entriesFrom
  split
  · exact List.nil_prefix
  · have hlog : (a.log i).drop s.snapIndex = s.log := h.log
    rw [← hlog, List.drop_drop]
    have hsum : s.snapIndex + (next - s.firstIndex) = next - 1 := by
      rw [DiskStorage.firstIndex]
      omega
    rw [hsum]

/-- A request is true of the ghost when it is sent. -/
theorem NodeRel.sent (hi : GhostInv a) (h : NodeRel q a i n) (hs : Stored n.store)
    (hid : n.id = i) (hne : i ≠ 0) {sd : Send} (hsent : Sent n sd) (hpeer : sd.peer ≠ i) :
    GhostRequest a i sd.peer sd.req := by
  obtain ⟨-, P, hP, hPlen, -⟩ := h.commit
  cases hsent with
  | vote role request =>
    rw [request]
    obtain ⟨hlen, hlast⟩ := h.rel.last_eq hs
    exact ⟨hid, hne, a.log i, (h.candidate role).cand, hlen, hlast⟩
  | append role next prevTerm above prev request =>
    rw [request]
    have hl := h.leader role
    obtain ⟨hle, hlast⟩ := hl.prev_eq hi h.rel hs above prev
    exact ⟨hpeer, a.log i, hl.own, hle, hlast, h.rel.entriesFrom_eq above, P, hP, hPlen⟩
  | snapshot role request =>
    rw [request]
    obtain ⟨S, hS, hSlen, hSlast, -⟩ := h.rel.snap
    exact ⟨hpeer, a.log i, (h.leader role).own, S, hS, hSlen, hSlast⟩

/-! ## Crashes -/

/-- A node that has just started on its files. -/
theorem Rel.newNode (h : Rel q a i s.view) (hs : Stored s) (hu : s.disk.files.unsynced = [])
    (addrs : Nat → Option Bytes) : NodeRel q a i (Node.newNode i addrs s) := by
  obtain ⟨P, hP, hlen, -, -⟩ := h.snap
  refine NodeRel.synced h hs ⟨Nat.le_refl _, P, hP, hlen, ?_⟩ (Nat.le_refl _) hu
    (fun h => by cases h) (fun h => by cases h) fun h => by cases h
  have hnil : P.drop s.snapIndex = [] := List.drop_eq_nil_iff.mpr (Nat.le_of_eq hlen)
  show P.drop s.snapIndex <+: s.log
  rw [hnil]
  exact List.nil_prefix

/-- **A crash** is a few steps of the ghost. -/
theorem CrashSafe.recover {f : Files} (h : CrashSafe q G a i f) (hf : CleanFiles f) {keep : Nat}
    (ho : DiskStorage.openDiskStorage (f.crash keep) peers = some s) (addrs : Nat → Option Bytes) :
    ∃ a', GhostSteps G i a a' ∧ NodeRel q a' i (Node.newNode i addrs s) := by
  have hcrash : f.AfterCrash fun v => ∃ b, GhostSteps G i a b ∧ Rel q b i v := h
  obtain ⟨a', hsteps, hrel⟩ := hcrash.recover ho
  refine ⟨a', hsteps, hrel.newNode (hf.recover ho).stored ?_ addrs⟩
  rw [(recovered_of_open ho).disk]
  rfl

end Raft
end DistKV
