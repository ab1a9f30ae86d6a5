import DistKV.Raft.Backtrack
import DistKV.Raft.JointQuorum
import DistKV.Raft.Origin

/-!
# The leader's table of its peers

`nextIndex` is filled on election, and from then on the applier, the replies and `AllPeerIDs` change
independently of each other. Three things hold of it.

* What stands in the table lies in the log or right behind it, in every run (`tableRule`). A reply
  writes an index its request has reached, and the log of a leader does not become shorter.
* An entry is missing for a peer that is being removed, and for no other: REMOVE_NODE deletes it while
  the old configuration, with which the leader replicates until LEAVE_JOINT, still has the peer.
* So the table covers the peers in all of a run exactly if the applier of a leader never stops between
  the two (`leader_targets_iff`). Where it does, the missing entry is read as zero and the leader sends
  its snapshot, or an empty one if it has none (`removed_peer_untracked`).

What a section does to the tables of a leader is said once, in `exec_led`; `MatchIndex.lean` reads the
other table off it.
-/

namespace DistKV
namespace Raft

open Run (IsRun)

/-- Every entry of the table lies in the log or right behind it. -/
def InLog (n : Node) : Prop :=
  ∀ p ni, n.nextIndex p = some ni → 1 ≤ ni ∧ ni ≤ n.store.lastIndex + 1

/-- There is an entry for every peer the node sends to. -/
def HasTargets (n : Node) : Prop := ∀ p ∈ n.peerIDs, p ≠ n.id → n.nextIndex p ≠ none

/-- The table covers the peers, and a peer is sent the snapshot because of its entry. -/
structure CoversTargets (n : Node) : Prop where
  entry : ∀ p ∈ n.peerIDs, p ≠ n.id →
    ∃ ni, n.nextIndex p = some ni ∧ 1 ≤ ni ∧ ni ≤ n.store.lastIndex + 1
  snapshot : ∀ p ∈ n.peerIDs, p ≠ n.id → ∀ due s req, s ∈ (n.sendAppendLocked p due).2 →
    s.req = .installSnapshot req → ∃ ni, n.nextIndex p = some ni ∧ 1 ≤ ni ∧ ni < n.store.firstIndex

section Table

variable {n m : Node}

theorem sendAppendLocked_snapshot {p : Nat} {due : Bool} {s : Send} {req : InstallSnapshotRequest}
    (hs : s ∈ (n.sendAppendLocked p due).2) (hreq : s.req = .installSnapshot req) :
    (n.nextIndex p).getD 0 < n.store.firstIndex := by
  simp only [Node.sendAppendLocked] at hs
  split at hs
  · cases hs
  split at hs
  · next hlt => exact hlt
  split at hs
  · cases hs
  split at hs
  · cases hs
  · rw [List.mem_singleton.mp hs] at hreq
    cases hreq

theorem coversTargets_iff (h : InLog n) : CoversTargets n ↔ HasTargets n := by
  constructor
  · intro hcovers p hp hne hnone
    obtain ⟨ni, hni, -⟩ := hcovers.entry p hp hne
    rw [hnone] at hni
    cases hni
  · intro htargets
    have hentry : ∀ p ∈ n.peerIDs, p ≠ n.id →
        ∃ ni, n.nextIndex p = some ni ∧ 1 ≤ ni ∧ ni ≤ n.store.lastIndex + 1 := by
      intro p hp hne
      obtain ⟨ni, hni⟩ := Option.ne_none_iff_exists'.mp (htargets p hp hne)
      exact ⟨ni, hni, h p ni hni⟩
    refine ⟨hentry, fun p hp hne due s req hs hreq => ?_⟩
    obtain ⟨ni, hni, hone, -⟩ := hentry p hp hne
    have hlt := sendAppendLocked_snapshot hs hreq
    rw [hni] at hlt
    exact ⟨ni, hni, hone, hlt⟩

/-- A longer log makes room for the table. -/
theorem InLog.grow (h : InLog n) (hnext : m.nextIndex = n.nextIndex)
    (hlast : n.store.lastIndex ≤ m.store.lastIndex) : InLog m := by
  intro p ni hni
  rw [hnext] at hni
  obtain ⟨hone, hle⟩ := h p ni hni
  exact ⟨hone, Nat.le_trans hle (Nat.succ_le_succ hlast)⟩

/-- One entry is written. -/
theorem InLog.update (h : InLog n) {peer ni : Nat}
    (hnext : m.nextIndex = Function.update n.nextIndex peer (some ni)) (hone : 1 ≤ ni)
    (hle : ni ≤ n.store.lastIndex + 1) (hlast : n.store.lastIndex ≤ m.store.lastIndex) :
    InLog m := by
  intro p k hk
  rw [hnext, Function.update_apply] at hk
  split at hk
  · obtain rfl := Option.some.inj hk
    exact ⟨hone, Nat.le_trans hle (Nat.succ_le_succ hlast)⟩
  · obtain ⟨hk1, hk2⟩ := h p k hk
    exact ⟨hk1, Nat.le_trans hk2 (Nat.succ_le_succ hlast)⟩

end Table

/-! ## The applier -/

/-- The configuration, and the removal in whose joint phase it is, after a message of the applier. -/
def trackRemoval (s : ConfState × Option Nat) : ApplyMsg → ConfState × Option Nat
  | .confChange cc _ _ =>
    match s.1.applyConfChange cc with
    | .error _ => s
    | .ok next =>
      match cc.type with
      | .removeNode => (next, some cc.nodeId)
      | .leaveJoint => (next, none)
      | _ => (next, s.2)
  | _ => s

/-- The removal that is begun by these messages and not finished by them. -/
def openRemoval (conf : ConfState) (msgs : List ApplyMsg) : Option Nat :=
  (msgs.foldl trackRemoval (conf, none)).2

/-- What a message of the applier does to a node that leads after it. -/
inductive TableChange (n m : Node) (msg : ApplyMsg) : Prop
  | kept (conf : m.conf = n.conf) (next : m.nextIndex = n.nextIndex)
      (track : ∀ o, trackRemoval (n.conf, o) msg = (m.conf, o))
  | add (id : Nat) (free : n.conf.joint = ∅)
      (conf : m.conf = ⟨insert id n.conf.voters, n.conf.voters⟩)
      (next : m.nextIndex = if (n.nextIndex id).isSome then n.nextIndex
        else Function.update n.nextIndex id (some n.store.firstIndex))
      (track : ∀ o, trackRemoval (n.conf, o) msg = (m.conf, o))
  | remove (id : Nat) (free : n.conf.joint = ∅) (member : id ∈ n.conf.voters) (other : id ≠ n.id)
      (conf : m.conf = ⟨n.conf.voters.erase id, n.conf.voters⟩)
      (next : m.nextIndex = Function.update n.nextIndex id none)
      (track : ∀ o, trackRemoval (n.conf, o) msg = (m.conf, some id))
  | leave (conf : m.conf = ⟨n.conf.voters, ∅⟩)
      (next : m.nextIndex = fun p => if p ∈ n.conf.voters ∧ (n.nextIndex p).isNone then
        some (n.store.lastIndex + 1) else n.nextIndex p)
      (track : ∀ o, trackRemoval (n.conf, o) msg = (m.conf, none))

/-- The node and its log stay the same. -/
structure Applied (n m : Node) (msg : ApplyMsg) : Prop where
  id : m.id = n.id
  log : m.store.log = n.store.log
  snapIndex : m.store.snapIndex = n.store.snapIndex
  table : TableChange n m msg

section Applier

variable {n m : Node} {o : Option Nat} {msg : ApplyMsg}

theorem TableChange.track_conf (h : TableChange n m msg) (o : Option Nat) :
    (trackRemoval (n.conf, o) msg).1 = m.conf := by
  cases h with
  | kept _ _ track => rw [track]
  | add _ _ _ _ track => rw [track]
  | remove _ _ _ _ _ _ track => rw [track]
  | leave _ _ track => rw [track]

theorem Applied.lastIndex (h : Applied n m msg) : m.store.lastIndex = n.store.lastIndex := by
  rw [DiskStorage.lastIndex, DiskStorage.lastIndex, h.log, h.snapIndex]

/-- An accepted change. -/
theorem applyConfChangeLocked_table {cc : ConfChange} {next : ConfState}
    (hok : n.conf.applyConfChange cc = .ok next)
    (hl : (n.applyConfChangeLocked cc).1.role = .leader) (index term : Nat) :
    TableChange n (n.applyConfChangeLocked cc).1 (.confChange cc index term) := by
  have hm : (n.applyConfChangeLocked cc).1 = { (n.adoptConf cc next).trackMember cc with
      store := (((n.adoptConf cc next).trackMember cc).store.setConfState
        ((n.adoptConf cc next).trackMember cc).conf).1 } := by
    rw [Node.applyConfChangeLocked, hok]
  have hconf : (n.applyConfChangeLocked cc).1.conf = next := by
    rw [hm]
    exact Node.trackMember_conf cc
  have hadopt : (n.adoptConf cc next).role = .leader := by
    rw [hm] at hl
    rw [← (Node.trackMember_role (n := n.adoptConf cc next) cc).1]
    exact hl
  have hself : ¬(cc.type = .removeNode ∧ cc.nodeId = n.id) := by
    intro hrem
    simp only [Node.adoptConf, decide_eq_true hrem, if_true] at hadopt
    cases hadopt
  have hnext : (n.applyConfChangeLocked cc).1.nextIndex =
      ((n.adoptConf cc next).trackMember cc).nextIndex := by rw [hm]
  rw [Node.trackMember, if_neg (not_not_intro hadopt)] at hnext
  have hchange := hok
  rw [ConfState.applyConfChange] at hok
  cases htype : cc.type with
  | addNode =>
    simp only [htype] at hok hnext
    split at hok
    · cases hok
    next hfree =>
    obtain rfl := Except.ok.inj hok
    refine .add cc.nodeId (ConfState.not_inJoint hfree) hconf ?_ fun o => ?_
    · rw [hnext]
      split
      · next hsome => rw [if_pos (by exact hsome)]; rfl
      · next hnone => rw [if_neg (by exact hnone)]; rfl
    · simp only [trackRemoval, hchange, htype, hconf]
  | removeNode =>
    simp only [htype] at hok hnext
    split at hok
    · cases hok
    next hfree =>
    split at hok
    · cases hok
    next hin =>
    split at hok
    · cases hok
    obtain rfl := Except.ok.inj hok
    have hmember : cc.nodeId ∈ n.conf.voters := by
      rw [ConfState.contains] at hin
      simpa using hin
    refine .remove cc.nodeId (ConfState.not_inJoint hfree) hmember ?_ hconf hnext fun o => ?_
    · exact fun heq => hself ⟨htype, heq⟩
    · simp only [trackRemoval, hchange, htype, hconf]
  | leaveJoint =>
    simp only [htype] at hok hnext
    split at hok
    · cases hok
    obtain rfl := Except.ok.inj hok
    refine .leave hconf hnext fun o => ?_
    simp only [trackRemoval, hchange, htype, hconf]
  | other t =>
    simp only [htype] at hok
    cases hok

/-- **What the applier does with one entry.** -/
theorem applyEntry_applied {e : Entry} (hl : (n.applyEntry e).1.role = .leader) :
    Applied n (n.applyEntry e).1 (n.applyEntry e).2 := by
  obtain ⟨hlog, hsnap⟩ := applyEntry_log (n := n) e
  refine ⟨(Node.applyEntry_frame e).1, hlog, hsnap, ?_⟩
  rw [Node.applyEntry] at hl ⊢
  split
  · next cc htype hcc =>
    rw [htype, hcc] at hl
    cases hok : n.conf.applyConfChange cc with
    | error x =>
      have hsame : n.applyConfChangeLocked cc = (n, false) := by
        rw [Node.applyConfChangeLocked, hok]
      simp only [hsame]
      refine .kept rfl rfl fun o => ?_
      rw [trackRemoval]
      simp only [hok]
    | ok next => exact applyConfChangeLocked_table hok hl _ _
  · exact .kept rfl rfl fun _ => rfl

/-- **The rule for the applier**: what every message keeps, the loop keeps. -/
theorem collectLoop_table {P : Node → Option Nat → Prop}
    (hskip : ∀ n o k, P n o → P { n with lastApplied := k } o)
    (hstep : ∀ n m o msg, Applied n m msg → P n o → P m (trackRemoval (n.conf, o) msg).2)
    {fuel : Nat} {msgs : List ApplyMsg} (h : Node.collectLoop fuel n = some (m, msgs))
    (hl : m.role = .leader) (hn : P n o) : P m (msgs.foldl trackRemoval (n.conf, o)).2 := by
  induction fuel generalizing n msgs o with
  | zero =>
    obtain ⟨rfl, rfl⟩ := Prod.mk.inj (Option.some.inj h)
    exact hn
  | succ fuel ih =>
    rw [Node.collectLoop] at h
    split at h
    swap
    · obtain ⟨rfl, rfl⟩ := Prod.mk.inj (Option.some.inj h)
      exact hn
    simp only at h
    split at h
    · have hall := ih h (hskip n o _ hn)
      exact hall
    split at h
    · cases h
    next e he =>
    obtain ⟨⟨m', msgs'⟩, hrest, hq⟩ := Option.map_eq_some_iff.mp h
    obtain ⟨rfl, rfl⟩ := Prod.mk.inj hq
    have hlead : (n.applyEntry e).1.role = .leader := (Node.collectLoop_led hrest hl :)
    have happlied := applyEntry_applied hlead
    have hone := hstep n _ o _ happlied hn
    have hall := ih hrest (hskip _ _ (n.lastApplied + 1) hone)
    have hpair : trackRemoval (n.conf, o) (n.applyEntry e).2 =
        ((n.applyEntry e).1.conf, (trackRemoval (n.conf, o) (n.applyEntry e).2).2) :=
      Prod.ext (happlied.table.track_conf o) rfl
    rw [List.foldl_cons, hpair]
    exact hall

theorem InLog.collectLoop {fuel : Nat} {msgs : List ApplyMsg} (h : InLog n)
    (hs : n.store.snapIndex ≤ n.store.lastIndex)
    (hc : Node.collectLoop fuel n = some (m, msgs)) (hl : m.role = .leader) : InLog m := by
  have hkeep := collectLoop_table
    (P := fun n _ => InLog n ∧ n.store.snapIndex ≤ n.store.lastIndex) (o := none)
    (fun _ _ _ hn => hn) ?_ hc hl ⟨h, hs⟩
  · exact hkeep.1
  intro n m o msg happ hn
  have hlast := happ.lastIndex
  refine ⟨?_, by rw [happ.snapIndex, hlast]; exact hn.2⟩
  cases happ.table with
  | kept _ next _ => exact hn.1.grow next (Nat.le_of_eq hlast.symm)
  | add id _ _ next _ =>
    split at next
    · exact hn.1.grow next (Nat.le_of_eq hlast.symm)
    · exact hn.1.update next (Nat.succ_pos _) (Nat.succ_le_succ hn.2) (Nat.le_of_eq hlast.symm)
  | remove id _ _ _ _ next _ =>
    intro p ni hni
    rw [next, Function.update_apply] at hni
    split at hni
    · cases hni
    · rw [hlast]
      exact hn.1 p ni hni
  | leave _ next _ =>
    intro p ni hni
    rw [next] at hni
    rw [hlast]
    simp only at hni
    split at hni
    · obtain rfl := Option.some.inj hni
      exact ⟨Nat.succ_pos _, Nat.le_refl _⟩
    · exact hn.1 p ni hni

/-- The peer without an entry is the one of the open removal. -/
structure Removing (n : Node) (o : Option Nat) : Prop where
  missing : ∀ p ∈ n.peerIDs, p ≠ n.id → n.nextIndex p = none → o = some p
  leaving : ∀ p, o = some p → p ∈ n.conf.joint ∧ p ≠ n.id ∧ n.nextIndex p = none

theorem HasTargets.removing (h : HasTargets n) : Removing n none :=
  ⟨fun p hp hne hnone => absurd hnone (h p hp hne), fun p hp => by cases hp⟩

theorem Removing.hasTargets_iff (h : Removing n o) : HasTargets n ↔ o = none := by
  constructor
  · intro htargets
    cases ho : o with
    | none => rfl
    | some p =>
      obtain ⟨hjoint, hne, hnone⟩ := h.leaving p ho
      exact absurd hnone (htargets p (ConfState.mem_allPeerIDs.mpr (.inr hjoint)) hne)
  · intro ho p hp hne hnone
    have hsome := h.missing p hp hne hnone
    rw [ho] at hsome
    cases hsome

theorem Removing.applied (h : Removing n o) (happ : Applied n m msg) :
    Removing m (trackRemoval (n.conf, o) msg).2 := by
  have hpeers : ∀ {p}, p ∈ m.peerIDs ↔ p ∈ m.conf.voters ∨ p ∈ m.conf.joint :=
    ConfState.mem_allPeerIDs
  have hpeers₀ : ∀ {p}, p ∈ n.peerIDs ↔ p ∈ n.conf.voters ∨ p ∈ n.conf.joint :=
    ConfState.mem_allPeerIDs
  -- outside of a joint phase no removal is open
  have hclosed : n.conf.joint = ∅ → o = none := by
    intro hfree
    cases ho : o with
    | none => rfl
    | some p =>
      have hjoint := (h.leaving p ho).1
      rw [hfree] at hjoint
      exact absurd hjoint (Finset.notMem_empty p)
  cases happ.table with
  | kept conf next track =>
    rw [track]
    refine ⟨fun p hp hne hnone => ?_, fun p ho => ?_⟩
    · rw [hpeers, conf, ← hpeers₀] at hp
      rw [happ.id] at hne
      rw [next] at hnone
      exact h.missing p hp hne hnone
    · rw [conf, next, happ.id]
      exact h.leaving p ho
  | add id free conf next track =>
    rw [track, hclosed free]
    refine ⟨fun p hp hne hnone => ?_, fun p ho => by cases ho⟩
    rw [hpeers, conf] at hp
    rw [happ.id] at hne
    have hsame : p ≠ id ∧ n.nextIndex p = none := by
      by_cases hsome : (n.nextIndex id).isSome
      · rw [next, if_pos hsome] at hnone
        refine ⟨fun heq => ?_, hnone⟩
        rw [← heq, hnone] at hsome
        cases hsome
      · rw [next, if_neg hsome, Function.update_apply] at hnone
        split at hnone
        · cases hnone
        · next hother => exact ⟨hother, hnone⟩
    have hold : p ∈ n.peerIDs := by
      rw [hpeers₀]
      rcases hp with hp | hp
      · exact .inl (Finset.mem_of_mem_insert_of_ne hp hsame.1)
      · exact .inl hp
    have hopen := h.missing p hold hne hsame.2
    rw [hclosed free] at hopen
    exact hopen
  | remove id free member other conf next track =>
    rw [track]
    refine ⟨fun p hp hne hnone => ?_, fun p ho => ?_⟩
    · rw [hpeers, conf] at hp
      rw [happ.id] at hne
      by_cases heq : p = id
      · rw [heq]
      · rw [next, Function.update_of_ne heq] at hnone
        have hold : p ∈ n.peerIDs := by
          rw [hpeers₀]
          rcases hp with hp | hp
          · exact .inl (Finset.mem_of_mem_erase hp)
          · exact .inl hp
        have hopen := h.missing p hold hne hnone
        rw [hclosed free] at hopen
        cases hopen
    · obtain rfl := Option.some.inj ho
      rw [conf, next, happ.id]
      exact ⟨member, other, Function.update_self _ _ _⟩
  | leave conf next track =>
    rw [track]
    refine ⟨fun p hp _ hnone => ?_, fun p ho => by cases ho⟩
    rw [hpeers, conf] at hp
    rw [next] at hnone
    simp only at hnone
    rcases hp with hp | hp
    · split at hnone
      · cases hnone
      · next hno => exact absurd ⟨hp, by rw [hnone]; rfl⟩ hno
    · exact absurd hp (Finset.notMem_empty p)

/-- **The applier leaves the table without an entry exactly if it leaves a removal open.** -/
theorem HasTargets.collect_iff {fuel : Nat} {msgs : List ApplyMsg} (h : HasTargets n)
    (hc : Node.collectLoop fuel n = some (m, msgs)) (hl : m.role = .leader) :
    HasTargets m ↔ openRemoval n.conf msgs = none :=
  (collectLoop_table (P := Removing) (fun _ _ _ hn => ⟨hn.missing, hn.leaving⟩)
    (fun _ _ _ _ happ hn => hn.applied happ) hc hl h.removing).hasTargets_iff

end Applier

/-! ## Requests and replies on their way -/

/-- The term of a replication request and the index a success takes the peer to. -/
def Request.reach : Request → Option (Nat × Nat)
  | .appendEntries req => some (req.term, req.prevLogIndex + req.entries.length)
  | .installSnapshot req => some (req.term, req.lastIncludedIndex)
  | _ => none

/-- While the sender leads in the term of the request, its log reaches as far as the request. -/
def InFlight (n : Node) (req : Request) : Prop :=
  ∀ term index, req.reach = some (term, index) → term ≤ n.store.term ∧ Spent term index n

/-- A hint does not point behind the entry that was asked for. -/
def HonestHint (req : Request) (resp : Response) : Prop :=
  ∀ a r, req = .appendEntries a → resp = .appendEntries r → r.conflictIndex ≤ a.prevLogIndex

section Flight

variable {n m : Node} {op : NodeOp} {eff : Effect}

/-- The outcome of the file operations to come is no part of it. -/
theorem InFlight.withFaults {req : Request} (h : InFlight n req) (faults : List Bool) :
    InFlight (n.withFaults faults) req := by
  intro term index hreach
  obtain ⟨hle, hspent⟩ := h term index hreach
  exact ⟨hle, hspent.candidate, hspent.leader⟩

theorem InFlight.exec {req : Request} (h : InFlight n req) (hex : n.exec op = some (m, eff)) :
    InFlight m req := by
  intro term index hreach
  obtain ⟨hle, hspent⟩ := h term index hreach
  exact ⟨Nat.le_trans hle (Node.exec_store hex).grows.1, hspent.exec hle hex⟩

/-- A request reaches to the end of the sender's log at most. -/
theorem InFlight.sent (hs : Chain n.store.snapIndex n.store.log) {s : Send} (h : Sent n s) :
    InFlight n s.req := by
  intro term index hreach
  have hlead : n.role = .leader → index ≤ n.store.lastIndex → Spent term index n := by
    intro hl hle
    refine ⟨fun _ hc => ?_, fun _ _ => hle⟩
    cases hl.symm.trans hc
  cases h with
  | vote role request =>
    rw [request] at hreach
    cases hreach
  | snapshot role request =>
    rw [request] at hreach
    obtain ⟨rfl, rfl⟩ := Prod.mk.inj (Option.some.inj hreach)
    exact ⟨Nat.le_refl _, hlead role (snapIndex_le_lastIndex hs)⟩
  | append role next prevTerm above prev request =>
    rw [request] at hreach
    obtain ⟨rfl, rfl⟩ := Prod.mk.inj (Option.some.inj hreach)
    refine ⟨Nat.le_refl _, hlead role ?_⟩
    have hprev := (termAt_range hs prev).2
    rw [DiskStorage.firstIndex] at above
    show next - 1 + (n.store.entriesFrom next).length ≤ n.store.lastIndex
    rw [entriesFrom_eq hs above, List.length_drop]
    rw [lastIndex_of_chain hs] at hprev ⊢
    omega

theorem handleAppendEntries_hint (n : Node) (req : AppendEntriesRequest) :
    (n.handleAppendEntries req).2.conflictIndex ≤ req.prevLogIndex := by
  rcases Nat.lt_or_ge req.term n.store.term with hlt | hge
  · rw [Node.handleAppendEntries, if_pos hlt]
    exact Nat.zero_le _
  have hcases := handleAppendEntries_cases hge
  generalize n.handleAppendEntries req = r at hcases
  cases hcases with
  | beyond short => exact short
  | missing above reaches none =>
    refine Nat.lt_of_le_of_ne above fun heq => ?_
    rw [← heq, DiskStorage.termAt, if_pos rfl] at none
    cases none
  | conflict t above reaches held other => exact conflictStart_le _ _ _
  | accept reaches same =>
    rw [Node.acceptEntries]
    simp only
    split
    · exact Nat.zero_le _
    · exact Nat.zero_le _

theorem HonestHint.handled {faults : List Bool} {req : Request} {resp : Response}
    (hex : (n.withFaults faults).exec (.handle req) = some (m, eff)) (hresp : eff.resp = some resp) :
    HonestHint req resp := by
  rintro a r rfl rfl
  have hlock := Node.exec_unlocked hex
  simp only [Node.exec, hlock, Bool.false_eq_true, if_false, Node.handle, Option.some.injEq] at hex
  obtain ⟨-, rfl⟩ := Prod.mk.inj hex
  obtain rfl := Response.appendEntries.inj (Option.some.inj hresp)
  exact handleAppendEntries_hint _ a

end Flight

/-! ## The other sections -/

/-- Both tables of a leader are as they were. -/
structure SameTables (n m : Node) : Prop where
  next : m.nextIndex = n.nextIndex
  matched : m.matchIndex = n.matchIndex

/-- What a section does to the tables of a node that leads before and after it. -/
inductive LedStep (n : Node) (op : NodeOp) (m : Node) : Prop
  | kept (same : SameTables n m)
  | proposed (e : Entry) (next : e.index = n.store.lastIndex + 1)
      (result : m = (n.appendEntryLocked e).1)
  | appendReply (peer : Nat) (req : AppendEntriesRequest) (resp : AppendEntriesResponse)
      (request : op = .reply peer (.appendEntries req) (.appendEntries resp))
      (result : m = n.onAppendReply peer req resp)
  | snapshotReply (peer : Nat) (req : InstallSnapshotRequest) (resp : InstallSnapshotResponse)
      (request : op = .reply peer (.installSnapshot req) (.installSnapshot resp))
      (result : m = n.onSnapshotReply peer req resp)
  | collected (request : op = .collect)

/-- How a section comes to the table of a node that leads after it. -/
inductive NextStep (n : Node) (op : NodeOp) (m : Node) : Prop
  | kept (leader : n.role = .leader) (conf : m.conf = n.conf) (next : m.nextIndex = n.nextIndex)
  | elected (table : InLog m) (targets : HasTargets m)
  | replied (leader : n.role = .leader) (conf : m.conf = n.conf) (peer ni : Nat)
      (next : m.nextIndex = Function.update n.nextIndex peer (some ni)) (low : 1 ≤ ni)
      (high : ni ≤ n.store.lastIndex + 1)
  | collected (leader : n.role = .leader) (request : op = .collect)

section Sections

variable {n m : Node} {op : NodeOp} {eff : Effect}

theorem stepDownLocked_tables (term : Nat) : SameTables n (n.stepDownLocked term) := by
  rw [Node.stepDownLocked]
  split
  · exact ⟨rfl, rfl⟩
  · exact ⟨rfl, rfl⟩

theorem meetTerm_tables (term : Nat) : SameTables n (n.meetTerm term) := by
  rw [Node.meetTerm]
  split
  · exact stepDownLocked_tables term
  · exact ⟨rfl, rfl⟩

theorem advanceCommitLocked_tables : SameTables n n.advanceCommitLocked := by
  simp only [Node.advanceCommitLocked]
  split
  · exact ⟨rfl, rfl⟩
  split
  · exact ⟨rfl, rfl⟩
  split
  · exact ⟨rfl, rfl⟩
  split
  · exact ⟨rfl, rfl⟩
  · exact ⟨rfl, rfl⟩

theorem broadcastAppendLocked_tables (hn : n.role = .leader) (due : Nat → Bool) :
    SameTables n (n.broadcastAppendLocked due).1 := by
  obtain ⟨⟨f, hf⟩, -⟩ := Node.broadcastAppendLocked_spec hn due
  rw [hf]
  exact ⟨rfl, rfl⟩

/-- The two handlers of requests that are not a leader's. -/
theorem handle_tables {req : Request} (h : ¬(NodeOp.handle req).Copies) :
    SameTables n (n.handle req).1 := by
  cases req with
  | appendEntries req => exact absurd trivial h
  | installSnapshot req => exact absurd trivial h
  | requestVote req =>
    obtain ⟨hnext, hmatch⟩ := meetTerm_tables (n := n) req.term
    show SameTables n (n.handleRequestVote req).1
    simp only [Node.handleRequestVote]
    split
    · exact ⟨hnext, hmatch⟩
    split
    · exact ⟨hnext, hmatch⟩
    split
    · split
      · exact ⟨hnext, hmatch⟩
      · exact ⟨hnext, hmatch⟩
    · exact ⟨hnext, hmatch⟩
  | readIndex req =>
    obtain ⟨hnext, hmatch⟩ := meetTerm_tables (n := n) req.term
    show SameTables n (n.handleReadIndex req).1
    simp only [Node.handleReadIndex]
    split
    · exact ⟨rfl, rfl⟩
    split
    · exact ⟨hnext, hmatch⟩
    · exact ⟨hnext, hmatch⟩

theorem onReply_led {peer : Nat} {req : Request} {resp : Response}
    (hex : n.onReply peer req resp = some (m, eff)) (hn : n.role = .leader) :
    LedStep n (.reply peer req resp) m := by
  unfold Node.onReply at hex
  split at hex
  · next req resp =>
    obtain ⟨rfl, -⟩ := Prod.mk.inj (Option.some.inj hex)
    refine .kept ?_
    rw [Node.onVoteReply]
    split
    · exact stepDownLocked_tables _
    · rw [if_pos (.inl (by rw [hn]; exact fun habs => by cases habs))]
      exact ⟨rfl, rfl⟩
  · obtain ⟨rfl, -⟩ := Prod.mk.inj (Option.some.inj hex)
    exact .appendReply peer _ _ rfl rfl
  · obtain ⟨rfl, -⟩ := Prod.mk.inj (Option.some.inj hex)
    exact .snapshotReply peer _ _ rfl rfl
  · obtain ⟨rfl, -⟩ := Prod.mk.inj (Option.some.inj hex)
    refine .kept ?_
    simp only [Node.onReadIndexReply]
    split
    · exact stepDownLocked_tables _
    split
    · exact ⟨rfl, rfl⟩
    · exact ⟨rfl, rfl⟩
  · cases hex

/-- **What a section does to the tables of a leader.** -/
theorem exec_led (hex : n.exec op = some (m, eff)) (hn : n.role = .leader)
    (hl : m.role = .leader) : LedStep n op m := by
  have hlock := Node.exec_unlocked hex
  rcases exec_leading hex hl with rfl | hcopies
  · exact .kept ⟨rfl, rfl⟩
  simp only [Node.exec, hlock, Bool.false_eq_true, if_false] at hex
  cases op with
  | tick timedOut due =>
    obtain ⟨rfl, -⟩ := Prod.mk.inj (Option.some.inj hex)
    refine .kept ?_
    rw [Node.tick, hn]
    exact broadcastAppendLocked_tables hn due
  | propose command =>
    obtain ⟨rfl, -⟩ := Prod.mk.inj (Option.some.inj hex)
    rw [Node.propose, if_neg (not_not_intro hn)]
    exact .proposed _ rfl rfl
  | proposeConfChange cc =>
    obtain ⟨rfl, -⟩ := Prod.mk.inj (Option.some.inj hex)
    rw [Node.proposeConfChange, if_neg (not_not_intro hn)]
    split
    · exact .kept ⟨rfl, rfl⟩
    split
    · exact .kept ⟨rfl, rfl⟩
    · exact .proposed _ rfl rfl
  | snapshot index data =>
    obtain ⟨rfl, -⟩ := Prod.mk.inj (Option.some.inj hex)
    refine .kept ?_
    rw [Node.snapshot]
    split
    · exact ⟨rfl, rfl⟩
    split
    · exact ⟨rfl, rfl⟩
    · exact ⟨rfl, rfl⟩
  | collect => exact .collected rfl
  | handle req =>
    obtain ⟨rfl, -⟩ := Prod.mk.inj (Option.some.inj hex)
    exact .kept (handle_tables hcopies)
  | reply peer req resp => exact onReply_led hex hn
  | finish peer =>
    obtain ⟨rfl, -⟩ := Prod.mk.inj (Option.some.inj hex)
    exact .kept ⟨rfl, rfl⟩

/-- A node becomes leader by a vote and in no other way. -/
theorem exec_wins (hex : n.exec op = some (m, eff)) (hn : n.role ≠ .leader)
    (hl : m.role = .leader) :
    ∃ votes, m = ({ n with votes := votes } : Node).becomeLeaderLocked.1 := by
  have hlock := Node.exec_unlocked hex
  cases Node.exec_role hex with
  | follower role _ => cases role.symm.trans hl
  | same role _ _ _ => exact absurd (role.symm.trans hl) hn
  | failed role _ _ _ _ _ => cases role.symm.trans hl
  | campaign election _ => cases election.role.symm.trans hl
  | vote peer req resp request candidate current granted term votes quiet role =>
    subst request
    simp only [Node.exec, hlock, Bool.false_eq_true, if_false, Node.onReply] at hex
    obtain ⟨rfl, -⟩ := Prod.mk.inj (Option.some.inj hex)
    rw [Node.onVoteReply] at hl ⊢
    split at hl
    · cases (Node.stepDownLocked_role _).1.symm.trans hl
    next hterm =>
    rw [if_neg hterm]
    split at hl
    · exact absurd hl hn
    next hcounts =>
    rw [if_neg hcounts]
    simp only at hl ⊢
    split at hl
    · next hquorum =>
      rw [if_pos hquorum]
      exact ⟨_, rfl⟩
    · exact absurd hl hn

theorem appendEntryLocked_nextIndex (e : Entry) :
    (n.appendEntryLocked e).1.nextIndex = n.nextIndex := by
  rw [Node.appendEntryLocked]
  split
  · rfl
  · rfl

/-- A success moves the peer's entry to where the request reached, or leaves it. -/
theorem recordMatch_nextIndex (peer matched : Nat) :
    (n.recordMatch peer matched).nextIndex = n.nextIndex ∨
      (n.recordMatch peer matched).nextIndex =
        Function.update n.nextIndex peer (some (matched + 1)) := by
  rw [Node.recordMatch]
  by_cases hgt : matched + 1 > (n.nextIndex peer).getD 0
  · exact .inr (if_pos hgt)
  · exact .inl (if_neg hgt)

/-- A reply to an AppendEntries keeps the table in the log. -/
theorem onAppendReply_next {peer : Nat} {req : AppendEntriesRequest} {resp : AppendEntriesResponse}
    (hs : Chain n.store.snapIndex n.store.log) (hin : InLog n)
    (hreach : n.store.term = req.term → req.prevLogIndex + req.entries.length ≤ n.store.lastIndex)
    (hhint : resp.conflictIndex ≤ req.prevLogIndex) :
    (n.onAppendReply peer req resp).nextIndex = n.nextIndex ∨
      ∃ ni, (n.onAppendReply peer req resp).nextIndex = Function.update n.nextIndex peer (some ni) ∧
        1 ≤ ni ∧ ni ≤ n.store.lastIndex + 1 := by
  rw [Node.onAppendReply]
  split
  · exact .inl (stepDownLocked_tables _).next
  split
  · exact .inl rfl
  next hcurrent =>
  have hterm : n.store.term = req.term := by
    simp only [not_or, not_not] at hcurrent
    exact hcurrent.2
  have hprev : req.prevLogIndex ≤ n.store.lastIndex :=
    Nat.le_trans (Nat.le_add_right _ _) (hreach hterm)
  split
  · rw [advanceCommitLocked_tables.next]
    rcases recordMatch_nextIndex (n := n) peer (req.prevLogIndex + req.entries.length) with h | h
    · exact .inl h
    · exact .inr ⟨_, h, Nat.succ_pos _, Nat.succ_le_succ (hreach hterm)⟩
  split
  · refine .inr ⟨_, rfl, Nat.le_max_left _ _, Nat.max_le.mpr ⟨Nat.succ_pos _, ?_⟩⟩
    rcases scanConflict_cases n.store resp.conflictTerm resp.conflictIndex n.store.lastIndex with
      h | ⟨i, hi, h⟩
    · rw [h]
      omega
    · rw [h]
      exact Nat.succ_le_succ (termAt_range hs hi).2
  split
  · next hpos => exact .inr ⟨_, rfl, hpos, by omega⟩
  split
  · next hgt =>
    cases hni : n.nextIndex peer with
    | none =>
      rw [hni] at hgt
      cases hgt
    | some ni =>
      obtain ⟨-, hle⟩ := hin peer ni hni
      rw [hni, Option.getD_some] at hgt
      exact .inr ⟨_, rfl, by rw [Option.getD_some]; omega, by rw [Option.getD_some]; omega⟩
  · exact .inl rfl

theorem onSnapshotReply_next {peer : Nat} {req : InstallSnapshotRequest}
    {resp : InstallSnapshotResponse}
    (hreach : n.store.term = req.term → req.lastIncludedIndex ≤ n.store.lastIndex) :
    (n.onSnapshotReply peer req resp).nextIndex = n.nextIndex ∨
      ∃ ni, (n.onSnapshotReply peer req resp).nextIndex =
        Function.update n.nextIndex peer (some ni) ∧ 1 ≤ ni ∧ ni ≤ n.store.lastIndex + 1 := by
  rw [Node.onSnapshotReply]
  split
  · exact .inl (stepDownLocked_tables _).next
  split
  · exact .inl rfl
  next hcurrent =>
  have hterm : n.store.term = req.term := by
    simp only [not_or, not_not] at hcurrent
    exact hcurrent.2
  rcases recordMatch_nextIndex (n := n) peer req.lastIncludedIndex with h | h
  · exact .inl h
  · exact .inr ⟨_, h, Nat.succ_pos _, Nat.succ_le_succ (hreach hterm)⟩

/-- The table of a new leader. -/
theorem elected_table (hr : n.role ≠ .leader) :
    InLog n.becomeLeaderLocked.1 ∧ HasTargets n.becomeLeaderLocked.1 := by
  rw [Node.becomeLeaderLocked_eq hr]
  obtain ⟨⟨f, hf⟩, -⟩ := Node.broadcastAppendLocked_spec (n := n.elected) rfl fun _ => true
  rw [hf]
  obtain ⟨hreach, hown⟩ := (OwnAppend.synced (s := n.store)
    (e := { term := n.store.term, index := n.store.lastIndex + 1 })).reach rfl
  constructor
  · intro p ni hni
    have hni : n.elected.nextIndex p = some ni := hni
    show 1 ≤ ni ∧ ni ≤ n.elected.store.sync.1.lastIndex + 1
    simp only [Node.elected] at hni ⊢
    split at hni
    · next hok =>
      have hown := hown hok
      simp only at hown
      rw [Function.update_apply] at hni
      split at hni
      · obtain rfl := Option.some.inj hni
        exact ⟨Nat.succ_pos _, Nat.succ_le_succ hown⟩
      · split at hni
        · obtain rfl := Option.some.inj hni
          exact ⟨Nat.succ_pos _, Nat.succ_le_succ hreach⟩
        · cases hni
    · simp only at hni
      split at hni
      · obtain rfl := Option.some.inj hni
        exact ⟨Nat.succ_pos _, Nat.succ_le_succ hreach⟩
      · cases hni
  · intro p hp hne hnone
    have hp : p ∈ n.peerIDs := hp
    have hne : p ≠ n.id := hne
    have hnone : n.elected.nextIndex p = none := hnone
    simp only [Node.elected] at hnone
    split at hnone
    · rw [Function.update_of_ne hne, if_pos hp] at hnone
      cases hnone
    · simp only [if_pos hp] at hnone
      cases hnone

/-- **What a section does to `nextIndex`**, if the node leads after it. -/
theorem exec_next (hex : n.exec op = some (m, eff)) (hl : m.role = .leader)
    (hs : Chain n.store.snapIndex n.store.log) (hin : n.role = .leader → InLog n)
    (hop : ∀ peer req resp, op = .reply peer req resp → InFlight n req ∧ HonestHint req resp) :
    NextStep n op m := by
  by_cases hn : n.role = .leader
  swap
  · obtain ⟨votes, rfl⟩ := exec_wins hex hn hl
    obtain ⟨htable, htargets⟩ := elected_table (n := { n with votes := votes }) hn
    exact .elected htable htargets
  by_cases hc : op = .collect
  · exact .collected hn hc
  have hconf : m.conf = n.conf := by
    rcases exec_leading hex hl with rfl | hcopies
    · rfl
    refine (Node.exec_frame hex hc ?_).conf
    rintro req rfl
    exact hcopies trivial
  -- a reply writes one entry of the table at most
  have hwrites : (m.nextIndex = n.nextIndex ∨
      ∃ peer ni, m.nextIndex = Function.update n.nextIndex peer (some ni) ∧ 1 ≤ ni ∧
        ni ≤ n.store.lastIndex + 1) → NextStep n op m := by
    rintro (hnext | ⟨peer, ni, hnext, hlow, hhigh⟩)
    · exact .kept hn hconf hnext
    · exact .replied hn hconf peer ni hnext hlow hhigh
  cases exec_led hex hn hl with
  | kept same => exact .kept hn hconf same.next
  | proposed e next result =>
    refine .kept hn hconf ?_
    rw [result]
    exact appendEntryLocked_nextIndex e
  | appendReply peer req resp request result =>
    obtain ⟨hflight, hhint⟩ := hop _ _ _ request
    have hreach := fun hterm => (hflight _ _ rfl).2.leader hterm hn
    refine hwrites ?_
    rw [result]
    exact (onAppendReply_next hs (hin hn) hreach (hhint _ _ rfl rfl)).imp id fun h => ⟨peer, h⟩
  | snapshotReply peer req resp request result =>
    obtain ⟨hflight, -⟩ := hop _ _ _ request
    have hreach := fun hterm => (hflight _ _ rfl).2.leader hterm hn
    refine hwrites ?_
    rw [result]
    exact (onSnapshotReply_next hreach).imp id fun h => ⟨peer, h⟩
  | collected request => exact absurd request hc

/-- The table stays in the log. -/
theorem NextStep.inLog (h : NextStep n op m) (hex : n.exec op = some (m, eff))
    (hl : m.role = .leader) (hs : Chain n.store.snapIndex n.store.log)
    (hin : n.role = .leader → InLog n) : InLog m := by
  have hlast := exec_reach hex (exec_leading hex hl)
  cases h with
  | kept leader _ next => exact (hin leader).grow next hlast
  | elected table _ => exact table
  | replied leader _ peer ni next low high => exact (hin leader).update next low high hlast
  | collected leader request =>
    subst request
    exact (hin leader).collectLoop (snapIndex_le_lastIndex hs) (Node.exec_collect hex).1 hl

end Sections

/-! ## Runs -/

/-- What holds of every leader's table, with what is on its way to it. -/
def tables : Assertion where
  node i n := ChainedNode i n ∧ (n.role = .leader → InLog n)
  files _ := Recoverable
  call _ _ := ChainedRequest
  waiting n _ req := InFlight n req
  reply _ req resp := HonestHint req resp

theorem tables.reply_ok {i : Nat} {n : Node} {op : NodeOp} (h : tables.OpOk i n op)
    (faults : List Bool) (peer : Nat) (req : Request) (resp : Response)
    (hop : op = .reply peer req resp) :
    InFlight (n.withFaults faults) req ∧ HonestHint req resp := by
  subst hop
  obtain ⟨-, hflight, hhint⟩ := h
  exact ⟨InFlight.withFaults hflight faults, hhint⟩

/-- **The table of a leader stays in its log**, in every run. -/
theorem tableRule (cfg : Config) : Rule cfg (fun _ _ _ => True) tables where
  init i := ⟨(chainRule cfg).init i, fun hl => by cases hl⟩
  files h := (chainRule cfg).files h.1
  recover h ho := ⟨(chainRule cfg).recover h ho, fun hl => by cases hl⟩
  exec {i n faults op m eff} hi hn _ hop hex := by
    have hchained : chained.OpOk i n op := by
      cases op with
      | handle req => exact hop
      | reply peer req resp => exact ⟨hop.1, trivial, trivial⟩
      | _ => trivial
    obtain ⟨hm, htrail, -, hsend, -⟩ := (chainRule cfg).exec hi hn.1 trivial hchained hex
    have hstored : Chain (n.withFaults faults).store.snapIndex (n.withFaults faults).store.log :=
      hn.1.2.chain
    refine ⟨⟨hm, fun hl => ?_⟩, htrail,
      fun _ _ hflight => (InFlight.withFaults hflight faults).exec hex, fun s hs => ?_, ?_⟩
    · exact (exec_next hex hl hstored hn.2 (tables.reply_ok hop faults)).inLog hex hl hstored hn.2
    · exact ⟨(hsend s hs).1, .sent hm.2.chain ((Node.exec_sends hex).sent s hs)⟩
    · rintro req r rfl hresp
      exact .handled hex hresp
  read _ _ _ _ _ _ _ hreq := by
    subst hreq
    exact ⟨trivial, fun _ _ hreach => by cases hreach⟩

section Run

variable {cfg : Config} {σ : Nat → Cluster} {α : Nat → Option Action}

/-- The applier of a leader never stops in the joint phase of a removal that it has applied. -/
def FinishesRemovals (σ : Nat → Cluster) (α : Nat → Option Action) : Prop :=
  ∀ k i faults m msgs, α k = some (.run (.collect i) faults) →
    (((σ k).node i).withFaults faults).collect = some (m, msgs) → m.role = .leader →
    openRemoval ((σ k).node i).conf msgs = none

/-- Outside of the applier a leader keeps its targets. -/
theorem NextStep.hasTargets {n m : Node} {op : NodeOp} (h : NextStep n op m) (hid : m.id = n.id)
    (hc : op ≠ .collect) (ht : n.role = .leader → HasTargets n) : HasTargets m := by
  cases h with
  | kept leader conf next =>
    intro p hp hne
    rw [Node.peerIDs, conf] at hp
    rw [hid] at hne
    rw [next]
    exact ht leader p hp hne
  | elected _ targets => exact targets
  | replied leader conf peer ni next _ _ =>
    intro p hp hne hnone
    rw [Node.peerIDs, conf] at hp
    rw [hid] at hne
    rw [next, Function.update_apply] at hnone
    split at hnone
    · cases hnone
    · exact ht leader p hp hne hnone
  | collected _ request => exact absurd request hc

/-- Without a removal that is left open every leader has its targets. -/
theorem hasTargets_run (hrun : IsRun (Cluster.step cfg) (Cluster.init cfg) σ α)
    (hfinish : FinishesRemovals σ α) (k i : Nat) (hl : ((σ k).node i).role = .leader) :
    HasTargets ((σ k).node i) := by
  have hall := (tableRule cfg).run hrun fun _ _ _ _ _ _ _ _ _ => trivial
  refine hrun.invariant (P := fun c => ∀ i, (c.node i).role = .leader → HasTargets (c.node i))
    (fun i hl => by cases hl) (fun k act hact hprev i hl => ?_) k i hl
  have hnode := step_node (hrun.next k act hact) i
  generalize (σ (k + 1)).node i = m at hnode hl ⊢
  cases hnode with
  | same => exact hprev i hl
  | restarted during faults point keep files store crashes found opens => cases hl
  | ran e faults op eff runs resolves exec =>
    have hn := (hall k).node i
    by_cases hc : op = .collect
    · subst hc
      obtain ⟨hcollect, -⟩ := Node.exec_collect exec
      have hlead : ((σ k).node i).role = .leader :=
        (Node.collectLoop_led hcollect hl :)
      have hevent : e = .collect i := by
        cases resolve_cases resolves with
        | collect _ _ => rfl
      rw [hevent] at runs
      have htargets : HasTargets (((σ k).node i).withFaults faults) := hprev i hlead
      exact (htargets.collect_iff hcollect hl).mpr
        (hfinish k i faults m eff.collected (by rw [hact, runs]) hcollect hl)
    · have hstep := exec_next exec hl hn.1.2.chain hn.2
        (tables.reply_ok ((hall k).op resolves) faults)
      exact hstep.hasTargets (Node.exec_id exec) hc (hprev i)

/-- **When the leaders' tables cover their peers**, in a run with any failures: exactly if no applier
    of a leader stops in the joint phase of a removal that it has applied. -/
theorem leader_targets_iff (cfg : Config) (σ : Nat → Cluster) (α : Nat → Option Action)
    (hrun : IsRun (Cluster.step cfg) (Cluster.init cfg) σ α) :
    (∀ k i, ((σ k).node i).role = .leader → CoversTargets ((σ k).node i)) ↔
      FinishesRemovals σ α := by
  have hall := (tableRule cfg).run hrun fun _ _ _ _ _ _ _ _ _ => trivial
  constructor
  · intro hcovers k i faults m msgs hact hcollect hl
    obtain ⟨j, m', eff, hout, hnext⟩ := step_run (hrun.next k _ hact)
    obtain ⟨op, hres, -, hex⟩ := outcome_some hout
    cases resolve_cases hres with
    | collect _ _ =>
      obtain ⟨hcollect', -⟩ := Node.exec_collect hex
      obtain ⟨rfl, rfl⟩ := Prod.mk.inj (Option.some.inj (hcollect.symm.trans hcollect'))
      have hafter : (σ (k + 1)).node i = m := by
        rw [hnext, node_finishSection, if_pos rfl]
      have hlead : ((σ k).node i).role = .leader :=
        (Node.collectLoop_led hcollect hl :)
      have hbefore : HasTargets (((σ k).node i).withFaults faults) :=
        (coversTargets_iff (((hall k).node i).2 hlead)).mp (hcovers k i hlead)
      have htable := ((hall (k + 1)).node i).2
      have hcover := hcovers (k + 1) i
      rw [hafter] at htable hcover
      exact (hbefore.collect_iff hcollect hl).mp ((coversTargets_iff (htable hl)).mp (hcover hl))
  · intro hfinish k i hl
    exact (coversTargets_iff (((hall k).node i).2 hl)).mpr (hasTargets_run hrun hfinish k i hl)

/-- Node 1 adds node 4; the change is committed with node 2 and applied. -/
def additionApplied : List Action :=
  firstTerm ++
    [sec (.proposeConfChange 1 { type := .addNode, nodeId := 4 }),
      sec (.tick 1 false fun _ => true), sec (.deliver 4), sec (.reply 4 0), sec (.collect 1)]

theorem leader_targets_iff_addition :
    4 ∈ ((stateAt additionApplied 11).node 1).peerIDs ∧
    CoversTargets ((stateAt additionApplied 11).node 1) := by
  refine ⟨by decide +kernel, (leader_targets_iff threeNodes (stateAt additionApplied)
    (fun k => additionApplied[k]?) (isRun_stateAt (by decide +kernel))).mpr ?_ 11 1
    (by decide +kernel)⟩
  intro k i faults m msgs hact hcollect _
  have hk : k < 11 := (List.getElem?_eq_some_iff.mp hact).1
  interval_cases k
  all_goals cases hact
  -- one section applies anything: the no-op and the addition
  have hmsgs : ((((stateAt additionApplied 10).node 1).withFaults []).collect).map Prod.snd =
      some [.command [] 1 1, .confChange { type := .addNode, nodeId := 4 } 2 1] := by decide +kernel
  rw [hcollect] at hmsgs
  obtain rfl : msgs = [.command [] 1 1, .confChange { type := .addNode, nodeId := 4 } 2 1] :=
    Option.some.inj hmsgs
  rfl

/-- Node 1 applies the removal of node 3, whose last request is given up after that. -/
def removedPeer : List Action :=
  firstTerm ++
    [sec (.proposeConfChange 1 { type := .removeNode, nodeId := 3 }),
      sec (.tick 1 false fun _ => true), sec (.deliver 4), sec (.reply 4 0), sec (.collect 1),
      .abort 3, sec (.finish 3), sec (.tick 1 false fun _ => true)]

/-- Node 3 is a peer without an entry, and is sent a snapshot of nothing. -/
theorem removed_peer_untracked :
    IsRun (Cluster.step threeNodes) (Cluster.init threeNodes) (stateAt removedPeer)
      (fun k => removedPeer[k]?) ∧
    ((stateAt removedPeer 11).node 1).role = .leader ∧
    3 ∈ ((stateAt removedPeer 11).node 1).peerIDs ∧
    ((stateAt removedPeer 11).node 1).nextIndex 3 = none ∧
    (stateAt removedPeer 14).calls[5]?.map (fun call => (call.dest, call.req)) =
      some (3, .installSnapshot
        { term := 1, leaderId := 1, lastIncludedIndex := 0, lastIncludedTerm := 0, data := []
          confState := ⟨{1, 2}, {1, 2, 3}⟩ }) ∧
    ¬CoversTargets ((stateAt removedPeer 11).node 1) := by
  have hpeer : 3 ∈ ((stateAt removedPeer 11).node 1).peerIDs := by decide +kernel
  have hnone : ((stateAt removedPeer 11).node 1).nextIndex 3 = none := by decide +kernel
  refine ⟨isRun_stateAt (by decide +kernel), by decide +kernel, hpeer, hnone, by decide +kernel,
    fun hcovers => ?_⟩
  obtain ⟨ni, hni, -⟩ := hcovers.entry 3 hpeer (by decide +kernel)
  rw [hnone] at hni
  cases hni

end Run

end Raft
end DistKV
