import DistKV.Raft.JointQuorum
import DistKV.Server.Announce

/-!
# Addresses of the replication targets

`grpcTransport` starts with the peer map of the command line, and `onConfChangeApplied` is all that
changes it: an addition that carries an address sets one, a removal deletes one. So the transport
knows `id` if the last message about `id` since the process started was such an addition, or if there
was none and the command line names `id` (`learned_run`). The configuration goes other ways as well: it
is on disk and in snapshots, it keeps a removed member until the joint phase is left, and it does not
change at all if the change is rejected.

Where none of this goes wrong (`Listed`), configuration and messages keep in step (`Provided`), and
only a removal that is still open leaves a target without an address.
-/

namespace DistKV
namespace Server

open Raft
open Run (IsRun)

/-! ## What messages say about an id -/

/-- What a message does to the address of `id`, if it does something. -/
def mention (id : Nat) : ApplyMsg → Option (Option Bytes)
  | .confChange cc _ _ =>
    match cc.type with
    | .addNode => if cc.nodeId = id ∧ cc.context.length > 0 then some (some cc.context) else none
    | .removeNode => if cc.nodeId = id then some none else none
    | _ => none
  | _ => none

/-- What the last message about `id` did. -/
def lastMention (id : Nat) (msgs : List ApplyMsg) : Option (Option Bytes) :=
  (msgs.filterMap (mention id)).getLast?

theorem learn_eq (addrs : Nat → Option Bytes) (msg : ApplyMsg) (id : Nat) :
    learn addrs msg id = (mention id msg).getD (addrs id) := by
  cases msg with
  | confChange cc index term =>
    rw [learn, onConfChangeApplied, mention]
    cases cc.type with
    | addNode =>
      simp only
      by_cases hlen : cc.context.length > 0
      · rw [if_pos hlen, Function.update_apply]
        by_cases hid : id = cc.nodeId
        · rw [if_pos hid, if_pos ⟨hid.symm, hlen⟩]
          rfl
        · rw [if_neg hid, if_neg fun h => hid h.1.symm]
          rfl
      · rw [if_neg hlen, if_neg fun h => hlen h.2]
        rfl
    | removeNode =>
      simp only
      rw [Function.update_apply]
      by_cases hid : id = cc.nodeId
      · rw [if_pos hid, if_pos hid.symm]
        rfl
      · rw [if_neg hid, if_neg fun h => hid h.symm]
        rfl
    | leaveJoint => rfl
    | other code => rfl
  | command data index term => rfl
  | snapshot data index term => rfl

theorem foldl_learn (addrs : Nat → Option Bytes) (msgs : List ApplyMsg) (id : Nat) :
    msgs.foldl learn addrs id = (lastMention id msgs).getD (addrs id) := by
  induction msgs using List.reverseRecOn with
  | nil => rfl
  | append_singleton msgs m ih =>
    rw [List.foldl_append, List.foldl_cons, List.foldl_nil, learn_eq, ih, lastMention, lastMention,
      List.filterMap_append]
    cases hm : mention id m with
    | none => simp [hm]
    | some x => simp [hm]

/-! ## Runs -/

/-- The transport has what the messages taken so far make of the start-up map. -/
structure Learned (cfg : Config) (s : Servers) (i : Nat) : Prop where
  bound : (s.servers i).consumed ≤ (s.cluster.procs i).applyCh.length
  addrs : (s.servers i).addrs =
    ((s.cluster.procs i).applyCh.take (s.servers i).consumed).foldl learn cfg.addrs

theorem Learned.step {cfg : Config} {s s' : Servers} {a : ServiceAction} {i : Nat}
    (h : Learned cfg s i) (hs : s.step cfg a = some s') : Learned cfg s' i := by
  cases step_loop hs i with
  | idle consumed applied addrs sent start =>
    refine ⟨?_, ?_⟩
    · rw [consumed]
      exact Nat.le_trans h.bound sent.length_le
    · obtain ⟨more, hmore⟩ := sent
      rw [addrs, consumed, h.addrs, ← hmore, List.take_append_of_le_length h.bound]
  | took msg failed action next consumed applied addrs cluster =>
    refine ⟨?_, ?_⟩
    · rw [consumed, cluster]
      exact (List.getElem?_eq_some_iff.mp next).1
    · rw [addrs, consumed, cluster, h.addrs, List.take_add_one, next, List.foldl_append]
      rfl
  | started during faults point keep action server sent =>
    refine ⟨?_, ?_⟩
    · rw [server]
      exact Nat.zero_le _
    · rw [server, sent, List.take_nil]
      rfl

theorem learned_run {cfg : Config} {σ : Nat → Servers} {α : Nat → Option ServiceAction}
    (hrun : IsRun (Servers.step cfg) (Servers.init cfg) σ α) (i k : Nat) : Learned cfg (σ k) i :=
  hrun.invariant (P := fun s => Learned cfg s i) ⟨Nat.le_refl _, rfl⟩
    (fun k a ha h => h.step (hrun.next k a ha)) k

/-- The last message about `id` since the process started gave it an address, or there was none and
    the start-up map has one. -/
def Reached (cfg : Config) (msgs : List ApplyMsg) (id : Nat) : Prop :=
  (∃ addr, lastMention id msgs = some (some addr)) ∨
    lastMention id msgs = none ∧ (cfg.addrs id).isSome = true

theorem foldl_learn_isSome {cfg : Config} {msgs : List ApplyMsg} {id : Nat} :
    (msgs.foldl learn cfg.addrs id).isSome = true ↔ Reached cfg msgs id := by
  rw [foldl_learn, Reached]
  cases lastMention id msgs with
  | none => simp
  | some x =>
    cases x with
    | none => simp
    | some addr => simp

/-! ## Configuration and messages -/

/-- Every other member of the configuration has an address once the messages are taken, except for
    one that only the old half has and whose removal is the last that was said of it. -/
def Provided (cfg : Config) (i : Nat) (C : ConfState) (msgs : List ApplyMsg) : Prop :=
  ∀ id ∈ C.allPeerIDs, id ≠ i →
    Reached cfg msgs id ∨ id ∉ C.voters ∧ lastMention id msgs = some none

/-- A change that the transport follows as the configuration does: an addition carries an address,
    and the removal of a member is not rejected. -/
def Heard (i : Nat) (C : ConfState) (cc : ConfChange) : Prop :=
  (cc.type = .addNode → cc.context.length > 0) ∧
    (cc.type = .removeNode → cc.nodeId ≠ i → cc.nodeId ∈ C.voters →
      (C.applyConfChange cc).isOk = true)

instance (i : Nat) (C : ConfState) (cc : ConfChange) : Decidable (Heard i C cc) :=
  inferInstanceAs (Decidable (_ ∧ _))

section Messages

variable {cfg : Config} {i id : Nat} {C : ConfState} {msgs : List ApplyMsg} {m : ApplyMsg}

theorem lastMention_snoc (id : Nat) (msgs : List ApplyMsg) (m : ApplyMsg) :
    lastMention id (msgs ++ [m]) = (mention id m).or (lastMention id msgs) := by
  unfold lastMention
  cases h : mention id m with
  | none => simp [h]
  | some x => simp [h]

theorem lastMention_snapshot (rest : List ApplyMsg) {data : Bytes} {index term : Nat} :
    lastMention id (msgs ++ [.snapshot data index term] ++ rest) = lastMention id (msgs ++ rest) := by
  simp [lastMention, mention]

theorem Reached.congr {msgs' : List ApplyMsg} (h : Reached cfg msgs id)
    (hsame : lastMention id msgs' = lastMention id msgs) : Reached cfg msgs' id := by
  unfold Reached at h ⊢
  rw [hsame]
  exact h

theorem Provided.voter (h : Provided cfg i C msgs) (hid : id ∈ C.voters) (hne : id ≠ i) :
    Reached cfg msgs id := by
  rcases h id (ConfState.mem_allPeerIDs.mpr (.inl hid)) hne with hr | ⟨hout, -⟩
  · exact hr
  · exact absurd hid hout

/-- An id that no removal was about is known if the start-up map has it. -/
theorem reached_of_unremoved (haddr : (cfg.addrs id).isSome = true)
    (h : ∀ m ∈ msgs, mention id m ≠ some none) : Reached cfg msgs id := by
  unfold Reached
  cases hlast : lastMention id msgs with
  | none => exact .inr ⟨rfl, haddr⟩
  | some x =>
    cases x with
    | some addr => exact .inl ⟨addr, rfl⟩
    | none =>
      obtain ⟨m, hm, hx⟩ := List.mem_filterMap.mp (List.mem_of_getLast? hlast)
      exact absurd hx (h m hm)

theorem mention_eq {cc : ConfChange} {index term : Nat} :
    mention id (.confChange cc index term) =
      if cc.nodeId = id then
        if cc.type = .addNode ∧ cc.context.length > 0 then some (some cc.context)
        else if cc.type = .removeNode then some none
        else none
      else none := by
  unfold mention
  cases htype : cc.type <;> by_cases hid : cc.nodeId = id <;> simp [hid, htype]

/-- Who is in the configuration after a change was a voter before, unless nothing has changed or it is
    added. -/
theorem absorb_member {cc : ConfChange} {e : Entry} (he : e.change? = some cc)
    (hid : id ∈ (C.absorb e).allPeerIDs) :
    C.absorb e = C ∨ id ∈ C.voters ∨ cc.type = .addNode ∧ cc.nodeId = id := by
  rw [ConfState.mem_allPeerIDs] at hid
  rw [ConfState.absorb_change he] at hid ⊢
  cases happ : C.applyConfChange cc with
  | error err => exact .inl rfl
  | ok next =>
    rw [happ] at hid
    change id ∈ next.voters ∨ id ∈ next.joint at hid
    cases ConfState.applyConfChange_changed happ with
    | add type hj =>
      rcases hid with hid | hid
      · rcases Finset.mem_insert.mp hid with rfl | hid
        · exact .inr (.inr ⟨type, rfl⟩)
        · exact .inr (.inl hid)
      · exact .inr (.inl hid)
    | remove type hj hin hcard =>
      rcases hid with hid | hid
      · exact .inr (.inl (Finset.mem_of_mem_erase hid))
      · exact .inr (.inl hid)
    | leave type hj =>
      rcases hid with hid | hid
      · exact .inr (.inl hid)
      · exact absurd hid (Finset.notMem_empty _)

theorem Heard.removed {cc : ConfChange} {e : Entry} (h : Heard i C cc) (he : e.change? = some cc)
    (htype : cc.type = .removeNode) (hne : cc.nodeId ≠ i) : cc.nodeId ∉ (C.absorb e).voters := by
  intro hvoter
  rw [ConfState.absorb_change he] at hvoter
  cases happ : C.applyConfChange cc with
  | error err =>
    rw [happ] at hvoter
    have hok := h.2 htype hne hvoter
    rw [happ] at hok
    cases hok
  | ok next =>
    rw [happ] at hvoter
    cases ConfState.applyConfChange_changed happ with
    | add type hj => rw [htype] at type; cases type
    | remove type hj hin hcard => exact Finset.notMem_erase _ _ hvoter
    | leave type hj => rw [htype] at type; cases type

/-- One more change, applied and announced. -/
theorem Provided.change {cc : ConfChange} {index term : Nat} (h : Provided cfg i C msgs)
    (hheard : Heard i C cc) {e : Entry} (he : e.change? = some cc) :
    Provided cfg i (C.absorb e) (msgs ++ [.confChange cc index term]) := by
  intro id hid hne
  have hlast := lastMention_snoc id msgs (.confChange cc index term)
  rw [mention_eq] at hlast
  by_cases hadd : cc.nodeId = id ∧ cc.type = .addNode
  · rw [if_pos hadd.1, if_pos ⟨hadd.2, hheard.1 hadd.2⟩] at hlast
    exact .inl (.inl ⟨cc.context, hlast⟩)
  by_cases hremove : cc.nodeId = id ∧ cc.type = .removeNode
  · obtain ⟨rfl, htype⟩ := hremove
    rw [if_pos rfl, if_neg (by simp [htype]), if_pos htype] at hlast
    exact .inr ⟨hheard.removed he htype hne, hlast⟩
  -- the message is not about `id`
  replace hlast : lastMention id (msgs ++ [.confChange cc index term]) = lastMention id msgs := by
    rw [hlast]
    split
    · next hnamed => simp [show cc.type ≠ .addNode from fun ht => hadd ⟨hnamed, ht⟩,
        show cc.type ≠ .removeNode from fun ht => hremove ⟨hnamed, ht⟩]
    · rfl
  rcases absorb_member he hid with hsame | hvoter | ⟨htype, hnamed⟩
  · rw [hsame] at hid ⊢
    rcases h id hid hne with hr | ⟨hout, hgone⟩
    · exact .inl (hr.congr hlast)
    · exact .inr ⟨hout, hlast.trans hgone⟩
  · exact .inl ((h.voter hvoter hne).congr hlast)
  · exact absurd ⟨hnamed, htype⟩ hadd

theorem Provided.congr {msgs' : List ApplyMsg} (h : Provided cfg i C msgs)
    (hsame : ∀ id, lastMention id msgs' = lastMention id msgs) : Provided cfg i C msgs' := by
  intro id hid hne
  rcases h id hid hne with hr | ⟨hout, hgone⟩
  · exact .inl (hr.congr (hsame id))
  · exact .inr ⟨hout, (hsame id).trans hgone⟩

end Messages

/-! ## The applier -/

/-- The verdicts on a list of entries, from a configuration on. -/
def judge : ConfState → List Entry → List Verdict
  | _, [] => []
  | C, e :: es =>
    (e.change?.map fun cc => { cc, index := e.index, term := e.term, conf := C : Verdict }).toList ++
      judge (C.absorb e) es

section Applier

variable {cfg : Config} {i fuel : Nat} {n m : Node}

theorem verdictLoop_eq : verdictLoop fuel n = judge n.conf (pendingEntries n fuel) := by
  induction fuel generalizing n with
  | zero => rfl
  | succ fuel ih =>
    rw [verdictLoop, pendingEntries, visits]
    split
    swap
    · rfl
    simp only
    split
    · exact ih
    cases hx : n.store.entryAt (n.lastApplied + 1) with
    | none => rfl
    | some e =>
      show verdict n e ++ _ = judge n.conf (e :: _)
      rw [ih, visits_applyEntry, verdict_eq, judge]
      exact congrArg (fun C => _ ++ judge C _) (Node.applyEntry_conf e)

theorem collectLoop_absorbs {msgs : List ApplyMsg} (h : Node.collectLoop fuel n = some (m, msgs)) :
    m.conf = (pendingEntries n fuel).foldl ConfState.absorb n.conf := by
  induction fuel generalizing n m msgs with
  | zero =>
    obtain ⟨rfl, -⟩ := Prod.mk.inj (Option.some.inj h)
    rfl
  | succ fuel ih =>
    rw [Node.collectLoop] at h
    rw [pendingEntries, visits]
    split at h
    swap
    · next hle =>
      obtain ⟨rfl, -⟩ := Prod.mk.inj (Option.some.inj h)
      rw [if_neg hle]
      rfl
    next hlt =>
    rw [if_pos hlt]
    simp only at h
    split at h
    · next hbelow =>
      rw [if_pos hbelow]
      exact ih h
    next habove =>
    rw [if_neg habove]
    cases he : n.store.entryAt (n.lastApplied + 1) with
    | none =>
      rw [he] at h
      cases h
    | some e =>
      rw [he] at h
      obtain ⟨⟨m', rest⟩, hrest, hq⟩ := Option.map_eq_some_iff.mp h
      obtain ⟨rfl, -⟩ := Prod.mk.inj hq
      show m'.conf = List.foldl _ _ (e :: _)
      rw [List.foldl_cons, ih hrest, visits_applyEntry, ← Node.applyEntry_conf e]

/-- A batch that is applied and announced. -/
theorem Provided.entries {C : ConfState} {msgs : List ApplyMsg} (es : List Entry) (h : Provided cfg i C msgs)
    (hheard : ∀ v ∈ judge C es, Heard i v.conf v.cc) :
    Provided cfg i (es.foldl ConfState.absorb C) (msgs ++ es.map message) := by
  induction es generalizing C msgs with
  | nil => simpa using h
  | cons e es ih =>
    rw [List.map_cons, List.append_cons, List.foldl_cons]
    refine ih ?_ fun v hv => hheard v (List.mem_append_right _ hv)
    cases hcc : e.change? with
    | none =>
      rw [ConfState.absorb_plain hcc]
      refine h.congr fun id => ?_
      rw [lastMention_snoc, message, hcc]
      exact Option.none_or
    | some cc =>
      rw [message, hcc]
      refine h.change (hheard ⟨cc, e.index, e.term, C⟩ ?_) hcc
      rw [judge, hcc]
      exact List.mem_append_left _ (List.mem_singleton.mpr rfl)

end Applier

/-! ## Steps and runs -/

/-- The conditions under which a step of the raft layer keeps the addresses of server `i` complete. -/
structure Listed (cfg : Config) (i : Nat) (c : Cluster) (act : Action) : Prop where
  applied : ∀ faults, act = .run (.collect i) faults →
    ∀ v ∈ verdicts (c.node i), Heard i v.conf v.cc
  /-- A snapshot that is installed brings no member without an address. -/
  installed : ∀ e faults req, act = .run e faults →
    c.resolve e = some (i, .handle (.installSnapshot req)) → (c.node i).store.term ≤ req.term →
    (c.node i).store.snapIndex < req.lastIncludedIndex →
    ∀ id ∈ req.confState.allPeerIDs, id ≠ i → id ∈ (c.node i).conf.voters ∨
      (cfg.addrs id).isSome = true ∧
        ∀ m ∈ (c.procs i).applyCh ++ (c.procs i).batch, mention id m ≠ some none
  /-- Neither does the disk at a restart. -/
  recovered : ∀ during faults point keep files store, act = .restart i during faults point keep →
    c.filesAt i during faults point = some files →
    DiskStorage.openDiskStorage (files.crash keep) cfg.peers = some store →
    ∀ id ∈ store.conf.allPeerIDs, id ≠ i → (cfg.addrs id).isSome = true

/-- Configuration and messages of process `i` keep in step. -/
structure InStep (cfg : Config) (i : Nat) (c : Cluster) : Prop where
  provided : Provided cfg i (c.node i).conf ((c.procs i).applyCh ++ (c.procs i).batch)
  installs : ∀ q ∈ (c.procs i).installs, ∃ data index term, q.2.2 = .snapshot data index term

section Runs

variable {cfg : Config} {i : Nat} {c c' : Cluster} {act : Action}

/-- What a step other than a collection does to the configuration, and what it can have taken. -/
theorem InStep.quiet (h : InStep cfg i c) (hs : c.step cfg act = some c')
    (hl : Listed cfg i c act) (hcollect : ∀ faults, act ≠ .run (.collect i) faults)
    (halive : ∀ during faults point keep, act ≠ .restart i during faults point keep) :
    Provided cfg i (c'.node i).conf ((c.procs i).applyCh ++ (c.procs i).batch) := by
  have hstep := step_node hs i
  generalize c'.node i = m at hstep
  cases hstep with
  | same => exact h.provided
  | restarted during faults point keep _ _ crashes =>
    exact absurd crashes (halive during faults point keep)
  | ran e faults op eff runs resolves exec =>
    by_cases hc : op = .collect
    · subst hc runs
      cases resolve_cases resolves with
      | collect _ sent => exact absurd rfl (hcollect faults)
    by_cases hi : ∃ req, op = .handle (.installSnapshot req)
    · obtain ⟨req, rfl⟩ := hi
      have hinst := Node.exec_install exec
      generalize eff.install = msg at hinst
      cases hinst with
      | refused frame _ => rw [frame.conf]; exact h.provided
      | failed _ _ conf _ _ => rw [conf]; exact h.provided
      | installed term above _ conf _ _ =>
        rw [conf]
        intro id hid hne
        rcases hl.installed e faults req runs resolves term above id hid hne with hv | ⟨ha, hno⟩
        · exact .inl (h.provided.voter hv hne)
        · exact .inl (reached_of_unremoved ha hno)
    · have hframe := Node.exec_frame exec hc fun req hop => hi ⟨req, hop⟩
      rw [hframe.conf]
      exact h.provided

theorem InStep.step (h : InStep cfg i c) (hs : c.step cfg act = some c')
    (hl : Listed cfg i c act) : InStep cfg i c' := by
  refine ⟨?_, installs_step hs h.installs⟩
  cases cluster_sends hs i with
  | same alive batch applyCh start rests =>
    rw [batch, applyCh]
    exact h.quiet hs hl rests alive
  | collect faults n eff action sent exec node batch applyCh start =>
    obtain ⟨hloop, -⟩ := Node.exec_collect exec
    rw [node, batch, applyCh, collectLoop_absorbs hloop, collectLoop_messages hloop,
      pendingEntries_withFaults]
    have hprov := h.provided
    rw [sent, List.append_nil] at hprov
    refine hprov.entries _ ?_
    have hverdicts := hl.applied faults action
    rw [verdicts, verdictLoop_eq] at hverdicts
    exact hverdicts
  | emit m rest action held batch applyCh start =>
    have hprov := h.quiet hs hl (by rw [action]; simp) (by rw [action]; simp)
    rw [batch, applyCh, List.append_assoc, List.singleton_append, ← held]
    exact hprov
  | install k q action held batch applyCh start =>
    have hprov := h.quiet hs hl (by rw [action]; simp) (by rw [action]; simp)
    obtain ⟨data, index, term, hq⟩ := h.installs q (List.mem_of_getElem? held)
    rw [batch, applyCh, hq]
    exact hprov.congr fun id => lastMention_snapshot _
  | restart during faults point keep store action proc =>
    subst action
    obtain ⟨-, files, store', hf, ho, rfl⟩ := step_restart hs
    intro id hid hne
    refine .inl (.inr ⟨?_, ?_⟩)
    · rw [proc]
      rfl
    · refine hl.recovered during faults point keep files store' rfl hf ho id ?_ hne
      rw [node_restarted, if_pos rfl] at hid
      exact hid

end Runs

/-- **Which replication targets have an address**, in every run in which the start-up map has the
    bootstrap voters, every addition that is applied carries an address, no removal of a member is
    rejected when it is applied, and no configuration that is read from disk or taken from a snapshot
    brings a member without an address. Once server `i` has taken everything its process has collected
    and sent, the transport has an address for every other member of the configuration if and only if
    no removal is open, that is, no one is only in the old half with a removal as the last message
    about them. -/
theorem targets_addressed (cfg : Config) (σ : Nat → Servers) (α : Nat → Option ServiceAction)
    (hrun : IsRun (Servers.step cfg) (Servers.init cfg) σ α) (i : Nat)
    (covers : ∀ p ∈ cfg.peers, (cfg.addrs p).isSome = true)
    (listed : ∀ k act, raftActions cfg σ α k = some act → Listed cfg i (σ k).cluster act) (k : Nat)
    (sent : ((σ k).cluster.procs i).batch = [])
    (drained : ((σ k).servers i).consumed = ((σ k).cluster.procs i).applyCh.length) :
    (∀ id ∈ ((σ k).cluster.node i).peerIDs, id ≠ i → (((σ k).servers i).addrs id).isSome = true) ↔
    ∀ id ∈ ((σ k).cluster.node i).conf.joint, id ∉ ((σ k).cluster.node i).conf.voters → id ≠ i →
      lastMention id ((σ k).cluster.procs i).applyCh ≠ some none := by
  have haddrs := (learned_run hrun i k).addrs
  rw [drained, List.take_length] at haddrs
  have hprov : InStep cfg i (σ k).cluster := by
    refine (cluster_run hrun).invariant (P := InStep cfg i) ⟨?_, ?_⟩
      (fun k act hact h => h.step ((cluster_run hrun).next k act hact) (listed k act hact)) k
    · intro id hid hne
      refine .inl (.inr ⟨rfl, covers id ?_⟩)
      rcases ConfState.mem_allPeerIDs.mp hid with hv | hj
      · exact List.mem_toFinset.mp hv
      · exact absurd hj (Finset.notMem_empty _)
    · intro q hq
      cases hq
  have hprov := hprov.provided
  rw [sent, List.append_nil] at hprov
  simp only [haddrs, foldl_learn_isSome]
  constructor
  · intro h id hid hout hne hgone
    have hr := h id (ConfState.mem_allPeerIDs.mpr (.inr hid)) hne
    unfold Reached at hr
    rw [hgone] at hr
    simp at hr
  · intro h id hid hne
    rcases hprov id hid hne with hr | ⟨hout, hgone⟩
    · exact hr
    · rcases ConfState.mem_allPeerIDs.mp hid with hv | hj
      · exact absurd hv hout
      · exact absurd hgone (h id hj hout hne)

/-- `RemoveMember(3)` on the leader of term 1: both changes are committed with node 2, applied and
    announced. Then server 1 restarts. -/
def removedThird : List ServiceAction :=
  firstTerm.map .raft ++ [.call 1 (.removeMember 3), .propose 0 [], .register 0] ++
  commitSecond 4 2 ++
  [.consume 1 false, .consume 1 false, .resume 0, .propose 0 [], .register 0] ++
  commitSecond 5 1 ++ [.consume 1 false, .raft (.restart 1 none [] 0 0)]

theorem removedThird_restart {k point keep : Nat} {during : Option Event} {faults : List Bool}
    (h : raftActions addressed (serviceAt addressed removedThird) (fun k => removedThird[k]?) k =
      some (.restart 1 during faults point keep)) :
    k = 28 ∧ during = none ∧ faults = [] ∧ point = 0 ∧ keep = 0 := by
  obtain ⟨a, ha, hact⟩ := Option.bind_eq_some_iff.mp h
  have hraft : a = .raft (.restart 1 during faults point keep) := by
    rcases raftAction_cases hact with hraft | hproposal | ⟨j, hread⟩
    · exact hraft
    · cases hproposal
    · cases hread
  rw [hraft] at ha
  have hk : k < 29 := (List.getElem?_eq_some_iff.mp ha).1
  interval_cases k <;> simp [removedThird, firstTerm, commitSecond, raftSec, sec] at ha ⊢
  obtain ⟨rfl, rfl, rfl, rfl⟩ := ha
  exact ⟨rfl, rfl, rfl, rfl⟩

/-- With the removal left, and after the restart, the leader knows all members. -/
theorem targets_addressed_removed :
    ((serviceAt addressed removedThird 28).cluster.node 1).peerIDs = [1, 2] ∧
    ((serviceAt addressed removedThird 29).cluster.node 1).peerIDs = [1, 2] ∧
    (∀ id ∈ ((serviceAt addressed removedThird 28).cluster.node 1).peerIDs, id ≠ 1 →
      (((serviceAt addressed removedThird 28).servers 1).addrs id).isSome = true) ∧
    ∀ id ∈ ((serviceAt addressed removedThird 29).cluster.node 1).peerIDs, id ≠ 1 →
      (((serviceAt addressed removedThird 29).servers 1).addrs id).isSome = true := by
  have hrun : IsRun (Servers.step addressed) (Servers.init addressed)
      (serviceAt addressed removedThird) (fun k => removedThird[k]?) :=
    isRun_serviceAt (by decide +kernel)
  have hheard : ∀ k < 29, ∀ v ∈ verdicts ((serviceAt addressed removedThird k).cluster.node 1),
      Heard 1 v.conf v.cc := by decide +kernel
  have hplain : ∀ k < 29, ∀ call ∈ (serviceAt addressed removedThird k).cluster.calls,
      call.req.snapshot? = none := by decide +kernel
  have hdisk : ∀ files ∈ (serviceAt addressed removedThird 28).cluster.filesAt 1 none [] 0,
      ∀ store ∈ DiskStorage.openDiskStorage (files.crash 0) addressed.peers,
      ∀ id ∈ store.conf.allPeerIDs, (addressed.addrs id).isSome = true := by decide +kernel
  have hend : ∀ k ∈ [28, 29],
      ((serviceAt addressed removedThird k).cluster.node 1).peerIDs = [1, 2] ∧
      ((serviceAt addressed removedThird k).cluster.node 1).conf.joint = ∅ ∧
      ((serviceAt addressed removedThird k).cluster.procs 1).batch = [] ∧
      ((serviceAt addressed removedThird k).servers 1).consumed =
        ((serviceAt addressed removedThird k).cluster.procs 1).applyCh.length := by decide +kernel
  have hlisted : ∀ k act, raftActions addressed (serviceAt addressed removedThird)
      (fun k => removedThird[k]?) k = some act →
      Listed addressed 1 (serviceAt addressed removedThird k).cluster act := by
    intro k act hact
    have hlt : k < 29 := by
      obtain ⟨a, ha, -⟩ := Option.bind_eq_some_iff.mp hact
      exact (List.getElem?_eq_some_iff.mp ha).1
    refine ⟨fun _ _ => hheard k hlt, fun e faults req _ hres _ _ => ?_, ?_⟩
    · obtain ⟨j, call, -, hj, -, hreq⟩ := resolve_handle hres
      have hnone := hplain k hlt call (List.mem_of_getElem? hj)
      rw [hreq] at hnone
      cases hnone
    · intro during faults point keep files store hrestart hf ho
      subst hrestart
      obtain ⟨rfl, rfl, rfl, rfl, rfl⟩ := removedThird_restart hact
      exact fun id hid _ => hdisk files hf store ho id hid
  have hknown : ∀ k ∈ [28, 29], ∀ id ∈ ((serviceAt addressed removedThird k).cluster.node 1).peerIDs,
      id ≠ 1 → (((serviceAt addressed removedThird k).servers 1).addrs id).isSome = true := by
    intro k hk
    obtain ⟨-, hjoint, hsent, hdrained⟩ := hend k hk
    refine (targets_addressed addressed _ _ hrun 1 (by decide) hlisted k hsent hdrained).mpr ?_
    rw [hjoint]
    exact fun id hid => absurd hid (Finset.notMem_empty _)
  exact ⟨(hend 28 (by decide)).1, (hend 29 (by decide)).1, hknown 28 (by decide),
    hknown 29 (by decide)⟩

/-- `RemoveMember(3)` instead. -/
def removeThird : List ServiceAction :=
  firstTerm.map .raft ++ [.call 1 (.removeMember 3), .propose 0 []] ++ commitSecond 4 2 ++
    [.consume 1 false, .consume 1 false]

/-- The start-up map covers all voters, everything is sent and taken, and node 3 is still in the
    joint configuration, but the leader has no address for it any more. -/
theorem removed_target_unreachable :
    IsRun (Servers.step addressed) (Servers.init addressed) (serviceAt addressed removeThird)
      (fun k => removeThird[k]?) ∧
    (∀ p ∈ addressed.peers, (addressed.addrs p).isSome = true) ∧
    ((serviceAt addressed removeThird 17).servers 1).consumed =
      ((serviceAt addressed removeThird 17).cluster.procs 1).applyCh.length ∧
    ((serviceAt addressed removeThird 17).cluster.procs 1).batch = [] ∧
    ((serviceAt addressed removeThird 17).cluster.node 1).conf = ⟨{1, 2}, {1, 2, 3}⟩ ∧
    3 ∈ ((serviceAt addressed removeThird 17).cluster.node 1).peerIDs ∧
    ((serviceAt addressed removeThird 17).servers 1).addrs 3 = none := by
  refine ⟨isRun_serviceAt (by decide +kernel), by decide, ?_⟩
  decide +kernel

end Server
end DistKV
