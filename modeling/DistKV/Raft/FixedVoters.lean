import DistKV.Raft.Chain
import DistKV.Raft.Quorum

/-!
# Runs without configuration changes

If no configuration change is ever accepted from a client, then no log, no WAL and no message
contains one, and every node, every snapshot and every recovery has the configuration the cluster
was started with. Storage failures make no difference.
-/

namespace DistKV
namespace Raft

/-! ## The condition on a run -/

/-- `ProposeConfChange` would append an entry for `cc`. -/
def Node.AcceptsConfChange (n : Node) (cc : ConfChange) : Prop :=
  n.role = .leader ∧ (cc.type ≠ .leaveJoint → n.conf.inJoint = false) ∧
    (n.conf.applyConfChange cc).isOk = true

/-- The action runs a `ProposeConfChange` that is accepted. -/
def Action.Reconfigures (c : Cluster) (act : Action) : Prop :=
  ∃ p ∈ act.section?, ∃ i cc, p.1 = .proposeConfChange i cc ∧ (c.node i).AcceptsConfChange cc

def noConfChange (n : Node) (op : NodeOp) (_ : List Bool) : Prop :=
  ∀ cc, op = .proposeConfChange cc → ¬n.AcceptsConfChange cc

theorem Action.within_noConfChange {c : Cluster} {act : Action} (h : ¬act.Reconfigures c) :
    act.Within noConfChange c := by
  rintro e faults i op hsec hres cc rfl hacc
  cases resolve_cases hres with
  | proposeConfChange i cc => exact h ⟨_, hsec, i, cc, rfl, hacc⟩

def Event.proposesConfChange : Event → Bool
  | .proposeConfChange _ _ => true
  | _ => false

theorem Action.not_reconfigures {act : Action}
    (h : ∀ p ∈ act.section?, p.1.proposesConfChange = false) (c : Cluster) :
    ¬act.Reconfigures c := by
  rintro ⟨p, hp, i, cc, hprop, -⟩
  have hno := h p hp
  rw [hprop] at hno
  cases hno

/-- A list of actions that propose no change and do not fail. -/
theorem Action.calm_of_mem {acts : List Action}
    (hall : ∀ act ∈ acts, (∀ p ∈ act.section?, p.1.proposesConfChange = false) ∧ act.FaultFree)
    {k : Nat} {act : Action} (h : acts[k]? = some act) (c : Cluster) :
    ¬act.Reconfigures c ∧ act.FaultFree := by
  obtain ⟨hno, hfree⟩ := hall act (List.mem_of_getElem? h)
  exact ⟨Action.not_reconfigures hno c, hfree⟩

/-- A change that is turned down leaves the node alone. -/
theorem Node.proposeConfChange_rejected {n : Node} {cc : ConfChange}
    (h : ¬n.AcceptsConfChange cc) : ∃ err, n.proposeConfChange cc = (n, .error err) := by
  rw [proposeConfChange]
  split
  · exact ⟨_, rfl⟩
  next hrole =>
  split
  · exact ⟨_, rfl⟩
  next hjoint =>
  split
  · exact ⟨_, rfl⟩
  next hok =>
  refine absurd ⟨by simpa using hrole, fun hleave => ?_, by rw [hok]; rfl⟩ h
  cases hj : n.conf.inJoint with
  | false => rfl
  | true => exact absurd ⟨hleave, hj⟩ hjoint

/-- A change that is accepted is appended. -/
theorem Node.proposeConfChange_accepted {n : Node} {cc : ConfChange}
    (h : n.AcceptsConfChange cc) :
    n.proposeConfChange cc = n.appendEntryLocked
      { term := n.store.term, index := n.store.lastIndex + 1, type := .confChange,
        confChange := some cc } := by
  obtain ⟨hl, hjoint, hok⟩ := h
  have hnot : ¬(cc.type ≠ .leaveJoint ∧ n.conf.inJoint = true) := by
    rintro ⟨hleave, hin⟩
    rw [hjoint hleave] at hin
    cases hin
  rw [proposeConfChange, if_neg (by rw [hl]; simp), if_neg hnot]
  cases hc : n.conf.applyConfChange cc with
  | error err =>
    rw [hc] at hok
    cases hok
  | ok conf => rfl

/-! ## Storage -/

/-- The record does not change the configuration `conf`. -/
def WalRecord.Keeps (conf : ConfState) : WalRecord → Prop
  | .append e => e.type = .normal
  | .confState c => c = conf
  | _ => True

structure FixedFiles (conf : ConfState) (f : Files) : Prop where
  records : ∀ r ∈ f.records, r.Keeps conf
  snapshot : ∀ c, f.snapshotConf = some c → c = conf

structure FixedStore (c : ConfState) (s : DiskStorage) : Prop where
  conf : s.conf = c
  log : ∀ e ∈ s.log, e.type = .normal
  files : FixedFiles c s.disk.files

section Calls

variable {conf : ConfState} {s : DiskStorage}

theorem fixedGuard (conf : ConfState) : Guard (FixedStore conf) (FixedFiles conf) where
  quiet hd h := ⟨h.conf, h.log, by simpa only [hd] using h.files⟩
  files h := h.files
  flush {s} h := by
    refine ⟨h.conf, h.log, ⟨fun r hr => ?_, h.files.snapshot⟩⟩
    rw [DiskStorage.withFiles, Files.records_flush] at hr
    exact h.files.records r hr

theorem FixedFiles.write {f : Files} (h : FixedFiles conf f) {r : WalRecord} (hr : r.Keeps conf) :
    FixedFiles conf (f.write r) := by
  refine ⟨fun x hx => ?_, h.snapshot⟩
  rw [Files.records_write] at hx
  rcases List.mem_append.mp hx with hx | hx
  · exact h.records x hx
  · rw [List.mem_singleton.mp hx]; exact hr

theorem FixedStore.setHardState (h : Kept (FixedStore conf) (FixedFiles conf) s)
    (term votedFor : Nat) :
    Kept (FixedStore conf) (FixedFiles conf) (s.setHardState term votedFor).1 :=
  (fixedGuard conf).setHardState h ⟨h.1.conf, h.1.log, h.1.files⟩
    ⟨h.1.conf, h.1.log, h.1.files.write trivial⟩

theorem FixedStore.appendEntries (h : Kept (FixedStore conf) (FixedFiles conf) s)
    {es : List Entry} (hes : ∀ e ∈ es, e.type = .normal) :
    Kept (FixedStore conf) (FixedFiles conf) (s.appendEntries es).1 := by
  refine (fixedGuard conf).appendEntries
    (Q := fun es s => FixedStore conf s ∧ ∀ e ∈ es, e.type = .normal) (fun hq => hq.1)
    (fun hd hq => ⟨(fixedGuard conf).quiet hd hq.1, hq.2⟩) ?_ h (fun _ _ _ _ => ⟨h.1, hes⟩) ?_
  · rintro e es s ⟨hs, hnormal⟩
    have he := hnormal e List.mem_cons_self
    refine ⟨⟨hs.conf, fun x hx => ?_, hs.files.write he⟩,
      fun x hx => hnormal x (List.mem_cons_of_mem _ hx)⟩
    rcases List.mem_append.mp hx with hx | hx
    · exact hs.log x hx
    · rw [List.mem_singleton.mp hx]; exact he
  · intro e es' x _ _ _
    refine ⟨⟨h.1.conf, fun y hy => h.1.log y ?_, h.1.files.write trivial⟩, hes⟩
    exact (List.rdropWhile_prefix _ _).subset hy

theorem FixedStore.saveSnapshot (h : Kept (FixedStore conf) (FixedFiles conf) s)
    (index term : Nat) (data : Bytes) :
    Kept (FixedStore conf) (FixedFiles conf) (s.saveSnapshot index term data conf).1 := by
  have hsnap : ∀ c, some conf = some c → c = conf := fun c hc => (Option.some.inj hc).symm
  have hlog : ∀ e ∈ s.log.filter (fun e => decide (e.index > index)), e.type = .normal :=
    fun e he => h.1.log e (List.mem_of_mem_filter he)
  refine (fixedGuard conf).saveSnapshot h ?_ ?_ ?_ ?_ ?_
  · exact ⟨h.1.conf, h.1.log, h.1.files.records, h.1.files.snapshot⟩
  · exact fun _ => ⟨h.1.conf, h.1.log, h.1.files.records, h.1.files.snapshot⟩
  · exact fun _ => ⟨h.1.conf, h.1.log, h.1.files.records, hsnap⟩
  · exact fun _ => ⟨rfl, hlog, h.1.files.records, hsnap⟩
  · intro _ f _ _ hconf huns hsyn
    refine ⟨rfl, hlog, fun r hr => ?_, fun c hc => hsnap c (hconf.symm.trans hc)⟩
    rw [DiskStorage.withFiles, Files.records, huns, hsyn, List.append_nil] at hr
    rcases List.mem_cons.mp hr with rfl | hr
    · trivial
    rcases List.mem_cons.mp hr with rfl | hr
    · rfl
    obtain ⟨e, he, rfl⟩ := List.mem_map.mp hr
    exact hlog e he

end Calls

/-- What a request may carry. -/
def FixedRequest (conf : ConfState) : Request → Prop
  | .appendEntries req => ∀ e ∈ req.entries, e.type = .normal
  | .installSnapshot req => req.confState = conf
  | _ => True

theorem StoreStep.fixed {i : Nat} {conf : ConfState} {op : NodeOp} {s s' : DiskStorage}
    (h : StoreStep i conf op s s') (hreq : ∀ req, op = .handle req → FixedRequest conf req)
    (hop : ∀ cc, op ≠ .proposeConfChange cc) (hs : Kept (FixedStore conf) (FixedFiles conf) s) :
    Kept (FixedStore conf) (FixedFiles conf) s' := by
  cases h with
  | stepDown term later => exact FixedStore.setHardState hs _ _
  | campaign member => exact FixedStore.setHardState hs _ _
  | vote req request current free => exact FixedStore.setHardState hs _ _
  | entry e next current type =>
    refine FixedStore.appendEntries hs fun x hx => ?_
    rw [List.mem_singleton.mp hx]
    cases he : e.type with
    | normal => rfl
    | confChange =>
      obtain ⟨cc, hcc⟩ := type he
      exact absurd hcc (hop cc)
  | accept req request current reaches =>
    refine FixedStore.appendEntries hs fun x hx => hreq _ request x ?_
    exact (List.dropWhile_suffix _).subset hx
  | sync => exact (fixedGuard conf).sync hs
  | install req request current =>
    have hconf : req.confState = conf := hreq _ request
    rw [hconf]
    exact FixedStore.saveSnapshot hs _ _ _
  | compact index term data request held => exact FixedStore.saveSnapshot hs _ _ _
  | applied request e held type c => rw [hs.1.log e held] at type; cases type

/-! ## Recovery -/

theorem confOf_keeps {conf : ConfState} {recs : List WalRecord}
    (h : ∀ r ∈ recs, r.Keeps conf) : confOf conf recs = conf := by
  refine foldl_idle_at ?_
  intro r hr
  cases r with
  | confState c =>
    rw [replayConf]
    split
    · exact h _ hr
    · rfl
  | _ => rfl

theorem FixedFiles.recover {peers : List Nat} {f : Files}
    (h : FixedFiles (.newConfState peers) f) {keep : Nat} {s : DiskStorage}
    (ho : DiskStorage.openDiskStorage (f.crash keep) peers = some s) :
    FixedStore (.newConfState peers) s := by
  have hr := recovered_of_open ho
  have hrecs : ∀ r ∈ (f.crash keep).synced, r.Keeps (.newConfState peers) :=
    fun r hm => h.records r ((f.crash_synced keep).subset hm)
  have hsnap : (f.crash keep).snapConf peers = .newConfState peers := by
    rw [Files.snapConf]
    split
    · next c _ hc =>
      split
      · exact h.snapshot c hc
      · rfl
    · rfl
  refine ⟨?_, ?_, ?_⟩
  · rw [hr.conf, hsnap]
    exact confOf_keeps hrecs
  · intro e he
    rw [hr.log] at he
    exact hrecs _ (mem_logOf he)
  · rw [hr.disk]
    refine ⟨fun r hm => hrecs r ?_, h.snapshot⟩
    rwa [show (f.crash keep).records = (f.crash keep).synced by
      simp [Files.records, Files.crash]] at hm

/-! ## Nodes and runs -/

/-- Applying entries that are not configuration changes moves `lastApplied`. -/
theorem Node.collectLoop_normal {fuel : Nat} {n m : Node} {msgs : List ApplyMsg}
    (h : collectLoop fuel n = some (m, msgs)) (hlog : ∀ e ∈ n.store.log, e.type = .normal) :
    m = { n with lastApplied := m.lastApplied } := by
  induction fuel generalizing n m msgs with
  | zero =>
    obtain ⟨rfl, -⟩ := Prod.mk.inj (Option.some.inj h)
    rfl
  | succ fuel ih =>
    rw [collectLoop] at h
    split at h
    swap
    · obtain ⟨rfl, -⟩ := Prod.mk.inj (Option.some.inj h)
      rfl
    simp only at h
    split at h
    · have hrest := ih h hlog
      exact hrest
    split at h
    · cases h
    next e he =>
    obtain ⟨⟨m', msgs'⟩, hrest, hq⟩ := Option.map_eq_some_iff.mp h
    obtain ⟨rfl, -⟩ := Prod.mk.inj hq
    have hnormal : e.type = .normal := hlog e (mem_of_entryAt he)
    have happ : (n.applyEntry e).1 = n := by
      rw [applyEntry, hnormal]
    rw [happ] at hrest
    have hm := ih hrest hlog
    exact hm

def FixedNode (c : ConfState) (i : Nat) (n : Node) : Prop :=
  n.id = i ∧ n.conf = c ∧ FixedStore c n.store

theorem fixed_sent {c : ConfState} {n : Node} (hconf : n.conf = c) (hn : FixedStore c n.store)
    {s : Send} (hs : Sent n s) : FixedRequest c s.req := by
  cases hs with
  | vote role request => rw [request]; trivial
  | snapshot role request => rw [request]; exact hconf
  | append role next prevTerm above prev request =>
    rw [request]
    intro e he
    change e ∈ n.store.entriesFrom next at he
    rw [DiskStorage.entriesFrom] at he
    split at he
    · cases he
    · exact hn.log e (List.mem_of_mem_drop he)

/-- A section keeps the configuration unless it accepts a change of it. -/
theorem exec_fixed {c : ConfState} {i : Nat} {n m : Node} {faults : List Bool} {op : NodeOp}
    {eff : Effect} (hn : FixedNode c i n) (hok : noConfChange n op faults)
    (hreq : ∀ req, op = .handle req → FixedRequest c req)
    (hex : (n.withFaults faults).exec op = some (m, eff)) :
    FixedNode c i m ∧ ∀ f ∈ m.store.disk.trail, FixedFiles c f := by
  have hstart : Kept (FixedStore c) (FixedFiles c) (n.withFaults faults).store :=
    ⟨(fixedGuard c).quiet (b := n.store.dirty) rfl hn.2.2, by simp [Node.withFaults]⟩
  have hid : m.id = i := (Node.exec_id hex).trans hn.1
  have hlock := Node.exec_unlocked hex
  by_cases hcc : ∃ cc, op = .proposeConfChange cc
  · obtain ⟨cc, rfl⟩ := hcc
    simp only [Node.exec, hlock, Bool.false_eq_true, if_false] at hex
    obtain ⟨rfl, -⟩ := Prod.mk.inj (Option.some.inj hex)
    obtain ⟨err, hrej⟩ := Node.proposeConfChange_rejected (n := n.withFaults faults) (hok cc rfl)
    rw [hrej]
    exact ⟨⟨hn.1, hn.2.1, hstart.1⟩, hstart.2⟩
  have hkept : Kept (FixedStore c) (FixedFiles c) m.store := by
    refine (Node.exec_store hex).keep hstart fun hstep hs => ?_
    have hconf : (n.withFaults faults).conf = c := hn.2.1
    rw [hconf] at hstep
    exact hstep.fixed hreq (fun cc heq => hcc ⟨cc, heq⟩) hs
  refine ⟨⟨hid, ?_, hkept.1⟩, hkept.2⟩
  by_cases hc : op = .collect
  · subst hc
    have hm := Node.collectLoop_normal (Node.exec_collect hex).1 hn.2.2.log
    rw [hm]
    exact hn.2.1
  by_cases hi : ∃ req, op = .handle (.installSnapshot req)
  · obtain ⟨req, rfl⟩ := hi
    have hinst := Node.exec_install hex
    generalize eff.install = msg at hinst
    cases hinst with
    | refused frame _ => exact frame.conf.trans hn.2.1
    | failed _ _ conf _ _ => exact conf.trans hn.2.1
    | installed _ _ _ conf _ _ => exact conf.trans (hreq _ rfl)
  · exact (Node.exec_frame hex hc fun req hreq => hi ⟨req, hreq⟩).conf.trans hn.2.1

def fixedVoters (cfg : Config) : Assertion where
  node := FixedNode (.newConfState cfg.peers)
  files _ := FixedFiles (.newConfState cfg.peers)
  call _ _ := FixedRequest (.newConfState cfg.peers)

theorem fixedRule (cfg : Config) : Rule cfg noConfChange (fixedVoters cfg) where
  init i := ⟨rfl, rfl, rfl, List.forall_mem_nil _, List.forall_mem_nil _, fun _ h => by cases h⟩
  files h := h.2.2.files
  recover h ho := by
    have hs := h.recover ho
    exact ⟨rfl, hs.conf, hs⟩
  exec {i n faults op n' eff} _ hn hok hop hex := by
    have hreq : ∀ req, op = .handle req → FixedRequest (.newConfState cfg.peers) req := by
      rintro req rfl
      obtain ⟨_, h⟩ := hop
      exact h
    obtain ⟨hm, htrail⟩ := exec_fixed hn hok hreq hex
    exact ⟨hm, htrail, fun _ _ _ => trivial,
      fun s hs => ⟨fixed_sent hm.2.1 hm.2.2 ((Node.exec_sends hex).sent s hs), trivial⟩,
      fun _ _ _ _ => trivial⟩
  read _ _ _ _ _ _ _ hreq := ⟨by rw [hreq]; trivial, trivial⟩

end Raft
end DistKV
