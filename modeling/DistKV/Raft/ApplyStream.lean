import Mathlib.Data.List.Perm.Basic
import Mathlib.Tactic.IntervalCases
import DistKV.Raft.Progress

/-!
# The apply stream

Two goroutines send on `applyCh` outside the mutex: the applier, which has collected a batch, and
every `HandleInstallSnapshot` that has a snapshot to announce. Each has already moved
`lastApplied` when it waits to send.

The messages that wait, in the order in which they were made, always continue the stream
(`Streaming`). What is received is in order exactly as long as they are sent in that order, and
as long as no snapshot is installed that is not above `lastApplied`. Neither is guaranteed: a
snapshot can overtake the batch collected before it (`snapshot_overtakes_batch`).
-/

namespace DistKV
namespace Raft

open Run (IsRun)

/-! ## Streams -/

/-- `m` may follow a message with index `prev`. -/
def ApplyMsg.Follows (prev : Nat) : ApplyMsg → Prop
  | .command _ index _ => index = prev + 1
  | .confChange _ index _ => index = prev + 1
  | .snapshot _ index _ => prev < index

/-- Gap-free and forward only, from `base` on. -/
def Stream (base : Nat) : List ApplyMsg → Prop
  | [] => True
  | m :: ms => m.Follows base ∧ Stream m.index ms

/-- The index of the last message, `base` if there is none. -/
def lastIndexFrom (base : Nat) : List ApplyMsg → Nat
  | [] => base
  | m :: ms => lastIndexFrom m.index ms

theorem ApplyMsg.Follows.lt {prev : Nat} {m : ApplyMsg} (h : m.Follows prev) : prev < m.index := by
  cases m with
  | command _ index _ => exact Nat.lt_of_lt_of_eq (Nat.lt_succ_self _) h.symm
  | confChange _ index _ => exact Nat.lt_of_lt_of_eq (Nat.lt_succ_self _) h.symm
  | snapshot _ index _ => exact h

section Streams

variable {base : Nat} {ms ms' : List ApplyMsg}

theorem stream_append :
    Stream base (ms ++ ms') ↔ Stream base ms ∧ Stream (lastIndexFrom base ms) ms' := by
  induction ms generalizing base with
  | nil => simp [Stream, lastIndexFrom]
  | cons m ms ih => simp [Stream, lastIndexFrom, ih, and_assoc]

theorem lastIndexFrom_append :
    lastIndexFrom base (ms ++ ms') = lastIndexFrom (lastIndexFrom base ms) ms' := by
  induction ms generalizing base with
  | nil => rfl
  | cons m ms ih => exact ih

/-- Everything in a stream is above its base. -/
theorem Stream.base_lt (h : Stream base ms) : ∀ m ∈ ms, base < m.index := by
  induction ms generalizing base with
  | nil => intro m hm; cases hm
  | cons x xs ih =>
    intro m hm
    rcases List.mem_cons.mp hm with rfl | hm
    · exact h.1.lt
    · exact Nat.lt_trans h.1.lt (ih h.2 m hm)

/-- A stream leaves nothing out: every index up to its last has a message, or a snapshot covers it. -/
theorem Stream.covers (h : Stream base ms) {index : Nat} (hlt : base < index)
    (hle : index ≤ lastIndexFrom base ms) :
    ∃ m ∈ ms, m.index = index ∨ ∃ data above term, m = .snapshot data above term ∧ index ≤ above := by
  induction ms generalizing base with
  | nil => exact absurd hle (Nat.not_le_of_lt hlt)
  | cons m ms ih =>
    rcases Nat.lt_or_ge m.index index with hafter | hbefore
    · obtain ⟨m', hm', hcover⟩ := ih h.2 hafter hle
      exact ⟨m', List.mem_cons_of_mem _ hm', hcover⟩
    refine ⟨m, List.mem_cons_self, ?_⟩
    have hnext := h.1
    cases m with
    | snapshot data above term => exact .inr ⟨data, above, term, rfl, hbefore⟩
    | command data above term =>
      obtain rfl : above = base + 1 := hnext
      exact .inl (Nat.le_antisymm hlt hbefore)
    | confChange cc above term =>
      obtain rfl : above = base + 1 := hnext
      exact .inl (Nat.le_antisymm hlt hbefore)

/-- A message below which nothing waits is the first of the stream. -/
theorem Stream.head_of_least (h : Stream base ms) {m : ApplyMsg} {rest : List ApplyMsg}
    (hp : ms.Perm (m :: rest)) (hleast : ∀ w ∈ rest, ¬w.index < m.index) :
    ∃ ms', ms = m :: ms' ∧ ms'.Perm rest := by
  cases ms with
  | nil => exact absurd hp.length_eq (by simp)
  | cons x xs =>
    have hx : x = m := by
      by_contra hne
      have hxr : x ∈ rest := by
        rcases List.mem_cons.mp (hp.mem_iff.mp List.mem_cons_self) with h | h
        · exact absurd h hne
        · exact h
      have hmx : m ∈ xs := by
        rcases List.mem_cons.mp (hp.mem_iff.mpr List.mem_cons_self) with h | h
        · exact absurd h.symm hne
        · exact h
      exact hleast x hxr (h.2.base_lt m hmx)
    subst hx
    exact ⟨xs, rfl, hp.cons_inv⟩

end Streams

/-! ## What the sections hand over -/

section Sections

variable {n m : Node} {eff : Effect}

theorem applyEntry_follows {e : Entry} {prev : Nat} (he : e.index = prev + 1) :
    (n.applyEntry e).2.Follows prev ∧ (n.applyEntry e).2.index = prev + 1 := by
  rw [Node.applyEntry]
  split
  · exact ⟨he, he⟩
  · exact ⟨he, he⟩

/-- An applied entry changes the configuration at most. -/
theorem applyEntry_log (e : Entry) : (n.applyEntry e).1.store.log = n.store.log ∧
    (n.applyEntry e).1.store.snapIndex = n.store.snapIndex := by
  rw [Node.applyEntry]
  split
  · next cc _ _ =>
    rcases Node.applyConfChangeLocked_store (n := n) cc with hs | ⟨c, hs⟩
    · rw [hs]; exact ⟨rfl, rfl⟩
    · rw [hs, DiskStorage.setConfState, andThen]
      split <;> exact ⟨rfl, rfl⟩
  · exact ⟨rfl, rfl⟩

/-- The applier collects the continuation of what it has applied. -/
theorem collectLoop_stream {fuel : Nat} {msgs : List ApplyMsg}
    (h : Node.collectLoop fuel n = some (m, msgs)) (hs : Chain n.store.snapIndex n.store.log)
    (ha : n.store.snapIndex ≤ n.lastApplied) :
    Stream n.lastApplied msgs ∧ lastIndexFrom n.lastApplied msgs = m.lastApplied := by
  induction fuel generalizing n m msgs with
  | zero =>
    obtain ⟨rfl, rfl⟩ := Prod.mk.inj (Option.some.inj h)
    exact ⟨trivial, rfl⟩
  | succ fuel ih =>
    rw [Node.collectLoop] at h
    split at h
    swap
    · obtain ⟨rfl, rfl⟩ := Prod.mk.inj (Option.some.inj h)
      exact ⟨trivial, rfl⟩
    simp only at h
    split at h
    · next hlt => rw [DiskStorage.firstIndex] at hlt; omega
    · split at h
      · cases h
      · next e he =>
        obtain ⟨⟨m', msgs'⟩, hrest, hq⟩ := Option.map_eq_some_iff.mp h
        obtain ⟨rfl, rfl⟩ := Prod.mk.inj hq
        obtain ⟨hfol, hidx⟩ := applyEntry_follows (n := n) (entryAt_index hs he)
        obtain ⟨hlog, hsnap⟩ := applyEntry_log (n := n) e
        obtain ⟨h1, h2⟩ := ih hrest (by rw [hlog, hsnap]; exact hs)
          (by rw [hsnap]; exact Nat.le_succ_of_le ha)
        refine ⟨⟨hfol, ?_⟩, ?_⟩
        · rw [hidx]; exact h1
        · rw [lastIndexFrom, hidx]; exact h2

/-- What a section adds to the messages that wait, with the index they lead to. -/
theorem exec_waits {op : NodeOp} (h : n.exec op = some (m, eff))
    (hs : Chain n.store.snapIndex n.store.log) (ha : n.store.snapIndex ≤ n.lastApplied) :
    (op = .collect ∧ eff.install = none ∧ Stream n.lastApplied eff.collected ∧
      lastIndexFrom n.lastApplied eff.collected = m.lastApplied) ∨
    (∃ req, op = .handle (.installSnapshot req) ∧ n.store.term ≤ req.term ∧
      n.store.snapIndex < req.lastIncludedIndex ∧ m.lastApplied = req.lastIncludedIndex ∧
      eff.install = some (.snapshot req.data req.lastIncludedIndex req.lastIncludedTerm)) ∨
    (op ≠ .collect ∧ m.lastApplied = n.lastApplied ∧ eff.install = none) := by
  by_cases hc : op = .collect
  · subst hc
    obtain ⟨hcol, hin⟩ := Node.exec_collect h
    exact .inl ⟨rfl, hin, collectLoop_stream hcol hs ha⟩
  by_cases hi : ∃ req, op = .handle (.installSnapshot req)
  · obtain ⟨req, rfl⟩ := hi
    have hinst := Node.exec_install h
    generalize eff.install = msg at hinst ⊢
    cases hinst with
    | refused frame _ => exact .inr (.inr ⟨hc, frame.applied, rfl⟩)
    | failed _ _ _ _ applied => exact .inr (.inr ⟨hc, applied, rfl⟩)
    | installed term above _ _ _ applied => exact .inr (.inl ⟨req, rfl, term, above, applied, rfl⟩)
  · have hop : ∀ req, op ≠ .handle (.installSnapshot req) := fun req hreq => hi ⟨req, hreq⟩
    exact .inr (.inr ⟨hc, (Node.exec_frame h hc hop).applied, Node.exec_no_install h hop⟩)

end Sections

/-! ## The snapshot is behind the applier -/

/-- A process that still runs has applied what its snapshot covers. -/
def AppliedNode (_ : Nat) (n : Node) : Prop := n.locked = false → n.store.snapIndex ≤ n.lastApplied

theorem StoreStep.snapIndex_le {i bound : Nat} {conf : ConfState} {op : NodeOp} {s s' : DiskStorage}
    (h : StoreStep i conf op s s') (hs : s.snapIndex ≤ bound)
    (hinstall : ∀ req, op = .handle (.installSnapshot req) → req.lastIncludedIndex ≤ bound)
    (hcompact : ∀ index data, op = .snapshot index data → index ≤ bound) :
    s'.snapIndex ≤ bound := by
  cases h with
  | stepDown term later => rw [setHardState_snapIndex]; exact hs
  | campaign member => rw [setHardState_snapIndex]; exact hs
  | vote req request current free => rw [setHardState_snapIndex]; exact hs
  | entry e next current type => rw [(appendEntries_head _).snapIndex]; exact hs
  | accept req request current reaches => rw [(appendEntries_head _).snapIndex]; exact hs
  | sync => rw [sync_head.snapIndex]; exact hs
  | install req request current =>
    rcases (saveSnapshot_head (s := s) _ _ req.data req.confState).2.2 with h | ⟨-, h⟩
    · rw [h]; exact hs
    · rw [h]; exact hinstall req request
  | compact index term data request held =>
    rcases (saveSnapshot_head (s := s) index term data conf).2.2 with h | ⟨-, h⟩
    · rw [h]; exact hs
    · rw [h]; exact hcompact index data request
  | applied request e held type c => rw [(setConfState_head c).2.2]; exact hs

theorem exec_applied {n m : Node} {op : NodeOp} {eff : Effect} (h : n.exec op = some (m, eff))
    (ha : n.store.snapIndex ≤ n.lastApplied) (hlock : m.locked = false) :
    m.store.snapIndex ≤ m.lastApplied := by
  have hsteps := Node.exec_store h
  have hkeep : ∀ bound, n.store.snapIndex ≤ bound →
      (∀ req, op = .handle (.installSnapshot req) → req.lastIncludedIndex ≤ bound) →
      (∀ index data, op = .snapshot index data → index ≤ bound) → m.store.snapIndex ≤ bound :=
    fun bound h0 h1 h2 => hsteps.keep (P := fun s => s.snapIndex ≤ bound) h0
      fun hstep hs => hstep.snapIndex_le hs h1 h2
  by_cases hi : ∃ req, op = .handle (.installSnapshot req)
  · obtain ⟨req, rfl⟩ := hi
    have hinst := Node.exec_install h
    generalize eff.install = msg at hinst
    cases hinst with
    | refused frame snapIndex => rw [snapIndex, frame.applied]; exact ha
    | failed locked _ _ _ _ => rw [locked] at hlock; cases hlock
    | installed _ above _ _ _ applied =>
      rw [applied]
      refine hkeep _ (Nat.le_of_lt above) ?_ (by simp)
      intro req' hreq
      cases hreq
      exact Nat.le_refl _
  by_cases hc : op = .collect
  · subst hc
    obtain ⟨-, -, -, hle⟩ := Node.collectLoop_frame (Node.exec_collect h).1
    exact Nat.le_trans (hkeep _ ha (by simp) (by simp)) hle
  rw [(Node.exec_frame h hc fun req hreq => hi ⟨req, hreq⟩).applied]
  by_cases hs : ∃ index data, op = .snapshot index data ∧ n.lastApplied < index
  · -- the snapshot is beyond what was applied and is refused
    obtain ⟨index, data, rfl, hlt⟩ := hs
    have hex := h
    simp only [Node.exec, Node.exec_unlocked h, Bool.false_eq_true, if_false, Node.snapshot,
      if_pos hlt] at hex
    obtain ⟨rfl, -⟩ := Prod.mk.inj (Option.some.inj hex)
    exact ha
  · refine hkeep _ ha (fun req hreq => absurd ⟨req, hreq⟩ hi) fun index data hop => ?_
    exact Nat.le_of_not_lt fun hlt => hs ⟨index, data, hop, hlt⟩

theorem open_of_exec {n m : Node} {faults : List Bool} {op : NodeOp} {eff : Effect}
    (h : (n.withFaults faults).exec op = some (m, eff)) : n.locked = false := by
  have hlock := Node.exec_unlocked h
  exact hlock

theorem appliedRule (cfg : Config) : Rule cfg (fun _ _ _ => True) { node := AppliedNode } where
  init _ _ := Nat.le_refl _
  files _ := trivial
  recover _ _ _ := Nat.le_refl _
  exec _ hn _ _ hex :=
    ⟨fun hl => exec_applied hex (hn (open_of_exec hex)) hl, fun _ _ => trivial,
      fun _ _ _ => trivial, fun _ _ => ⟨trivial, trivial⟩, fun _ _ _ _ => trivial⟩
  read _ _ _ _ _ _ _ _ := ⟨trivial, trivial⟩

/-! ## Runs -/

/-- The action sends a message of process `i` while one with a smaller index waits. -/
def Action.Overtakes (c : Cluster) (i : Nat) : Action → Prop
  | .emit j => j = i ∧ ∃ m rest, (c.procs i).batch = m :: rest ∧
      ∃ q ∈ (c.procs i).installs, q.2.2.index < m.index
  | .emitInstall j k => j = i ∧ ∃ q, (c.procs i).installs[k]? = some q ∧
      ((∃ m ∈ (c.procs i).batch, m.index < q.2.2.index) ∨
        ∃ q' ∈ (c.procs i).installs, q'.2.2.index < q.2.2.index)
  | _ => False

/-- The action delivers to process `i` a snapshot that it will install although it is not above
    `lastApplied`. -/
def Action.Reapplies (c : Cluster) (i : Nat) (act : Action) : Prop :=
  ∃ k faults call req, act = .run (.deliver k) faults ∧ c.calls[k]? = some call ∧ call.dest = i ∧
    call.req = .installSnapshot req ∧ (c.node i).store.term ≤ req.term ∧
    (c.node i).store.snapIndex < req.lastIncludedIndex ∧
    req.lastIncludedIndex ≤ (c.node i).lastApplied

/-- The applier alone sends in order. -/
theorem Action.not_overtakes {c : Cluster} {i : Nat} {act : Action}
    (h : (c.procs i).installs = []) : ¬act.Overtakes c i := by
  cases act with
  | emit j =>
    rintro ⟨-, m, rest, -, q, hq, -⟩
    rw [h] at hq
    cases hq
  | emitInstall j k =>
    rintro ⟨-, q, hq, -⟩
    rw [h] at hq
    cases hq
  | _ => exact id

theorem Action.not_reapplies {c : Cluster} {i : Nat} {act : Action}
    (h : ∀ call ∈ c.calls, call.dest ≠ i) : ¬act.Reapplies c i := by
  rintro ⟨k, faults, call, req, -, hk, hd, -⟩
  exact h call (List.mem_of_getElem? hk) hd

/-- The messages that wait, in the order in which they were made, continue what has been sent
    and lead to `lastApplied`. -/
structure Streaming (p : Process) : Prop where
  sorted : p.batch.Pairwise fun m m' => m.index < m'.index
  waits : ∃ pend, Stream p.startIndex (p.applyCh ++ pend) ∧
    lastIndexFrom p.startIndex (p.applyCh ++ pend) = p.node.lastApplied ∧
    pend.Perm (p.batch ++ p.installs.map (·.2.2))

theorem Streaming.start (cfg : Config) (i : Nat) (store : DiskStorage) :
    Streaming (Process.start cfg i store) :=
  ⟨List.Pairwise.nil, [], trivial, rfl, List.Perm.nil⟩

/-- The least of the waiting messages is sent. -/
theorem Streaming.send {p : Process} (h : Streaming p) {m : ApplyMsg} {batch : List ApplyMsg}
    {installs : List (Nat × Response × ApplyMsg)}
    (hp : (p.batch ++ p.installs.map (·.2.2)).Perm (m :: (batch ++ installs.map (·.2.2))))
    (hsorted : batch.Pairwise fun m m' => m.index < m'.index)
    (hleast : ∀ w ∈ batch ++ installs.map (·.2.2), ¬w.index < m.index) :
    Streaming { p with batch := batch, installs := installs, applyCh := p.applyCh ++ [m] } := by
  obtain ⟨pend, hstream, hlast, hperm⟩ := h.waits
  obtain ⟨pend', rfl, hperm'⟩ :=
    (stream_append.mp hstream).2.head_of_least (hperm.trans hp) hleast
  refine ⟨hsorted, pend', ?_, ?_, hperm'⟩
  · rw [List.append_assoc]; exact hstream
  · rw [List.append_assoc]; exact hlast

/-- New messages wait behind the ones that already do. -/
theorem Streaming.wait {p : Process} (h : Streaming p) {n : Node} (new : List ApplyMsg)
    {batch : List ApplyMsg} {installs : List (Nat × Response × ApplyMsg)}
    (hnew : Stream p.node.lastApplied new)
    (hlast : lastIndexFrom p.node.lastApplied new = n.lastApplied)
    (hp : (batch ++ installs.map (·.2.2)).Perm (p.batch ++ p.installs.map (·.2.2) ++ new))
    (hsorted : batch.Pairwise fun m m' => m.index < m'.index) :
    Streaming { p with node := n, batch := batch, installs := installs } := by
  obtain ⟨pend, hstream, hto, hperm⟩ := h.waits
  refine ⟨hsorted, pend ++ new, ?_, ?_, (hperm.append_right new).trans hp.symm⟩
  · rw [← List.append_assoc]
    exact stream_append.mpr ⟨hstream, by rw [hto]; exact hnew⟩
  · rw [← List.append_assoc, lastIndexFrom_append, hto]
    exact hlast

theorem Stream.sorted {base : Nat} {ms : List ApplyMsg} (h : Stream base ms) :
    ms.Pairwise fun m m' => m.index < m'.index := by
  induction ms generalizing base with
  | nil => exact List.Pairwise.nil
  | cons m ms ih => exact List.Pairwise.cons (h.2.base_lt) (ih h.2)

theorem Streaming.sent {p : Process} (h : Streaming p) : Stream p.startIndex p.applyCh := by
  obtain ⟨pend, hstream, -⟩ := h.waits
  exact (stream_append.mp hstream).1

/-- A handler answers. -/
theorem exec_handle_resp {n m : Node} {req : Request} {eff : Effect}
    (h : n.exec (.handle req) = some (m, eff)) : ∃ resp, eff.resp = some resp := by
  have hlock := Node.exec_unlocked h
  simp only [Node.exec, hlock, Bool.false_eq_true, if_false] at h
  obtain ⟨-, rfl⟩ := Prod.mk.inj (Option.some.inj h)
  cases req <;> exact ⟨_, rfl⟩

/-- **One section** leaves the waiting messages in order, unless it installs a snapshot that
    is not ahead of the applier. -/
theorem Streaming.section {c : Cluster} {e : Event} {i : Nat} {op : NodeOp} {faults : List Bool}
    {n : Node} {eff : Effect} (h : Streaming (c.procs i)) (hres : c.resolve e = some (i, op))
    (hex : ((c.node i).withFaults faults).exec op = some (n, eff))
    (hs : Chain (c.node i).store.snapIndex (c.node i).store.log)
    (ha : (c.node i).store.snapIndex ≤ (c.node i).lastApplied)
    (hahead : ∀ req, op = .handle (.installSnapshot req) → (c.node i).store.term ≤ req.term →
      (c.node i).store.snapIndex < req.lastIncludedIndex →
      (c.node i).lastApplied < req.lastIncludedIndex) :
    Streaming ((c.procs i).next e n eff) := by
  rcases exec_waits hex hs ha with ⟨rfl, hnone, hstream, hlast⟩ |
    ⟨req, rfl, hterm, hsnap, hlast, hmsg⟩ | ⟨hop, hlast, hnone⟩
  · cases resolve_cases hres with
    | collect _ sent =>
      refine h.wait _ hstream hlast ?_ hstream.sorted
      rw [sent]
      exact List.perm_append_comm
  · obtain ⟨k, call, rfl, -⟩ := resolve_handle hres
    obtain ⟨resp, hresp⟩ := exec_handle_resp hex
    have hnext : (c.procs i).next (.deliver k) n eff = { c.procs i with
        node := n
        installs := (c.procs i).installs ++
          [(k, resp, .snapshot req.data req.lastIncludedIndex req.lastIncludedTerm)] } := by
      simp only [Process.next, hresp, hmsg]
    rw [hnext]
    refine h.wait [.snapshot req.data req.lastIncludedIndex req.lastIncludedTerm]
      ⟨hahead req rfl hterm hsnap, trivial⟩ hlast.symm ?_ h.sorted
    rw [List.map_append, ← List.append_assoc]
    exact List.Perm.refl _
  · have hnext : (c.procs i).next e n eff = { c.procs i with node := n } := by
      cases resolve_cases hres with
      | collect _ sent => exact absurd rfl hop
      | deliver k call held => cases hr : eff.resp <;> simp only [Process.next, hnone, hr]
      | _ => rfl
    rw [hnext]
    refine h.wait [] trivial hlast.symm ?_ h.sorted
    rw [List.append_nil]

theorem step_streaming {cfg : Config} {c c' : Cluster} {act : Action} {i : Nat}
    (h : Streaming (c.procs i)) (hs : c.step cfg act = some c')
    (hchain : Chain (c.node i).store.snapIndex (c.node i).store.log)
    (happ : AppliedNode i (c.node i)) (hov : ¬act.Overtakes c i) (hre : ¬act.Reapplies c i) :
    Streaming (c'.procs i) := by
  cases act with
  | run e faults =>
    obtain ⟨j, n, eff, ho, rfl⟩ := step_run hs
    obtain ⟨op, hres, -, hex⟩ := outcome_some ho
    rw [procs_finishSection, Function.update_apply]
    split
    swap
    · exact h
    next hij =>
    subst hij
    have hopen := open_of_exec hex
    refine h.section hres hex hchain (happ hopen) fun req hop hterm hsnap => ?_
    subst hop
    obtain ⟨k, call, rfl, hk, hd, hreq⟩ := resolve_handle hres
    exact Nat.lt_of_not_le fun hle =>
      hre ⟨k, faults, call, req, rfl, hk, hd, hreq, hterm, hsnap, hle⟩
  | restart j d f p k =>
    obtain ⟨-, files, store, -, -, rfl⟩ := step_restart hs
    simp only [Cluster.restarted, Function.update_apply]
    split
    · next hij => subst hij; exact Streaming.start cfg i store
    · exact h
  | emit j =>
    simp only [Cluster.step] at hs
    split at hs
    · cases hs
    next m rest hbatch =>
    obtain rfl := Option.some.inj hs
    simp only [Cluster.setProc, Function.update_apply]
    split
    swap
    · exact h
    next hij =>
    subst hij
    have hsorted := h.sorted
    rw [hbatch, List.pairwise_cons] at hsorted
    refine h.send (by rw [hbatch]; exact List.Perm.refl _) hsorted.2 fun w hw hlt => ?_
    rcases List.mem_append.mp hw with hw | hw
    · exact Nat.lt_asymm hlt (hsorted.1 w hw)
    · obtain ⟨q, hq, rfl⟩ := List.mem_map.mp hw
      exact hov ⟨rfl, m, rest, hbatch, q, hq, hlt⟩
  | emitInstall j k =>
    obtain ⟨q, hq, rfl⟩ := Option.map_eq_some_iff.mp hs
    simp only [Cluster.setProc, Function.update_apply]
    split
    swap
    · exact h
    next hij =>
    subst hij
    have hperm : ((c.procs i).installs.map (·.2.2)).Perm
        (q.2.2 :: ((c.procs i).installs.eraseIdx k).map (·.2.2)) := by
      obtain ⟨hk, rfl⟩ := List.getElem?_eq_some_iff.mp hq
      exact ((List.getElem_cons_eraseIdx_perm hk).symm).map (·.2.2)
    refine h.send ((hperm.append_left _).trans List.perm_middle) h.sorted fun w hw hlt => ?_
    rcases List.mem_append.mp hw with hw | hw
    · exact hov ⟨rfl, q, hq, .inl ⟨w, hw, hlt⟩⟩
    · obtain ⟨q', hq', rfl⟩ := List.mem_map.mp hw
      exact hov ⟨rfl, q, hq, .inr ⟨q', List.mem_of_mem_eraseIdx hq', hlt⟩⟩
  | _ =>
    rw [silent_procs hs rfl (by simp) (by simp) (by simp)]
    exact h

theorem streaming_run {cfg : Config} {σ : Nat → Cluster} {α : Nat → Option Action}
    (hrun : IsRun (Cluster.step cfg) (Cluster.init cfg) σ α) {i k : Nat}
    (inTurn : ∀ t act, t < k → α t = some act → ¬act.Overtakes (σ t) i)
    (ahead : ∀ t act, t < k → α t = some act → ¬act.Reapplies (σ t) i) :
    Streaming ((σ k).procs i) := by
  refine hrun.invariant_until (P := fun c => Streaming (c.procs i)) (j := 0) ?_
    (fun t act _ ht ha hprev => ?_) (Nat.zero_le k)
  · rw [hrun.start]
    exact Streaming.start cfg i _
  · have hchain := ((chainRule cfg).run hrun (fun _ _ _ _ _ _ _ _ _ => trivial) t).node i
    have happ := ((appliedRule cfg).run hrun (fun _ _ _ _ _ _ _ _ _ => trivial) t).node i
    exact step_streaming hprev (hrun.next t act ha) hchain.2.chain happ (inTurn t act ht ha)
      (ahead t act ht ha)

/-- **The apply stream is gap-free and forward only** as long as the waiting messages are sent
    in the order of their indices and no snapshot is installed that is not above `lastApplied`. -/
theorem apply_stream_ordered (cfg : Config) (σ : Nat → Cluster) (α : Nat → Option Action)
    (hrun : IsRun (Cluster.step cfg) (Cluster.init cfg) σ α) (i k : Nat)
    (inTurn : ∀ t act, t < k → α t = some act → ¬act.Overtakes (σ t) i)
    (ahead : ∀ t act, t < k → α t = some act → ¬act.Reapplies (σ t) i) :
    Stream ((σ k).procs i).startIndex ((σ k).procs i).applyCh :=
  (streaming_run hrun inTurn ahead).sent

/-- The applier of node 3 and its handler both have something to send, and the applier goes first. -/
def batchThenSnapshot : List Action := snapshotAhead ++ [.emit 3, .emit 3, .emitInstall 3 0]

def Action.announces : Action → Bool
  | .emitInstall .. => true
  | _ => false

/-- Two commands of one batch and the snapshot that waited next to them arrive in order. -/
theorem apply_stream_ordered_batch :
    ((stateAt batchThenSnapshot 32).procs 3).batch = [.command [] 1 1, .command [7] 2 1] ∧
    ((stateAt batchThenSnapshot 32).procs 3).installs.map (·.2.2) = [.snapshot [9] 3 1] ∧
    ((stateAt batchThenSnapshot 35).procs 3).applyCh =
      [.command [] 1 1, .command [7] 2 1, .snapshot [9] 3 1] ∧
    Stream ((stateAt batchThenSnapshot 35).procs 3).startIndex
      ((stateAt batchThenSnapshot 35).procs 3).applyCh := by
  have hwait : ∀ t < 35, ∀ q ∈ ((stateAt batchThenSnapshot t).procs 3).installs, q.2.2.index = 3 ∧
      ∀ m ∈ ((stateAt batchThenSnapshot t).procs 3).batch, m.index < 3 := by decide +kernel
  have hlast : ∀ t < 35, ∀ act ∈ batchThenSnapshot[t]?, act.announces = true →
      ((stateAt batchThenSnapshot t).procs 3).batch = [] := by decide +kernel
  have hahead : ∀ t < 35, ∀ call ∈ (stateAt batchThenSnapshot t).calls, call.dest = 3 →
      ∀ snap ∈ call.req.snapshot?,
        snap.lastIncludedIndex ≤ ((stateAt batchThenSnapshot t).node 3).store.snapIndex ∨
        ((stateAt batchThenSnapshot t).node 3).lastApplied < snap.lastIncludedIndex := by
    decide +kernel
  have hrun : IsRun (Cluster.step threeNodes) (Cluster.init threeNodes) (stateAt batchThenSnapshot)
      (fun k => batchThenSnapshot[k]?) := isRun_stateAt (by decide +kernel)
  refine ⟨by decide +kernel, by decide +kernel, by decide +kernel, ?_⟩
  -- the states are not to be computed any more
  generalize stateAt batchThenSnapshot = σ at *
  refine apply_stream_ordered threeNodes σ _ hrun 3 35 ?_ ?_
  · intro t act ht hact
    cases act with
    | emit j =>
      rintro ⟨-, m, rest, hb, q, hq, hlt⟩
      obtain ⟨hindex, hbatch⟩ := hwait t ht q hq
      have hm := hbatch m (by rw [hb]; exact List.mem_cons_self)
      omega
    | emitInstall j k =>
      rintro ⟨-, q, hq, ⟨m, hm, -⟩ | ⟨q', hq', hlt⟩⟩
      · rw [hlast t ht _ hact rfl] at hm
        cases hm
      · rw [(hwait t ht q' hq').1, (hwait t ht q (List.mem_of_getElem? hq)).1] at hlt
        omega
    | _ => exact id
  · rintro t act ht - ⟨k, faults, call, req, -, hk, hd, hreq, -, hsnap, hle⟩
    have := hahead t ht call (List.mem_of_getElem? hk) hd req (by rw [hreq]; rfl)
    omega

/-- The same with the handler first. -/
def snapshotMidBatch : List Action := snapshotAhead ++ [.emitInstall 3 0, .emit 3]

/-- The handler sends its message before the applier does: 1 comes after 3. -/
theorem snapshot_overtakes_batch :
    IsRun (Cluster.step threeNodes) (Cluster.init threeNodes) (stateAt snapshotMidBatch)
      (fun k => snapshotMidBatch[k]?) ∧
    ((stateAt snapshotMidBatch 34).procs 3).applyCh = [.snapshot [9] 3 1, .command [] 1 1] ∧
    ¬Stream ((stateAt snapshotMidBatch 34).procs 3).startIndex
      ((stateAt snapshotMidBatch 34).procs 3).applyCh := by
  have hch : ((stateAt snapshotMidBatch 34).procs 3).applyCh =
      [.snapshot [9] 3 1, .command [] 1 1] := by decide +kernel
  refine ⟨isRun_stateAt (by decide +kernel), hch, ?_⟩
  rw [hch]
  rintro ⟨-, hfollows, -⟩
  cases hfollows

end Raft
end DistKV
