import DistKV.Raft.Calm
import DistKV.Raft.Chain

/-!
# Memory and disk agree in runs without failures

As long as no storage call fails, what a node has in memory is what its files say: the hard state
and the configuration are those of the synced records, only log records wait for an fsync, and
the snapshot files are the snapshot in memory (`Clean`). A recovery always starts from such a
state, wherever the crash was.
-/

namespace DistKV
namespace Raft

/-- A configuration that survives a recovery: one without voters is taken for a missing one. -/
def ConfState.Proper (peers : List Nat) (c : ConfState) : Prop :=
  0 < c.voters.card ∨ c = .newConfState peers

theorem confOf_proper {peers : List Nat} {c : ConfState} (h : c.Proper peers)
    (recs : List WalRecord) : (confOf c recs).Proper peers := by
  induction recs using List.reverseRecOn with
  | nil => exact h
  | append_singleton recs r ih =>
    rw [confOf_append]
    cases r with
    | confState c' =>
      rw [replayConf]
      split
      · next hpos => exact .inl hpos
      · exact ih
    | _ => exact ih

theorem snapConf_proper (f : Files) (peers : List Nat) : (f.snapConf peers).Proper peers := by
  rw [Files.snapConf]
  split
  · split
    · next hpos => exact .inl hpos
    · exact .inr rfl
  · exact .inr rfl

structure Clean (peers : List Nat) (s : DiskStorage) : Prop where
  calm : s.disk.Calm
  stored : Stored s
  hard : hardOf s.disk.files.synced = (s.term, s.votedFor)
  tail : ∀ r ∈ s.disk.files.unsynced, r.IsLog
  saved : s.disk.files.snapshotMeta =
    if s.snapIndex = 0 then none else some (s.snapIndex, s.snapTerm)
  bin : s.snapIndex ≠ 0 → s.disk.files.snapshotBin = some s.snapshot
  fresh : s.snapIndex = 0 → s.snapTerm = 0 ∧ s.snapshot = [] ∧ s.disk.files.snapshotConf = none
  conf : confOf (s.disk.files.snapConf peers) s.disk.files.synced = s.conf
  proper : s.conf.Proper peers

/-- The order in which `saveSnapshot` writes: a real index into `snapshot.meta`, and
    `snapshot.conf` after it. -/
structure Files.Ordered (f : Files) : Prop where
  positive : ∀ m, f.snapshotMeta = some m → 0 < m.1
  conf : f.snapshotMeta = none → f.snapshotConf = none

/-- Files from which a clean storage can be recovered. -/
structure CleanFiles (f : Files) : Prop where
  recoverable : Recoverable f
  ordered : f.Ordered

theorem CleanFiles.recover {f : Files} (h : CleanFiles f) {keep : Nat} {peers : List Nat}
    {s : DiskStorage} (ho : DiskStorage.openDiskStorage (f.crash keep) peers = some s) :
    Clean peers s := by
  have hr := recovered_of_open ho
  have hsaved : (f.crash keep).snapshotMeta = f.snapshotMeta := rfl
  have hbin : (f.crash keep).snapshotBin = f.snapshotBin := rfl
  refine ⟨by rw [hr.disk]; exact ⟨rfl, rfl⟩, (h.recoverable.recover ho).1, ?_, ?_, ?_, ?_, ?_, ?_, ?_⟩
  · rw [hr.disk, hr.term, hr.votedFor]
  · rw [hr.disk]; exact fun r hx => absurd hx (by simp [Files.crash])
  · rw [hr.disk, hr.snapIndex, hr.snapTerm]
    cases hm : f.snapshotMeta with
    | none => simp [Files.snapIndex, Files.crash, hm]
    | some m =>
      have hpos := h.ordered.positive m hm
      simp [Files.snapIndex, Files.snapTerm, Files.crash, hm, Nat.ne_of_gt hpos]
  · intro hne
    rw [hr.snapIndex] at hne
    rw [hr.disk, hr.snapshot]
    cases hm : f.snapshotMeta with
    | none => simp [Files.snapIndex, Files.crash, hm] at hne
    | some m =>
      obtain ⟨data, hd⟩ := Option.isSome_iff_exists.mp (h.recoverable.readable (by rw [hm]; rfl))
      simp [hsaved, hbin, hm, hd]
  · intro hz
    rw [hr.snapIndex] at hz
    rw [hr.snapTerm, hr.snapshot]
    cases hm : f.snapshotMeta with
    | none =>
      rw [hr.disk]
      simp [Files.snapTerm, Files.crash, hm, h.ordered.conf hm]
    | some m =>
      have hpos := h.ordered.positive m hm
      simp [Files.snapIndex, Files.crash, hm] at hz
      omega
  · rw [hr.disk, hr.conf]
  · rw [hr.conf]; exact confOf_proper (snapConf_proper _ _) _

/-! ## The storage calls -/

section Calls

variable {peers : List Nat} {s : DiskStorage}

theorem Clean.files_snapIndex (h : Clean peers s) : s.disk.files.snapIndex = s.snapIndex := by
  rw [Files.snapIndex, h.saved]
  split
  · next hz => exact hz.symm
  · rfl

theorem Clean.files_snapTerm (h : Clean peers s) : s.disk.files.snapTerm = s.snapTerm := by
  rw [Files.snapTerm, h.saved]
  split
  · next hz => exact (h.fresh hz).1.symm
  · rfl

/-- The unsynced records say nothing about the configuration. -/
theorem Clean.conf_records (h : Clean peers s) :
    confOf (s.disk.files.snapConf peers) s.disk.files.records = s.conf := by
  rw [Files.records, confOf_logs _ h.tail]
  exact h.conf

theorem Clean.setHardState (h : Clean peers s) {term votedFor : Nat}
    (hst : Stored (s.setHardState term votedFor).1) :
    Clean peers (s.setHardState term votedFor).1 := by
  rw [DiskStorage.setHardState_calm h.calm] at hst ⊢
  refine ⟨h.calm.puts _, hst, ?_, ?_, h.saved, h.bin, h.fresh, ?_, h.proper⟩
  · show hardOf (s.disk.files.synced ++ (s.disk.files.unsynced ++ [_])) = _
    rw [← List.append_assoc, hardOf_append]
    rfl
  · exact fun r hr => absurd hr (by simp [DiskStorage.puts, Disk.puts, Files.flush])
  · show confOf (s.disk.files.snapConf peers)
      (s.disk.files.synced ++ (s.disk.files.unsynced ++ [_])) = s.conf
    rw [← List.append_assoc, confOf_append]
    exact h.conf_records

theorem Clean.setConfState (h : Clean peers s) {c : ConfState} (hc : 0 < c.voters.card)
    (hst : Stored (s.setConfState c).1) : Clean peers (s.setConfState c).1 := by
  rw [DiskStorage.setConfState_calm h.calm] at hst ⊢
  refine ⟨h.calm.puts _, hst, ?_, ?_, h.saved, h.bin, h.fresh, ?_, .inl hc⟩
  · show hardOf (s.disk.files.synced ++ (s.disk.files.unsynced ++ [_])) = _
    rw [← List.append_assoc, hardOf_append]
    exact (hardOf_logs _ h.tail).trans h.hard
  · exact fun r hr => absurd hr (by simp [DiskStorage.puts, Disk.puts, Files.flush])
  · show confOf (s.disk.files.snapConf peers)
      (s.disk.files.synced ++ (s.disk.files.unsynced ++ [_])) = c
    rw [← List.append_assoc, confOf_append, replayConf, if_pos hc]

theorem truncation_isLog (s : DiskStorage) (first : Nat) : ∀ r ∈ s.truncation first, r.IsLog := by
  rw [DiskStorage.truncation]
  intro r hr
  split at hr
  · split at hr
    · rw [List.mem_singleton.mp hr]; trivial
    · cases hr
  · cases hr

theorem Clean.appendEntries (h : Clean peers s) {es : List Entry}
    (hst : Stored (s.appendEntries es).1) : Clean peers (s.appendEntries es).1 := by
  cases es with
  | nil => exact h
  | cons e es =>
    rw [DiskStorage.appendEntries_calm h.calm] at hst ⊢
    have hfiles : (s.disk.puts (s.disk.files.writes (s.appendRecords e es))).files =
        s.disk.files.writeAll (s.appendRecords e es) := Files.getLast?_writes _ _
    constructor
    case calm => exact h.calm.puts _
    case stored => exact hst
    case tail =>
      intro r hr
      simp only [DiskStorage.puts, hfiles, Files.writeAll] at hr
      rcases List.mem_append.mp hr with hr | hr
      · exact h.tail r hr
      rcases List.mem_append.mp hr with hr | hr
      · exact truncation_isLog s _ r hr
      · obtain ⟨x, -, rfl⟩ := List.mem_map.mp hr
        trivial
    all_goals simp only [DiskStorage.puts, hfiles]
    case hard => exact h.hard
    case saved => exact h.saved
    case bin => exact h.bin
    case fresh => exact h.fresh
    case conf => exact h.conf
    case proper => exact h.proper

theorem Clean.sync (h : Clean peers s) (hst : Stored s.sync.1) : Clean peers s.sync.1 := by
  rw [DiskStorage.sync_calm h.calm] at hst ⊢
  split
  swap
  · exact h
  next hd =>
  rw [if_pos hd] at hst
  refine ⟨h.calm.puts _, hst, ?_, ?_, h.saved, h.bin, h.fresh, h.conf_records, h.proper⟩
  · show hardOf (s.disk.files.synced ++ s.disk.files.unsynced) = _
    rw [hardOf_logs _ h.tail]
    exact h.hard
  · exact fun r hr => absurd hr (by simp [DiskStorage.puts, Disk.puts, Files.flush])

theorem confOf_snapshot {peers : List Nat} {c : ConfState} (hc : c.Proper peers) (t v : Nat)
    {recs : List WalRecord} (h : ∀ r ∈ recs, r.IsLog) :
    confOf (if c.voters.card > 0 then c else .newConfState peers)
      (.hardState t v :: .confState c :: recs) = c := by
  have hlogs := confOf_logs [.hardState t v, .confState c] h
    (if c.voters.card > 0 then c else .newConfState peers)
  rw [List.cons_append, List.cons_append, List.nil_append] at hlogs
  rw [hlogs]
  simp only [confOf, List.foldl_cons, List.foldl_nil, replayConf]
  split
  · rfl
  · next hz =>
    rcases hc with hc | hc
    · exact absurd hc hz
    · exact hc.symm

theorem Clean.saveSnapshot (h : Clean peers s) {index term : Nat} {data : Bytes}
    {conf : ConfState} (hc : conf.Proper peers)
    (hst : Stored (s.saveSnapshot index term data conf).1) :
    Clean peers (s.saveSnapshot index term data conf).1 := by
  rcases Nat.lt_or_ge s.snapIndex index with hlt | hge
  swap
  · rw [DiskStorage.saveSnapshot_below hge]; exact h
  rw [DiskStorage.saveSnapshot_calm h.calm hlt] at hst ⊢
  have hpos : index ≠ 0 := Nat.ne_of_gt (Nat.lt_of_le_of_lt (Nat.zero_le _) hlt)
  have hlogs : ∀ r ∈ (s.log.filter fun e => decide (e.index > index)).map WalRecord.append,
      r.IsLog := isLog_map_append
  refine ⟨h.calm.puts _, hst, ?_, ?_, ?_, fun _ => rfl, fun hz => absurd hz hpos, ?_, hc⟩
  · have := hardOf_logs [.hardState s.term s.votedFor, .confState conf] hlogs
    exact this
  · exact fun r hr => absurd hr (by simp [DiskStorage.puts, Disk.puts, DiskStorage.snapshotStates])
  · exact (if_neg hpos).symm
  · exact confOf_snapshot hc _ _ hlogs

end Calls

/-! ## Sections -/

theorem orderedGuard : Guard (fun s => s.disk.files.Ordered) Files.Ordered where
  quiet hd h := by rw [hd]; exact h
  files h := h
  flush h := ⟨h.positive, h.conf⟩

theorem Files.Ordered.write {f : Files} (h : f.Ordered) (r : WalRecord) : (f.write r).Ordered :=
  ⟨h.positive, h.conf⟩

theorem StoreStep.ordered {i : Nat} {conf : ConfState} {op : NodeOp} {s s' : DiskStorage}
    (h : StoreStep i conf op s s') (hs : Kept (·.disk.files.Ordered) Files.Ordered s) :
    Kept (·.disk.files.Ordered) Files.Ordered s' := by
  have happend : ∀ es, Kept (·.disk.files.Ordered) Files.Ordered (s.appendEntries es).1 := by
    intro es
    exact orderedGuard.appendEntries (Q := fun _ s => s.disk.files.Ordered) (fun h => h)
      (fun hd h => by rw [hd]; exact h) (fun h => h.write _) hs (fun _ _ _ _ => hs.1)
      (fun _ _ _ _ _ _ => hs.1.write _)
  have hsave : ∀ index term data conf,
      Kept (·.disk.files.Ordered) Files.Ordered (s.saveSnapshot index term data conf).1 := by
    intro index term data conf
    have hnew : ∀ f : Files, s.snapIndex < index → f.snapshotMeta = some (index, term) →
        f.Ordered := by
      intro f hlt hm
      refine ⟨fun m h => ?_, fun h => by rw [hm] at h; cases h⟩
      rw [hm] at h
      obtain rfl := Option.some.inj h
      exact Nat.lt_of_le_of_lt (Nat.zero_le _) hlt
    exact orderedGuard.saveSnapshot hs ⟨hs.1.positive, hs.1.conf⟩ (fun hlt => hnew _ hlt rfl)
      (fun hlt => hnew _ hlt rfl) (fun hlt => hnew _ hlt rfl)
      fun hlt f _ hmeta _ _ _ => hnew f hlt hmeta
  cases h with
  | stepDown term later => exact orderedGuard.setHardState hs hs.1 (hs.1.write _)
  | campaign member => exact orderedGuard.setHardState hs hs.1 (hs.1.write _)
  | vote req request current free => exact orderedGuard.setHardState hs hs.1 (hs.1.write _)
  | entry e next current type => exact happend _
  | accept req request current reaches => exact happend _
  | sync => exact orderedGuard.sync hs
  | install req request current => exact hsave ..
  | compact index term data request held => exact hsave ..
  | applied request e held type c => exact orderedGuard.setConfState hs hs.1 (hs.1.write _)

section Sections

variable {peers : List Nat} {s s' : DiskStorage}

theorem Clean.files (h : Clean peers s) : CleanFiles s.disk.files where
  recoverable := storedGuard.files h.stored
  ordered := by
    constructor
    · intro m hm
      rw [h.saved] at hm
      split at hm
      · cases hm
      · next hne =>
        obtain rfl := Option.some.inj hm
        exact Nat.pos_of_ne_zero hne
    · intro hm
      rw [h.saved] at hm
      split at hm
      · next hz => exact (h.fresh hz).2.2
      · cases hm

theorem keptClean_split (h : Kept (Clean peers) CleanFiles s) :
    Kept Stored Recoverable s ∧ Kept (·.disk.files.Ordered) Files.Ordered s :=
  ⟨⟨h.1.stored, fun f hf => (h.2 f hf).recoverable⟩,
    ⟨h.1.files.ordered, fun f hf => (h.2 f hf).ordered⟩⟩

/-- What requests carry in runs without failures: consecutive entries and proper
    configurations. -/
def CleanRequest (peers : List Nat) : Request → Prop
  | .appendEntries req => Chain req.prevLogIndex req.entries
  | .installSnapshot req => req.confState.Proper peers
  | _ => True

theorem CleanRequest.chained {req : Request} (h : CleanRequest peers req) : ChainedRequest req := by
  cases req with
  | appendEntries req => exact h
  | _ => trivial

theorem StoreStep.clean {i : Nat} {conf : ConfState} {op : NodeOp} (h : StoreStep i conf op s s')
    (hop : ∀ req, op = .handle req → CleanRequest peers req) (hconf : conf.Proper peers)
    (hcollect : op ≠ .collect) (hs : Kept (Clean peers) CleanFiles s) :
    Kept (Clean peers) CleanFiles s' := by
  obtain ⟨hstored, hord⟩ := keptClean_split hs
  have hstored' := h.stored (fun req hreq => (hop req hreq).chained) hstored
  have hord' := h.ordered hord
  refine ⟨?_, fun f hf => ⟨hstored'.2 f hf, hord'.2 f hf⟩⟩
  have hst := hstored'.1
  cases h with
  | stepDown term later => exact hs.1.setHardState hst
  | campaign member => exact hs.1.setHardState hst
  | vote req request current free => exact hs.1.setHardState hst
  | entry e next current type => exact hs.1.appendEntries hst
  | accept req request current reaches => exact hs.1.appendEntries hst
  | sync => exact hs.1.sync hst
  | install req request current => exact hs.1.saveSnapshot (hop _ request) hst
  | compact index term data request held => exact hs.1.saveSnapshot hconf hst
  | applied request e held type c => exact absurd request hcollect

theorem applyConfChange_voters {c c' : ConfState} {cc : ConfChange} (hc : c.Proper peers)
    (h : c.applyConfChange cc = .ok c') : 0 < c'.voters.card := by
  rw [ConfState.applyConfChange] at h
  split at h
  · split at h
    · cases h
    · obtain rfl := Except.ok.inj h
      exact Finset.card_pos.mpr (Finset.insert_nonempty _ _)
  · split at h
    · cases h
    split at h
    · cases h
    split at h
    · cases h
    · next hcard =>
      obtain rfl := Except.ok.inj h
      exact Nat.lt_of_lt_of_le (Nat.sub_pos_of_lt (Nat.lt_of_not_le hcard)) Finset.pred_card_le_card_erase
  · split at h
    · cases h
    · next hjoint =>
      obtain rfl := Except.ok.inj h
      rcases hc with hc | rfl
      · exact hc
      · simp [ConfState.inJoint, ConfState.newConfState] at hjoint
  · cases h

/-- A node whose configuration is the one it has stored. -/
structure CleanNode (peers : List Nat) (n : Node) : Prop where
  store : Kept (Clean peers) CleanFiles n.store
  conf : n.conf = n.store.conf

theorem CleanNode.proper {n : Node} (h : CleanNode peers n) : n.conf.Proper peers := by
  rw [h.conf]; exact h.store.1.proper

theorem CleanNode.applyEntry {n : Node} (h : CleanNode peers n) (e : Entry) :
    CleanNode peers (n.applyEntry e).1 := by
  rw [Node.applyEntry]
  split
  swap
  · exact h
  next cc _ _ =>
  rw [Node.applyConfChangeLocked]
  split
  · exact h
  next c hc =>
  have hpos := applyConfChange_voters h.proper hc
  obtain ⟨hstored, hord⟩ := keptClean_split h.store
  have hst := Stored.setConfState hstored c
  have hp := orderedGuard.setConfState hord (c := c) hord.1 (hord.1.write _)
  have hconf : ((n.adoptConf cc c).trackMember cc).conf = c := by
    rw [Node.trackMember_conf]; rfl
  simp only [Node.trackMember_store, hconf]
  refine ⟨⟨h.store.1.setConfState hpos hst.1, fun f hf => ⟨hst.2 f hf, hp.2 f hf⟩⟩, ?_⟩
  show c = (n.store.setConfState c).1.conf
  rw [DiskStorage.setConfState_calm h.store.1.calm]
  rfl

theorem CleanNode.collectLoop {fuel : Nat} {n m : Node} {msgs : List ApplyMsg}
    (hl : Node.collectLoop fuel n = some (m, msgs)) (h : CleanNode peers n) :
    CleanNode peers m := by
  induction fuel generalizing n m msgs with
  | zero =>
    obtain ⟨rfl, -⟩ := Prod.mk.inj (Option.some.inj hl)
    exact h
  | succ fuel ih =>
    rw [Node.collectLoop] at hl
    split at hl
    swap
    · obtain ⟨rfl, -⟩ := Prod.mk.inj (Option.some.inj hl)
      exact h
    simp only at hl
    split at hl
    · exact ih hl ⟨h.store, h.conf⟩
    split at hl
    · cases hl
    next e he =>
    obtain ⟨⟨m', msgs'⟩, hrest, hq⟩ := Option.map_eq_some_iff.mp hl
    obtain ⟨rfl, -⟩ := Prod.mk.inj hq
    have happ := h.applyEntry e
    exact ih hrest ⟨happ.store, happ.conf⟩

theorem StoreStep.sameConf {i : Nat} {conf : ConfState} {op : NodeOp} (h : StoreStep i conf op s s')
    (hcollect : op ≠ .collect) (hinstall : ∀ req, op ≠ .handle (.installSnapshot req))
    (hcompact : ∀ index data, op ≠ .snapshot index data) : s'.conf = s.conf := by
  have hhard : ∀ term votedFor, (s.setHardState term votedFor).1.conf = s.conf := by
    intro term votedFor
    rw [DiskStorage.setHardState, andThen]
    split <;> rfl
  cases h with
  | stepDown term later => exact hhard ..
  | campaign member => exact hhard ..
  | vote req request current free => exact hhard ..
  | entry e next current type => exact (appendEntries_head _).conf
  | accept req request current reaches => exact (appendEntries_head _).conf
  | sync => exact sync_head.conf
  | install req request current => exact absurd request (hinstall req)
  | compact index term data request held => exact absurd request (hcompact index data)
  | applied request e held type c => exact absurd request hcollect

end Sections

theorem CleanNode.withFaults {peers : List Nat} {n : Node} (h : CleanNode peers n) :
    CleanNode peers (n.withFaults []) := by
  have hs := h.store.1
  refine ⟨⟨⟨⟨hs.calm.opened, rfl⟩, (stored_withFaults hs.stored []).1, hs.hard, hs.tail, hs.saved,
    hs.bin, hs.fresh, hs.conf, hs.proper⟩, ?_⟩, h.conf⟩
  simp [Node.withFaults]

theorem follow_conf {n : Node} (term leaderId : Nat) :
    (n.follow term leaderId).store.conf = n.store.conf := by
  simp only [Node.follow, Node.stepDownLocked]
  split
  · split
    · simp only [DiskStorage.setHardState, andThen]
      split <;> rfl
    · rfl
  · rfl

theorem CleanNode.handleInstallSnapshot_conf {peers : List Nat} {n : Node} (h : CleanNode peers n)
    (req : InstallSnapshotRequest) :
    (n.handleInstallSnapshot req).1.conf = (n.handleInstallSnapshot req).1.store.conf := by
  have hclean : Kept (Clean peers) CleanFiles (n.follow req.term req.leaderId).store :=
    (Node.follow_store (.finish 0) req.term req.leaderId).keep h.store
      fun hstep hs => hstep.clean (by simp) h.proper (by simp) hs
  have hconf : (n.follow req.term req.leaderId).conf =
      (n.follow req.term req.leaderId).store.conf := by
    rw [follow_conf, (Node.follow_frame _ _).conf]
    exact h.conf
  simp only [Node.handleInstallSnapshot]
  split
  · exact h.conf
  split
  · exact hconf
  next hlt =>
  rw [DiskStorage.saveSnapshot_calm hclean.1.calm (Nat.lt_of_not_le hlt)]
  rfl

theorem CleanNode.snapshot_conf {peers : List Nat} {n : Node} (h : CleanNode peers n) (index : Nat)
    (data : Bytes) : (n.snapshot index data).1.conf = (n.snapshot index data).1.store.conf := by
  simp only [Node.snapshot]
  split
  · exact h.conf
  split
  · exact h.conf
  rcases Nat.lt_or_ge n.store.snapIndex index with hlt | hge
  · rw [DiskStorage.saveSnapshot_calm h.store.1.calm hlt]
    rfl
  · rw [DiskStorage.saveSnapshot_below hge]
    exact h.conf

/-- **A section without failures** leaves memory and disk in agreement. -/
theorem CleanNode.exec {peers : List Nat} {n m : Node} {op : NodeOp} {eff : Effect}
    (h : CleanNode peers n) (hex : n.exec op = some (m, eff))
    (hop : ∀ req, op = .handle req → CleanRequest peers req) : CleanNode peers m := by
  by_cases hc : op = .collect
  · subst hc
    exact h.collectLoop (Node.exec_collect hex).1
  have hkept : Kept (Clean peers) CleanFiles m.store :=
    (Node.exec_store hex).keep h.store fun hstep hs => hstep.clean hop h.proper hc hs
  refine ⟨hkept, ?_⟩
  have hlock := Node.exec_unlocked hex
  by_cases hi : ∃ req, op = .handle (.installSnapshot req)
  · obtain ⟨req, rfl⟩ := hi
    simp only [Node.exec, hlock, Bool.false_eq_true, if_false] at hex
    obtain ⟨rfl, -⟩ := Prod.mk.inj (Option.some.inj hex)
    exact h.handleInstallSnapshot_conf req
  by_cases hsnap : ∃ index data, op = .snapshot index data
  · obtain ⟨index, data, rfl⟩ := hsnap
    simp only [Node.exec, hlock, Bool.false_eq_true, if_false] at hex
    obtain ⟨rfl, -⟩ := Prod.mk.inj (Option.some.inj hex)
    exact h.snapshot_conf index data
  · have hinstall : ∀ req, op ≠ .handle (.installSnapshot req) := fun req hreq => hi ⟨req, hreq⟩
    have hsame : m.store.conf = n.store.conf :=
      (Node.exec_store hex).keep (P := fun s => s.conf = n.store.conf) rfl fun hstep hs =>
        (hstep.sameConf hc hinstall fun index data hop => hsnap ⟨index, data, hop⟩).trans hs
    rw [hsame, (Node.exec_frame hex hc hinstall).conf]
    exact h.conf

theorem clean_sent {peers : List Nat} {n : Node} (h : CleanNode peers n) {s : Send}
    (hs : Sent n s) : CleanRequest peers s.req := by
  have hchain := chained_sent h.store.1.stored hs
  cases hs with
  | vote role request => rw [request]; trivial
  | snapshot role request => rw [request]; exact h.proper
  | append role next prevTerm above prev request => rw [request] at hchain ⊢; exact hchain

/-- Runs without failures of the storage. -/
def noFailure (_ : Node) (_ : NodeOp) (faults : List Bool) : Prop := faults = []

theorem Action.FaultFree.within {act : Action} (h : act.FaultFree) (c : Cluster) :
    act.Within noFailure c :=
  fun e faults _ _ hact _ => h (e, faults) hact

def clean (cfg : Config) : Assertion where
  node i n := n.id = i ∧ CleanNode cfg.peers n
  files _ := CleanFiles
  call _ _ := CleanRequest cfg.peers

theorem cleanRule (cfg : Config) : Rule cfg noFailure (clean cfg) where
  init i := by
    refine ⟨rfl, ⟨⟨⟨rfl, rfl⟩, ((chainRule cfg).init i).2, rfl, List.forall_mem_nil _, rfl,
      fun h => absurd rfl h, fun _ => ⟨rfl, rfl, rfl⟩, rfl, .inr rfl⟩, List.forall_mem_nil _⟩, rfl⟩
  files h := h.2.store.1.files
  recover {i f keep store} h ho := by
    refine ⟨rfl, ⟨h.recover ho, ?_⟩, rfl⟩
    show ∀ g ∈ store.disk.trail, CleanFiles g
    rw [(recovered_of_open ho).disk]
    simp
  exec {i n faults op n' eff} _ hn hok hop hex := by
    obtain rfl := hok
    have hreq : ∀ req, op = .handle req → CleanRequest cfg.peers req := by
      rintro req rfl
      obtain ⟨_, h⟩ := hop
      exact h
    have hm := hn.2.withFaults.exec hex hreq
    exact ⟨⟨(Node.exec_id hex).trans hn.1, hm⟩, hm.store.2, fun _ _ _ => trivial,
      fun s hs => ⟨clean_sent hm ((Node.exec_sends hex).sent s hs), trivial⟩,
      fun _ _ _ _ => trivial⟩
  read _ _ _ _ _ _ _ hreq := ⟨by rw [hreq]; trivial, trivial⟩

end Raft
end DistKV
