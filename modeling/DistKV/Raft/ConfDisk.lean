import DistKV.Raft.ConfFold
import DistKV.Raft.SnapshotAtomic

/-!
# The configuration a restart finds

Without storage failures a process that goes down between two sections finds the configuration it
had, above the snapshot it had. In the middle of a section it is the same, with three exceptions: the
applier may have persisted some of the configurations it went through, a compaction may have
replaced the snapshot index, and the installation of a snapshot may have replaced either
(`recovered_conf`).
-/

namespace DistKV
namespace Raft

/-- However many of the unsynced records survive, a restart from the files finds a snapshot index, a
    term and a configuration that satisfy `R`. -/
def Found (peers : List Nat) (R : Nat → Nat → ConfState → Prop) (f : Files) : Prop :=
  ∀ keep, R f.snapIndex (f.persisted peers keep).term (f.persisted peers keep).conf

section Files

variable {peers : List Nat} {R : Nat → Nat → ConfState → Prop} {s s' : DiskStorage} {f : Files}

theorem Found.flush (h : Found peers R f) : Found peers R f.flush := by
  intro keep
  have hall := h f.unsynced.length
  simp only [Files.persisted, List.take_length] at hall
  simp only [Files.persisted, Files.flush, List.take_nil, List.append_nil]
  exact hall

theorem Clean.found_writeAll (h : Clean peers s) (hR : R s.snapIndex s.term s.conf)
    {rs : List WalRecord} (hrs : ∀ r ∈ rs, r.IsLog) : Found peers R (s.disk.files.writeAll rs) := by
  intro keep
  have hlogs : ∀ r ∈ (s.disk.files.unsynced ++ rs).take keep, r.IsLog := by
    intro r hr
    rcases List.mem_append.mp (List.mem_of_mem_take hr) with hold | hnew
    · exact h.tail r hold
    · exact hrs r hnew
  have hconf : ((s.disk.files.writeAll rs).persisted peers keep).conf = s.conf := by
    rw [← h.conf]
    exact confOf_logs _ hlogs _
  have hterm : ((s.disk.files.writeAll rs).persisted peers keep).term = s.term :=
    (congrArg Prod.fst (hardOf_logs _ hlogs)).trans (congrArg Prod.fst h.hard)
  have hindex : (s.disk.files.writeAll rs).snapIndex = s.snapIndex := h.files_snapIndex
  rw [hconf, hterm, hindex]
  exact hR

theorem Clean.found (h : Clean peers s) (hR : R s.snapIndex s.term s.conf) :
    Found peers R s.disk.files := by
  have hnone := h.found_writeAll hR (List.forall_mem_nil WalRecord.IsLog)
  rwa [Files.writeAll, List.append_nil] at hnone

/-- A record behind those of the log: it is read back, or it is lost. -/
theorem Clean.found_write (h : Clean peers s) (hR : R s.snapIndex s.term s.conf) {r : WalRecord}
    (hnew : R s.snapIndex (replayHard (s.term, s.votedFor) r).1 (replayConf s.conf r)) :
    Found peers R (s.disk.files.write r) := by
  intro keep
  have hindex : (s.disk.files.write r).snapIndex = s.snapIndex := h.files_snapIndex
  rw [hindex]
  simp only [Files.persisted, Files.write]
  rcases Nat.lt_or_ge s.disk.files.unsynced.length keep with hlt | hge
  · rw [List.take_of_length_le (by rw [List.length_append, List.length_singleton]; exact hlt),
      ← List.append_assoc, hardOf_append, confOf_append, hardOf_logs _ h.tail,
      confOf_logs _ h.tail, h.hard]
    rw [← h.conf] at hnew
    exact hnew
  · rw [List.take_append_of_le_length hge, hardOf_logs _ (h.take keep),
      confOf_logs _ (h.take keep), h.hard]
    rw [← h.conf] at hR
    exact hR

/-- A hard state on its way to the disk: until the fsync it may be the old one. -/
theorem Clean.found_hard (h : Clean peers s) (hR : ∀ t, s.term ≤ t → R s.snapIndex t s.conf)
    {term votedFor : Nat} (hle : s.term ≤ term) :
    ∀ f ∈ [s.disk.files.write (.hardState term votedFor),
      (s.disk.files.write (.hardState term votedFor)).flush], Found peers R f := by
  have hone : Found peers R (s.disk.files.write (.hardState term votedFor)) :=
    h.found_write (hR s.term (Nat.le_refl _)) (hR term hle)
  simp only [List.forall_mem_cons]
  exact ⟨hone, hone.flush, List.forall_mem_nil _⟩

theorem Clean.found_append (h : Clean peers s) (hR : R s.snapIndex s.term s.conf) (es : List Entry) :
    ∀ f ∈ (s.appendEntries es).1.disk.trail, f ∈ s.disk.trail ∨ Found peers R f := by
  intro f hf
  cases es with
  | nil => exact .inl hf
  | cons e es =>
    rw [DiskStorage.appendEntries_calm h.calm] at hf
    refine (List.mem_append.mp hf).imp id fun hf => ?_
    obtain ⟨k, rfl⟩ := Files.mem_writes hf
    refine h.found_writeAll hR fun r hr => ?_
    rcases List.mem_append.mp (List.mem_of_mem_take hr) with hr | hr
    · exact truncation_isLog s _ r hr
    · exact isLog_map_append r hr

/-- The states `saveSnapshot` goes through: first the old index with the old configuration, then the
    new index. -/
theorem Clean.found_save (h : Clean peers s) (hR : R s.snapIndex s.term s.conf) {index term : Nat}
    {data : Bytes} {conf : ConfState}
    (hnew : s.snapIndex < index → (∀ c, R index s.term c) ∨ conf = s.conf ∧ R index s.term s.conf) :
    ∀ f ∈ (s.saveSnapshot index term data conf).1.disk.trail, f ∈ s.disk.trail ∨ Found peers R f := by
  intro f hf
  rcases Nat.lt_or_ge s.snapIndex index with hlt | hge
  swap
  · rw [DiskStorage.saveSnapshot_below hge] at hf
    exact .inl hf
  rw [DiskStorage.saveSnapshot_calm h.calm hlt] at hf
  refine (List.mem_append.mp hf).imp id fun hf => ?_
  have hbin : Found peers R (s.disk.files.withBin data) := by
    intro keep
    rw [h.persisted_bin]
    exact h.found hR keep
  -- until the WAL is replaced, the configuration is decided by `snapshot.conf` and the old records
  have hmeta : ∀ cs, cs = s.disk.files.snapshotConf ∨ cs = some conf →
      Found peers R { s.disk.files.withMeta data index term with snapshotConf := cs } := by
    intro cs hcs keep
    rw [h.persisted_meta hlt, h.persisted]
    show R index s.term _
    rcases hnew hlt with hany | ⟨rfl, hsame⟩
    · exact hany _
    have hconf : confOf (Files.snapConf
        { s.disk.files.withMeta data index term with snapshotConf := cs } peers)
        s.disk.files.synced = s.conf := by
      rcases hcs with rfl | rfl
      · have hold := h.oldConf data index term
        rw [← h.conf, ← hold]
        rfl
      · exact h.newConf
    rw [Persisted.withSnapshot, hconf]
    exact hsame
  simp only [DiskStorage.snapshotStates, List.mem_cons, List.not_mem_nil, or_false] at hf
  rcases hf with rfl | rfl | rfl | rfl | rfl
  · exact hbin
  · exact hmeta _ (.inl rfl)
  · exact hmeta _ (.inr rfl)
  · exact Found.flush (hmeta _ (.inr rfl))
  · intro keep
    rcases hnew hlt with hany | ⟨rfl, hsame⟩
    · have hterm : hardOf (.hardState s.term s.votedFor :: .confState conf ::
          (s.log.filter fun e => decide (e.index > index)).map .append) = (s.term, s.votedFor) :=
        hardOf_logs [.hardState s.term s.votedFor, .confState conf] isLog_map_append
      simp only [Files.persisted, List.take_nil, List.append_nil, hterm]
      exact hany _
    · have hwal := h.persisted_wal hlt term data h.proper keep
      rw [h.persisted] at hwal
      exact (congrArg (fun p : Persisted => R index p.term p.conf) hwal).mpr hsame

/-- A configuration on its way to the disk: until the fsync it may be the old one. -/
theorem Clean.found_conf (h : Clean peers s) (hR : R s.snapIndex s.term s.conf) {c : ConfState}
    (hc : 0 < c.voters.card) (hnew : R s.snapIndex s.term c) :
    ∀ f ∈ (s.setConfState c).1.disk.trail, f ∈ s.disk.trail ∨ Found peers R f := by
  have hone : Found peers R (s.disk.files.write (.confState c)) := by
    refine h.found_write hR ?_
    rw [replayConf, if_pos hc]
    exact hnew
  intro f hf
  rw [DiskStorage.setConfState_calm h.calm] at hf
  refine (List.mem_append.mp hf).imp id fun hf => ?_
  simp only [List.mem_cons, List.not_mem_nil, or_false] at hf
  rcases hf with rfl | rfl
  · exact hone
  · exact hone.flush

end Files

/-! ## Sections -/

section Section

variable {peers : List Nat} {n m : Node} {op : NodeOp} {eff : Effect}

theorem StoreStep.found {R : Nat → Nat → ConfState → Prop} {s s' : DiskStorage} {i : Nat}
    {conf : ConfState} (h : StoreStep i conf op s s') (hc : op ≠ .collect) (hs : Clean peers s)
    (hR : ∀ t, s.term ≤ t → R s.snapIndex t s.conf)
    (hcompact : ∀ index data, op = .snapshot index data → s.snapIndex < index →
      conf = s.conf ∧ ∀ t, R index t s.conf)
    (hinstall : ∀ req, op = .handle (.installSnapshot req) → s.term ≤ req.term →
      s.snapIndex < req.lastIncludedIndex → ∀ t c, req.term ≤ t → R req.lastIncludedIndex t c) :
    (∀ t, s'.term ≤ t → R s'.snapIndex t s'.conf) ∧
      ∀ f ∈ s'.disk.trail, f ∈ s.disk.trail ∨ Found peers R f := by
  have hnow := hR s.term (Nat.le_refl _)
  have hhard : ∀ term votedFor, s.term ≤ term →
      (∀ t, (s.setHardState term votedFor).1.term ≤ t →
        R (s.setHardState term votedFor).1.snapIndex t (s.setHardState term votedFor).1.conf) ∧
      ∀ f ∈ (s.setHardState term votedFor).1.disk.trail, f ∈ s.disk.trail ∨ Found peers R f := by
    intro term votedFor hle
    rw [DiskStorage.setHardState_calm hs.calm]
    refine ⟨fun t ht => hR t (Nat.le_trans hle ht), fun f hf => (List.mem_append.mp hf).imp id ?_⟩
    exact hs.found_hard hR hle f
  have happend : ∀ es t, (s.appendEntries es).1.term ≤ t →
      R (s.appendEntries es).1.snapIndex t (s.appendEntries es).1.conf := by
    intro es t ht
    rw [(appendEntries_head es).term] at ht
    rw [(appendEntries_head es).snapIndex, (appendEntries_head es).conf]
    exact hR t ht
  have hsave : ∀ index term data c, (s.snapIndex < index → (∀ t, s.term ≤ t → R index t c)) →
      ∀ t, (s.saveSnapshot index term data c).1.term ≤ t →
        R (s.saveSnapshot index term data c).1.snapIndex t
          (s.saveSnapshot index term data c).1.conf := by
    intro index term data c hnew
    rcases Nat.lt_or_ge s.snapIndex index with hlt | hge
    · rw [DiskStorage.saveSnapshot_calm hs.calm hlt]
      exact hnew hlt
    · rw [DiskStorage.saveSnapshot_below hge]
      exact hR
  cases h with
  | stepDown term later => exact hhard term 0 (Nat.le_of_lt later)
  | campaign member => exact hhard _ _ (Nat.le_succ _)
  | vote req request current free => exact hhard _ _ (Nat.le_refl _)
  | entry e next current type => exact ⟨happend _, hs.found_append hnow _⟩
  | accept req request current reaches => exact ⟨happend _, hs.found_append hnow _⟩
  | sync =>
    rw [DiskStorage.sync_calm hs.calm]
    split
    · refine ⟨hR, fun f hf => (List.mem_append.mp hf).imp id fun hf => ?_⟩
      rw [List.mem_singleton.mp hf]
      exact (hs.found hnow).flush
    · exact ⟨hR, fun f hf => .inl hf⟩
  | install req request current =>
    have hnew := hinstall req request (Nat.le_of_eq current.symm)
    exact ⟨hsave _ _ _ _ fun hlt t ht => hnew hlt t _ (current ▸ ht),
      hs.found_save hnow fun hlt => .inl fun c => hnew hlt _ c (Nat.le_of_eq current)⟩
  | compact index term data request held =>
    have hnew := hcompact index data request
    exact ⟨hsave _ _ _ _ fun hlt t _ => (hnew hlt).1 ▸ (hnew hlt).2 t,
      hs.found_save hnow fun hlt => .inr ⟨(hnew hlt).1, (hnew hlt).2 _⟩⟩
  | applied request e held type c => exact absurd request hc

/-- What a crash in a section of `n` may find: the index and the configuration that were there before,
    the configurations of the applier, the index of a compaction, or the snapshot that is being
    installed, with its term. -/
inductive Finds (n : Node) (op : NodeOp) : Nat → Nat → ConfState → Prop
  | same (t : Nat) : Finds n op n.store.snapIndex t n.conf
  | applied (t l : Nat) (request : op = .collect) (low : n.lastApplied ≤ l)
      (high : l ≤ n.commitIndex) : Finds n op n.store.snapIndex t (n.confAt l)
  | compacted (t index : Nat) (data : Bytes) (request : op = .snapshot index data)
      (above : n.store.snapIndex < index) (applied : index ≤ n.lastApplied) :
      Finds n op index t n.conf
  | installed (t : Nat) (req : InstallSnapshotRequest) (conf : ConfState)
      (request : op = .handle (.installSnapshot req)) (term : n.store.term ≤ req.term)
      (above : n.store.snapIndex < req.lastIncludedIndex) (reached : req.term ≤ t) :
      Finds n op req.lastIncludedIndex t conf

theorem CleanNode.exec_found (h : CleanNode peers n) (htrail : n.store.disk.trail = [])
    (hc : op ≠ .collect) (hop : ∀ req, op = .handle req → CleanRequest peers req)
    (hex : n.exec op = some (m, eff)) : ∀ f ∈ m.store.disk.trail, Found peers (Finds n op) f := by
  -- a compaction that is refused leaves no trail
  by_cases hbeyond : ∃ index data, op = .snapshot index data ∧ n.lastApplied < index
  · obtain ⟨index, data, rfl, hlt⟩ := hbeyond
    simp only [Node.exec, Node.exec_unlocked hex, Bool.false_eq_true, if_false, Node.snapshot,
      if_pos hlt] at hex
    obtain ⟨rfl, -⟩ := Prod.mk.inj (Option.some.inj hex)
    rw [htrail]
    exact List.forall_mem_nil _
  have hkept : Kept (Clean peers) CleanFiles m.store ∧ n.store.term ≤ m.store.term ∧
      n.store.snapIndex ≤ m.store.snapIndex ∧
      (∀ t, m.store.term ≤ t → Finds n op m.store.snapIndex t m.store.conf) ∧
      ∀ f ∈ m.store.disk.trail, Found peers (Finds n op) f := by
    refine (Node.exec_store hex).keep
      (P := fun s => Kept (Clean peers) CleanFiles s ∧ n.store.term ≤ s.term ∧
        n.store.snapIndex ≤ s.snapIndex ∧ (∀ t, s.term ≤ t → Finds n op s.snapIndex t s.conf) ∧
        ∀ f ∈ s.disk.trail, Found peers (Finds n op) f) ?_ ?_
    · refine ⟨h.store, Nat.le_refl _, Nat.le_refl _, fun t _ => ?_,
        by rw [htrail]; exact List.forall_mem_nil _⟩
      rw [← h.conf]
      exact .same t
    · rintro s s' hstep ⟨hs, hterm, hindex, hfinds, hfound⟩
      have hcompact : ∀ index data, op = .snapshot index data → s.snapIndex < index →
          n.conf = s.conf ∧ ∀ t, Finds n op index t s.conf := by
        rintro index data rfl hlt
        have hsame : s.conf = n.conf := by
          have hnow := hfinds s.term (Nat.le_refl _)
          generalize s.conf = conf, s.snapIndex = snapIndex, s.term = term at hnow
          cases hnow with
          | same => rfl
          | applied _ l request => cases request
          | compacted _ index data request above => rfl
          | installed _ req conf request => cases request
        rw [hsame]
        exact ⟨rfl, fun t => .compacted t index data rfl (Nat.lt_of_le_of_lt hindex hlt)
          (Nat.le_of_not_lt fun hlt' => hbeyond ⟨index, data, rfl, hlt'⟩)⟩
      obtain ⟨hfinds', hfound'⟩ := hstep.found hc hs.1 hfinds hcompact
        fun req request hreq hlt t c ht => .installed t req c request (Nat.le_trans hterm hreq)
          (Nat.lt_of_le_of_lt hindex hlt) ht
      have hgrows := hstep.grows
      exact ⟨hstep.clean hop h.proper hc hs, Nat.le_trans hterm hgrows.1,
        Nat.le_trans hindex hgrows.2, hfinds', fun f hf => (hfound' f hf).elim (hfound f) id⟩
  exact hkept.2.2.2.2

/-- The applier writes a configuration that it changes, and nothing else. -/
theorem CleanNode.applyEntry_store (h : CleanNode peers n) (e : Entry) :
    (n.applyEntry e).1.store = n.store ∨ 0 < (n.conf.absorb e).voters.card ∧
      (n.applyEntry e).1.store = (n.store.setConfState (n.conf.absorb e)).1 := by
  rw [Node.applyEntry]
  split
  swap
  · exact .inl rfl
  next cc htype hcc =>
  have hchange : e.change? = some cc := by rw [Entry.change?, htype, hcc]
  rw [ConfState.absorb_change hchange, Node.applyConfChangeLocked]
  cases happ : n.conf.applyConfChange cc with
  | error err => exact .inl rfl
  | ok next =>
    refine .inr ⟨applyConfChange_voters h.proper happ, ?_⟩
    simp only [Node.trackMember_store, Node.trackMember_conf]
    rfl

/-- Where the applier of `n₀` has come to, and what it has written on the way. -/
structure Applying (peers : List Nat) (n₀ n : Node) : Prop where
  clean : CleanNode peers n
  commit : n.commitIndex = n₀.commitIndex
  snap : n.store.snapIndex = n₀.store.snapIndex
  entry : ∀ index, n.store.entryAt index = n₀.store.entryAt index
  low : n₀.lastApplied ≤ n.lastApplied
  high : n.lastApplied ≤ n₀.commitIndex
  conf : n.conf = n₀.confAt n.lastApplied
  found : ∀ f ∈ n.store.disk.trail, Found peers (Finds n₀ .collect) f

theorem Applying.next {n₀ : Node} (h : Applying peers n₀ n) (hlt : n.lastApplied < n₀.commitIndex)
    {e : Entry} (he : n.store.entryAt (n.lastApplied + 1) = some e) :
    Applying peers n₀ { (n.applyEntry e).1 with lastApplied := n.lastApplied + 1 } := by
  have hcn := h.clean.applyEntry e
  obtain ⟨hlog, hsnap⟩ := applyEntry_log (n := n) e
  have hahead : n₀.ahead (n.lastApplied + 1) = e := by
    rw [Node.ahead, if_neg (Nat.not_le.mpr (Nat.lt_succ_of_le h.low)), ← h.entry, he,
      Option.getD_some]
  have hconf : n.conf.absorb e = n₀.confAt (n.lastApplied + 1) := by
    rw [Node.confAt, foldConf, hahead, h.conf]
    rfl
  have hold : Finds n₀ .collect n.store.snapIndex n.store.term n.store.conf := by
    rw [h.snap, ← h.clean.conf, h.conf]
    exact .applied _ _ rfl h.low h.high
  have hnew : Finds n₀ .collect n.store.snapIndex n.store.term (n.conf.absorb e) := by
    rw [h.snap, hconf]
    exact .applied _ _ rfl (Nat.le_succ_of_le h.low) hlt
  refine ⟨⟨hcn.store, hcn.conf⟩, ((Node.applyEntry_frame (n := n) e).2.1).trans h.commit,
    hsnap.trans h.snap, fun index => ?_, Nat.le_succ_of_le h.low, hlt,
    (Node.applyEntry_conf e).trans hconf, fun f hf => ?_⟩
  · rw [← h.entry index]
    show (n.applyEntry e).1.store.entryAt index = n.store.entryAt index
    rw [DiskStorage.entryAt, DiskStorage.entryAt, DiskStorage.firstIndex, DiskStorage.firstIndex,
      hlog, hsnap]
  · rcases h.clean.applyEntry_store e with hsame | ⟨hpos, hwrites⟩
    · have hmem : f ∈ (n.applyEntry e).1.store.disk.trail := hf
      rw [hsame] at hmem
      exact h.found f hmem
    · have hmem : f ∈ (n.store.setConfState (n.conf.absorb e)).1.disk.trail := by
        rw [← hwrites]
        exact hf
      exact (h.clean.store.1.found_conf hold hpos hnew f hmem).elim (h.found f) id

theorem Applying.collectLoop {n₀ : Node} {fuel : Nat} {msgs : List ApplyMsg}
    (h : Applying peers n₀ n) (hl : Node.collectLoop fuel n = some (m, msgs))
    (hsnap : n.store.snapIndex ≤ n.lastApplied) : Applying peers n₀ m := by
  induction fuel generalizing n m msgs with
  | zero =>
    obtain ⟨rfl, -⟩ := Prod.mk.inj (Option.some.inj hl)
    exact h
  | succ fuel ih =>
    rw [Node.collectLoop] at hl
    split at hl
    swap
    · obtain ⟨rfl, -⟩ := Prod.mk.inj (Option.some.inj hl)
      exact h
    next hlt =>
    simp only at hl
    split at hl
    · next hbelow => exact absurd hbelow (Nat.not_lt.mpr (Nat.succ_le_succ hsnap))
    split at hl
    · cases hl
    next e he =>
    obtain ⟨⟨m', rest⟩, hrest, hq⟩ := Option.map_eq_some_iff.mp hl
    obtain ⟨rfl, -⟩ := Prod.mk.inj hq
    rw [h.commit] at hlt
    refine ih (h.next hlt he) hrest ?_
    show (n.applyEntry e).1.store.snapIndex ≤ n.lastApplied + 1
    rw [(applyEntry_log (n := n) e).2]
    exact Nat.le_succ_of_le hsnap

/-- **What a crash in the middle of a section finds.** -/
theorem CleanNode.section_found (h : CleanNode peers n)
    (hop : ∀ req, op = .handle req → CleanRequest peers req)
    (hsnap : n.store.snapIndex ≤ n.lastApplied) (hle : n.lastApplied ≤ n.commitIndex)
    (hex : (n.withFaults []).exec op = some (m, eff)) :
    ∀ f ∈ m.store.disk.trail, Found peers (Finds n op) f := by
  have hfinds : ∀ {index t conf}, Finds (n.withFaults []) op index t conf →
      Finds n op index t conf := by
    intro index t conf hf
    cases hf with
    | same => exact .same t
    | applied _ l request low high => exact .applied t l request low high
    | compacted _ index data request above applied =>
      exact .compacted t index data request above applied
    | installed _ req conf request term above reached =>
      exact .installed t req conf request term above reached
  intro f hf keep
  refine hfinds ?_
  by_cases hc : op = .collect
  · subst hc
    have hstart : Applying peers (n.withFaults []) (n.withFaults []) :=
      ⟨h.withFaults, rfl, rfl, fun _ => rfl, Nat.le_refl _, hle,
        (n.withFaults []).confAt_applied.symm, fun f hf => by cases hf⟩
    exact (hstart.collectLoop (Node.exec_collect hex).1 hsnap).found f hf keep
  · exact h.withFaults.exec_found rfl hc hop hex f hf keep

end Section

/-- **What a restart recovers**, in a cluster without storage failures. -/
theorem recovered_conf {cfg : Config} {c : Cluster} (hclean : All (clean cfg) c) {i point keep : Nat}
    {during : Option Event} {faults : List Bool} {files : Files} {store : DiskStorage}
    (hsnap : (c.node i).store.snapIndex ≤ (c.node i).lastApplied)
    (hle : (c.node i).lastApplied ≤ (c.node i).commitIndex)
    (hfree : (Action.restart i during faults point keep).FaultFree)
    (hf : c.filesAt i during faults point = some files)
    (ho : DiskStorage.openDiskStorage (files.crash keep) cfg.peers = some store) :
    (store.snapIndex = (c.node i).store.snapIndex ∧ store.conf = (c.node i).conf) ∨
      ∃ e ∈ during, ∃ op, c.resolve e = some (i, op) ∧
        Finds (c.node i) op store.snapIndex store.term store.conf := by
  have hread : ∀ {R : Nat → Nat → ConfState → Prop}, Found cfg.peers R files →
      R store.snapIndex store.term store.conf := by
    intro R hR
    have hp := persisted_of_open ho
    have hindex : store.snapIndex = files.snapIndex := congrArg Persisted.snapIndex hp
    have hterm : store.term = (files.persisted cfg.peers keep).term := congrArg Persisted.term hp
    have hconf : store.conf = (files.persisted cfg.peers keep).conf := congrArg Persisted.conf hp
    rw [hindex, hterm, hconf]
    exact hR keep
  obtain ⟨-, hcn⟩ := hclean.node i
  rcases filesAt_some hf with ⟨-, rfl⟩ | ⟨e, n, eff, rfl, hout, hmem⟩
  · refine .inl (hread (R := fun index _ conf => index = _ ∧ conf = _) (hcn.store.1.found ?_))
    exact ⟨rfl, hcn.conf.symm⟩
  · obtain rfl := hfree (e, faults) rfl
    obtain ⟨op, hres, -, hex⟩ := outcome_some hout
    refine .inr ⟨e, rfl, op, hres, hread (hcn.section_found ?_ hsnap hle hex files hmem)⟩
    rintro req rfl
    obtain ⟨source, hreq⟩ := hclean.op hres
    exact hreq

end Raft
end DistKV
