import DistKV.Raft.Clean

/-!
# Is saving a snapshot atomic?

`saveSnapshot` replaces four files one after the other, and `openDiskStorage` puts its result
together from all four. A crash in between recovers the state from before the call or the state
after it in two cases only: the call changes neither the configuration nor the data of an existing
snapshot (`saveSnapshot_atomic_iff`). Otherwise there is a window

* after `snapshot.bin`, where the new data stands under the old index, and
* after `snapshot.meta`, where the new snapshot comes with the old configuration, because the
  WAL has it and `snapshot.conf` is still the old one.
-/

namespace DistKV
namespace Raft

open Run (IsRun)

/-- What a recovery brings back. -/
structure Persisted where
  snapIndex : Nat
  snapTerm : Nat
  snapshot : Bytes
  conf : ConfState
  log : List Entry
  term : Nat
  votedFor : Nat
  deriving DecidableEq

def DiskStorage.persisted (s : DiskStorage) : Persisted where
  snapIndex := s.snapIndex
  snapTerm := s.snapTerm
  snapshot := s.snapshot
  conf := s.conf
  log := s.log
  term := s.term
  votedFor := s.votedFor

/-- The state after a snapshot: the entries above it stay, and so does the hard state. -/
def Persisted.withSnapshot (p : Persisted) (index term : Nat) (data : Bytes) (conf : ConfState) :
    Persisted :=
  { p with
    snapIndex := index, snapTerm := term, snapshot := data, conf := conf
    log := p.log.filter fun e => decide (e.index > index) }

/-- The states of the files a crash of the call can find. -/
def DiskStorage.crashPoints (s : DiskStorage) (index term : Nat) (data : Bytes)
    (conf : ConfState) : List Files :=
  s.disk.files ::
    (DiskStorage.saveSnapshot { s with disk := { s.disk with trail := [] } } index term data
      conf).1.disk.trail

/-- Wherever the call is cut short, and however many of the unsynced records survive, what is
    recovered is a state a crash before the call could have left, or that state with the
    snapshot; and the hard state is the one in memory. -/
def CrashAtomic (peers : List Nat) (s : DiskStorage) (index term : Nat) (data : Bytes)
    (conf : ConfState) : Prop :=
  ∀ f ∈ s.crashPoints index term data conf, ∀ keep,
    ∃ r, DiskStorage.openDiskStorage (f.crash keep) peers = some r ∧
      (r.term, r.votedFor) = (s.term, s.votedFor) ∧
      ∃ keep' old, DiskStorage.openDiskStorage (s.disk.files.crash keep') peers = some old ∧
        (r.persisted = old.persisted ∨
          r.persisted = old.persisted.withSnapshot index term data conf)

/-! ## What is recovered -/

/-- The recovery after a crash that `keep` unsynced records survive. -/
def Files.persisted (f : Files) (peers : List Nat) (keep : Nat) : Persisted where
  snapIndex := f.snapIndex
  snapTerm := f.snapTerm
  snapshot := if f.snapshotMeta.isSome then f.snapshotBin.getD [] else []
  conf := confOf (f.snapConf peers) (f.synced ++ f.unsynced.take keep)
  log := logOf f.snapIndex (f.synced ++ f.unsynced.take keep)
  term := (hardOf (f.synced ++ f.unsynced.take keep)).1
  votedFor := (hardOf (f.synced ++ f.unsynced.take keep)).2

theorem persisted_of_open {f : Files} {peers : List Nat} {keep : Nat} {r : DiskStorage}
    (h : DiskStorage.openDiskStorage (f.crash keep) peers = some r) :
    r.persisted = f.persisted peers keep := by
  have hr := recovered_of_open h
  rw [DiskStorage.persisted, hr.snapIndex, hr.snapTerm, hr.snapshot, hr.conf, hr.log, hr.term,
    hr.votedFor]
  rfl

theorem open_crash {f : Files} (h : f.Readable) (peers : List Nat) (keep : Nat) :
    ∃ r, DiskStorage.openDiskStorage (f.crash keep) peers = some r ∧
      r.persisted = f.persisted peers keep := by
  obtain ⟨r, hr⟩ := open_isSome (f := f.crash keep) h peers
  exact ⟨r, hr, persisted_of_open hr⟩

section Clean

variable {peers : List Nat} {s : DiskStorage}

theorem Clean.take (h : Clean peers s) (keep : Nat) :
    ∀ r ∈ s.disk.files.unsynced.take keep, r.IsLog :=
  fun r hr => h.tail r (List.mem_of_mem_take hr)

/-- Before the call everything but unsynced log records is recovered as it is in memory. -/
theorem Clean.persisted (h : Clean peers s) (keep : Nat) :
    s.disk.files.persisted peers keep =
      { s.persisted with
        log := logOf s.snapIndex (s.disk.files.synced ++ s.disk.files.unsynced.take keep) } := by
  have hdata : (if s.disk.files.snapshotMeta.isSome then s.disk.files.snapshotBin.getD [] else []) =
      s.snapshot := by
    rw [h.saved]
    by_cases hz : s.snapIndex = 0
    · rw [if_pos hz, (h.fresh hz).2.1]; rfl
    · rw [if_neg hz, h.bin hz]; rfl
  rw [Files.persisted, h.files_snapIndex, h.files_snapTerm, hdata, confOf_logs _ (h.take keep), h.conf,
    hardOf_logs _ (h.take keep), h.hard]
  rfl

/-! ## The windows -/

theorem Clean.crashPoints (h : Clean peers s) {index : Nat} (hlt : s.snapIndex < index)
    (term : Nat) (data : Bytes) (conf : ConfState) :
    s.crashPoints index term data conf =
      s.disk.files :: s.snapshotStates index term data conf := by
  rw [DiskStorage.crashPoints,
    DiskStorage.saveSnapshot_calm (s := { s with disk := { s.disk with trail := [] } })
      ⟨h.calm.opened, h.calm.faults⟩ hlt]
  rfl

/-- Until `snapshot.conf` is replaced the configuration is the old one. -/
theorem Clean.oldConf (h : Clean peers s) (data : Bytes) (index term : Nat) :
    (s.disk.files.withMeta data index term).snapConf peers = s.disk.files.snapConf peers := by
  simp only [Files.snapConf, Files.withMeta, Files.withBin, h.saved]
  by_cases hz : s.snapIndex = 0
  · rw [if_pos hz, (h.fresh hz).2.2]
  · rw [if_neg hz]
    cases s.disk.files.snapshotConf <;> rfl

/-- From `snapshot.meta` on, and until the WAL is replaced, the log is the old one above the new
    index. -/
theorem Clean.logOf_above (h : Clean peers s) {index : Nat} (hlt : s.snapIndex < index)
    {recs : List WalRecord} (hp : recs <+: s.disk.files.records) :
    logOf index recs = (logOf s.snapIndex recs).filter fun e => decide (e.index > index) :=
  logOf_filter (Nat.le_of_lt hlt) (h.stored.wal.restrict hp)

theorem take_prefix_records (f : Files) (keep : Nat) :
    f.synced ++ f.unsynced.take keep <+: f.records :=
  (List.prefix_append_right_inj _).mpr (List.take_prefix _ _)

/-- Records either decide the configuration or leave the one before them. -/
theorem confOf_cases (recs : List WalRecord) :
    (∀ b, confOf b recs = b) ∨ ∃ c, ∀ b, confOf b recs = c := by
  induction recs using List.reverseRecOn with
  | nil => exact .inl fun b => rfl
  | append_singleton recs r ih =>
    simp only [confOf_append]
    cases r with
    | confState c =>
      simp only [replayConf]
      split
      · exact .inr ⟨c, fun _ => rfl⟩
      · exact ih
    | _ => exact ih

theorem confOf_confOf (b : ConfState) (recs : List WalRecord) :
    confOf (confOf b recs) recs = confOf b recs := by
  rcases confOf_cases recs with h | ⟨c, h⟩
  · rw [h, h]
  · rw [h, h]

/-- A window that shows the new snapshot over the old WAL: its configuration decides. -/
theorem Clean.persisted_meta (h : Clean peers s) {index : Nat} (hlt : s.snapIndex < index)
    (term : Nat) (data : Bytes) (cs : Option ConfState) (keep : Nat) :
    Files.persisted { s.disk.files.withMeta data index term with snapshotConf := cs } peers keep =
      (s.disk.files.persisted peers keep).withSnapshot index term data
        (confOf (Files.snapConf { s.disk.files.withMeta data index term with snapshotConf := cs }
          peers) s.disk.files.synced) := by
  rw [h.persisted, Persisted.withSnapshot]
  simp only
  rw [← h.logOf_above hlt (take_prefix_records _ _), Files.persisted]
  simp only [Files.withMeta, Files.withBin, confOf_logs _ (h.take keep), hardOf_logs _ (h.take keep),
    h.hard]
  rfl

/-- A state of the files is harmless if what it recovers is what the old files recover, with or
    without the snapshot. -/
theorem Clean.harmless (h : Clean peers s) {index term keep : Nat} {data : Bytes}
    {conf : ConfState} {f : Files} (keep' : Nat) (hread : f.Readable)
    (hf : f.persisted peers keep = s.disk.files.persisted peers keep' ∨
      f.persisted peers keep =
        (s.disk.files.persisted peers keep').withSnapshot index term data conf) :
    ∃ r, DiskStorage.openDiskStorage (f.crash keep) peers = some r ∧
      (r.term, r.votedFor) = (s.term, s.votedFor) ∧
      ∃ keep' old, DiskStorage.openDiskStorage (s.disk.files.crash keep') peers = some old ∧
        (r.persisted = old.persisted ∨
          r.persisted = old.persisted.withSnapshot index term data conf) := by
  obtain ⟨r, ho, hr⟩ := open_crash hread peers keep
  obtain ⟨old, hold, hp⟩ := open_crash h.stored.readable peers keep'
  refine ⟨r, ho, ?_, keep', old, hold, by rw [hr, hp]; exact hf⟩
  have hhard : (r.persisted.term, r.persisted.votedFor) = (s.term, s.votedFor) := by
    rw [hr]
    rcases hf with hf | hf
    · rw [hf, h.persisted]; rfl
    · rw [hf, h.persisted]; rfl
  exact hhard

/-- The window after `snapshot.bin`. -/
theorem Clean.persisted_bin (h : Clean peers s) (data : Bytes) (keep : Nat) :
    (s.disk.files.withBin data).persisted peers keep =
      { s.disk.files.persisted peers keep with
        snapshot := if s.snapIndex = 0 then s.snapshot else data } := by
  show { s.disk.files.persisted peers keep with
    snapshot := if s.disk.files.snapshotMeta.isSome then data else [] } = _
  rw [h.saved]
  by_cases hz : s.snapIndex = 0
  · rw [if_pos hz, if_pos hz, (h.fresh hz).2.1]
    rfl
  · rw [if_neg hz, if_neg hz]
    rfl

/-- The new WAL recovers what a crash that loses nothing would have, with the snapshot. -/
theorem Clean.persisted_wal (h : Clean peers s) {index : Nat} (hlt : s.snapIndex < index)
    (term : Nat) (data : Bytes) {conf : ConfState} (hc : conf.Proper peers) (keep : Nat) :
    Files.persisted
        { snapshotBin := some data, snapshotMeta := some (index, term), snapshotConf := some conf
          synced := .hardState s.term s.votedFor :: .confState conf ::
            (s.log.filter fun e => decide (e.index > index)).map .append
          unsynced := [] } peers keep =
      (s.disk.files.persisted peers s.disk.files.unsynced.length).withSnapshot index term data
        conf := by
  have hlog : s.log.filter (fun e => decide (e.index > index)) =
      logOf index s.disk.files.records := by
    rw [h.logOf_above hlt (List.prefix_refl _), ← h.stored.log]
  have hchain : Chain index (s.log.filter fun e => decide (e.index > index)) := by
    rw [hlog]; exact (h.stored.wal.rebase (Nat.le_of_lt hlt)).chain
  obtain ⟨hnew, -⟩ := logOf_snapshotRecords hchain s.term s.votedFor conf
  have hlogs : ∀ r ∈ (s.log.filter fun e => decide (e.index > index)).map WalRecord.append,
      r.IsLog := isLog_map_append
  have hconf := confOf_snapshot hc s.term s.votedFor hlogs
  have hhard := hardOf_logs [.hardState s.term s.votedFor, .confState conf] hlogs
  rw [List.cons_append, List.cons_append, List.nil_append] at hhard
  rw [h.persisted, List.take_length, Persisted.withSnapshot]
  simp only [Files.persisted, List.take_nil, List.append_nil, Files.snapIndex, Files.snapConf,
    Option.map_some, Option.getD_some, hnew, hconf, hhard]
  rw [← Files.records, ← h.stored.log]
  rfl

/-- A `snapshot.conf` with the old configuration changes nothing. -/
theorem Clean.newConf (h : Clean peers s) {data : Bytes} {index term : Nat} :
    confOf (Files.snapConf
      { s.disk.files.withMeta data index term with snapshotConf := some s.conf } peers)
      s.disk.files.synced = s.conf := by
  have hsame : Files.snapConf
      { s.disk.files.withMeta data index term with snapshotConf := some s.conf } peers = s.conf := by
    simp only [Files.snapConf, Files.withMeta]
    rcases h.proper with hpos | hboot
    · exact if_pos hpos
    · split
      · rfl
      · exact hboot.symm
  rw [hsame, ← h.conf, confOf_confOf]

/-- **When saving a snapshot is atomic.** -/
theorem Clean.atomic_iff (h : Clean peers s) (index term : Nat) (data : Bytes) (conf : ConfState) :
    CrashAtomic peers s index term data conf ↔
      (index ≤ s.snapIndex ∨ conf = s.conf ∧ (s.snapIndex = 0 ∨ data = s.snapshot)) := by
  rcases Nat.lt_or_ge s.snapIndex index with hlt | hge
  swap
  · refine iff_of_true (fun f hf keep => ?_) (.inl hge)
    rw [DiskStorage.crashPoints, DiskStorage.saveSnapshot, if_pos hge] at hf
    obtain rfl := List.mem_singleton.mp hf
    exact h.harmless keep h.stored.readable (.inl rfl)
  have hne : index ≠ s.snapIndex := Nat.ne_of_gt hlt
  have hpoints := h.crashPoints hlt term data conf
  have hmeta : ∀ keep, (s.disk.files.withMeta data index term).persisted peers keep =
      (s.disk.files.persisted peers keep).withSnapshot index term data s.conf := by
    intro keep
    have hold := h.persisted_meta hlt term data s.disk.files.snapshotConf keep
    have hconf := h.oldConf data index term
    exact hold.trans (by rw [← h.conf, ← hconf]; rfl)
  constructor
  · intro hat
    refine .inr ⟨?_, ?_⟩
    · -- the window after `snapshot.meta` can only show the new snapshot
      obtain ⟨r, ho, -, keep', old, hold, hcase⟩ :=
        hat (s.disk.files.withMeta data index term)
          (by rw [hpoints]; simp [DiskStorage.snapshotStates]) 0
      rw [persisted_of_open ho, persisted_of_open hold, hmeta, h.persisted, h.persisted] at hcase
      rcases hcase with hcase | hcase
      · exact absurd (congrArg Persisted.snapIndex hcase) hne
      · exact (congrArg Persisted.conf hcase).symm
    · -- the one after `snapshot.bin` can only show the old one
      obtain ⟨r, ho, -, keep', old, hold, hcase⟩ :=
        hat (s.disk.files.withBin data)
          (by rw [hpoints]; simp [DiskStorage.snapshotStates]) 0
      rw [persisted_of_open ho, persisted_of_open hold, h.persisted_bin, h.persisted,
        h.persisted] at hcase
      rcases hcase with hcase | hcase
      · by_cases hz : s.snapIndex = 0
        · exact .inl hz
        · have hdata := congrArg Persisted.snapshot hcase
          simp only [if_neg hz] at hdata
          exact .inr hdata
      · exact absurd (congrArg Persisted.snapIndex hcase).symm hne
  · rintro (hle | ⟨rfl, hdata⟩)
    · exact absurd hle (Nat.not_le_of_lt hlt)
    intro f hf keep
    rw [hpoints, DiskStorage.snapshotStates] at hf
    simp only [List.mem_cons, List.not_mem_nil, or_false] at hf
    have hreadable : ∀ f : Files, f.snapshotBin = some data → f.Readable := by
      intro f hb _
      rw [hb]; rfl
    have hconf : ∀ keep, (s.disk.files.withConf data index term s.conf).persisted peers keep =
        (s.disk.files.persisted peers keep).withSnapshot index term data s.conf := by
      intro keep
      have hnew := h.persisted_meta hlt term data (some s.conf) keep
      rwa [h.newConf] at hnew
    rcases hf with rfl | rfl | rfl | rfl | rfl | rfl
    · exact h.harmless keep h.stored.readable (.inl rfl)
    · refine h.harmless keep (hreadable _ rfl) (.inl ?_)
      rw [h.persisted_bin, h.persisted]
      rcases hdata with hz | rfl
      · rw [if_pos hz]; rfl
      · rw [ite_self]; rfl
    · exact h.harmless keep (hreadable _ rfl) (.inr (hmeta keep))
    · exact h.harmless keep (hreadable _ rfl) (.inr (hconf keep))
    · -- the close has synced the old WAL
      have hall := hconf s.disk.files.unsynced.length
      refine h.harmless s.disk.files.unsynced.length (hreadable _ rfl) (.inr ?_)
      rw [← hall]
      simp [Files.persisted, Files.flush, Files.withConf, Files.withMeta, Files.withBin,
        Files.snapConf, Files.snapIndex, Files.snapTerm]
    · exact h.harmless _ (hreadable _ rfl) (.inr (h.persisted_wal hlt term data h.proper keep))

end Clean

/-! ## In every run -/

/-- **Saving a snapshot is atomic** in a reachable state if and only if the call has nothing to do,
    or it leaves the configuration as it is and either there is no snapshot yet or its data stays
    the same. -/
theorem saveSnapshot_atomic_iff (cfg : Config) (σ : Nat → Cluster) (α : Nat → Option Action)
    (hrun : IsRun (Cluster.step cfg) (Cluster.init cfg) σ α)
    (faultFree : ∀ t act, α t = some act → act.FaultFree) (k i index term : Nat) (data : Bytes)
    (conf : ConfState) :
    CrashAtomic cfg.peers ((σ k).node i).store index term data conf ↔
      (index ≤ ((σ k).node i).store.snapIndex ∨ conf = ((σ k).node i).store.conf ∧
        (((σ k).node i).store.snapIndex = 0 ∨ data = ((σ k).node i).store.snapshot)) := by
  have hall := (cleanRule cfg).run hrun (fun t act ha => (faultFree t act ha).within _) k
  exact (hall.node i).2.store.1.atomic_iff index term data conf

theorem saveSnapshot_atomic_iff_first :
    CrashAtomic [1, 2, 3] ((stateAt firstTerm 6).node 1).store 1 1 [9]
      (.newConfState [1, 2, 3]) := by
  refine (saveSnapshot_atomic_iff threeNodes (stateAt firstTerm) (fun k => firstTerm[k]?)
    (isRun_stateAt (by decide +kernel)) ?_ 6 1 1 1 [9] (.newConfState [1, 2, 3])).mpr
      (.inr ⟨by decide +kernel, .inl (by decide +kernel)⟩)
  have hall : ∀ act ∈ firstTerm, act.FaultFree := by decide
  exact fun t act ha => hall act (List.mem_of_getElem? ha)

/-- Node 1 has compacted its log through index 1 and crashes while it compacts it through index
    2, after the rename of `snapshot.bin`. -/
def crashAfterBin : List Action :=
  firstTerm ++
    [sec (.propose 1 [7]), sec (.tick 1 false fun _ => true), sec (.deliver 4), sec (.reply 4 0),
      sec (.collect 1), sec (.snapshot 1 1 [9]), .restart 1 (some (.snapshot 1 2 [8])) [] 0 0]

/-- It recovers the data of the second snapshot under the index of the first one. -/
theorem new_data_under_old_index :
    IsRun (Cluster.step threeNodes) (Cluster.init threeNodes) (stateAt crashAfterBin)
      (fun k => crashAfterBin[k]?) ∧
    (∀ act ∈ crashAfterBin, act.FaultFree) ∧
    (((stateAt crashAfterBin 12).node 1).store.snapIndex,
      ((stateAt crashAfterBin 12).node 1).store.snapshot) = (1, [9]) ∧
    (((stateAt crashAfterBin 13).node 1).store.snapIndex,
      ((stateAt crashAfterBin 13).node 1).store.snapshot) = (1, [8]) ∧
    ¬CrashAtomic [1, 2, 3] ((stateAt crashAfterBin 12).node 1).store 2 1 [8]
      (.newConfState [1, 2, 3]) := by
  refine ⟨isRun_stateAt (by decide +kernel), by decide, by decide +kernel, by decide +kernel,
    fun h => ?_⟩
  obtain ⟨r, ho, -, keep, old, hold, hcase⟩ :=
    h (((stateAt crashAfterBin 12).node 1).store.disk.files.withBin [8]) (by decide +kernel) 0
  -- nothing is unsynced, so there is one state to compare with
  have hcrash : ((stateAt crashAfterBin 12).node 1).store.disk.files.crash keep =
      ((stateAt crashAfterBin 12).node 1).store.disk.files := by
    have hsynced : ((stateAt crashAfterBin 12).node 1).store.disk.files.unsynced = [] := by
      decide +kernel
    rw [Files.crash, hsynced, List.take_nil, List.append_nil, ← hsynced]
  rw [hcrash] at hold
  have hnew : (DiskStorage.openDiskStorage
      ((((stateAt crashAfterBin 12).node 1).store.disk.files.withBin [8]).crash 0) [1, 2, 3]).map
        (fun r => (r.snapIndex, r.snapshot)) = some (1, [8]) := by decide +kernel
  have hprev : (DiskStorage.openDiskStorage ((stateAt crashAfterBin 12).node 1).store.disk.files
      [1, 2, 3]).map (fun r => (r.snapIndex, r.snapshot)) = some (1, [9]) := by decide +kernel
  rw [ho, Option.map_some, Option.some.injEq, Prod.mk.injEq] at hnew
  rw [hold, Option.map_some, Option.some.injEq, Prod.mk.injEq] at hprev
  rcases hcase with hcase | hcase
  · have hdata : r.snapshot = old.snapshot := congrArg Persisted.snapshot hcase
    rw [hnew.2, hprev.2] at hdata
    cases hdata
  · have hindex : r.snapIndex = 2 := congrArg Persisted.snapIndex hcase
    rw [hnew.1] at hindex
    cases hindex

end Raft
end DistKV
