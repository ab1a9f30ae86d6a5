import DistKV.Raft.Guard
import DistKV.Raft.Replay

/-!
# Memory is what the WAL replays to

`Stored` is the invariant of a storage between two file operations: the slice in memory is the
replay of all records written so far, and the indices are consecutive along every prefix of
them. It holds whatever fails, in the middle of `saveSnapshot` too, where `snapshot.meta` may
already announce a later snapshot than the one in memory.

`Recoverable` is the same for files without a process; a crash takes the first to the second and
`openDiskStorage` takes it back.
-/

namespace DistKV
namespace Raft

structure Stored (s : DiskStorage) : Prop where
  base : s.snapIndex ≤ s.disk.files.snapIndex
  wal : WalOk s.snapIndex s.disk.files.records
  log : s.log = logOf s.snapIndex s.disk.files.records
  readable : s.disk.files.Readable

structure Recoverable (f : Files) : Prop where
  readable : f.Readable
  wal : ∃ b, b ≤ f.snapIndex ∧ WalOk b f.records

@[simp] theorem Files.records_flush (f : Files) : f.flush.records = f.records := by
  simp [Files.records, Files.flush]

@[simp] theorem Files.records_write (f : Files) (r : WalRecord) :
    (f.write r).records = f.records ++ [r] := by
  simp [Files.records, Files.write]

theorem storedGuard : Guard Stored Recoverable where
  quiet hd h := by
    constructor
    · simpa only [hd] using h.base
    · simpa only [hd] using h.wal
    · simpa only [hd] using h.log
    · simpa only [hd] using h.readable
  files h := ⟨h.readable, _, h.base, h.wal⟩
  flush h := by
    refine ⟨h.base, ?_, ?_, h.readable⟩
    · rw [DiskStorage.withFiles, Files.records_flush]; exact h.wal
    · rw [DiskStorage.withFiles, Files.records_flush]; exact h.log

/-! ## Reading a consecutive log -/

section Reading

variable {s : DiskStorage}

theorem lastIndex_of_chain (h : Chain s.snapIndex s.log) :
    s.lastIndex = s.snapIndex + s.log.length := by
  rw [DiskStorage.lastIndex]
  cases hl : s.log.getLast? with
  | none => rw [List.getLast?_eq_none_iff.mp hl]; rfl
  | some e => exact h.getLast? hl

theorem termAt_snapIndex : s.termAt s.snapIndex = some s.snapTerm := by
  simp [DiskStorage.termAt]

theorem termAt_above (h : Chain s.snapIndex s.log) {i : Nat} (hi : s.snapIndex < i) :
    s.termAt i = s.log[i - s.snapIndex - 1]?.map (·.term) := by
  have hlast := lastIndex_of_chain h
  have hne : i ≠ s.snapIndex := by omega
  rw [DiskStorage.termAt, if_neg hne, DiskStorage.firstIndex, Nat.sub_sub]
  split
  · next hor =>
    have : s.log.length ≤ i - (s.snapIndex + 1) := by omega
    rw [List.getElem?_eq_none this]
    rfl
  · rfl

theorem termAt_below {i : Nat} (hi : i < s.snapIndex) : s.termAt i = none := by
  rw [DiskStorage.termAt, if_neg (by omega), if_pos (.inl (by rw [DiskStorage.firstIndex]; omega))]

theorem entryAt_above {i : Nat} (hi : s.snapIndex < i) :
    s.entryAt i = s.log[i - s.snapIndex - 1]? := by
  rw [DiskStorage.entryAt, DiskStorage.firstIndex, if_neg (by omega), Nat.sub_sub]

theorem entryAt_index (h : Chain s.snapIndex s.log) {i : Nat} {e : Entry}
    (he : s.entryAt i = some e) : e.index = i := by
  rw [DiskStorage.entryAt, DiskStorage.firstIndex] at he
  split at he
  · cases he
  · have := h _ e he
    omega

theorem entriesFrom_eq (h : Chain s.snapIndex s.log) {lo : Nat} (hlo : s.snapIndex < lo) :
    s.entriesFrom lo = s.log.drop (lo - s.snapIndex - 1) := by
  have hlast := lastIndex_of_chain h
  rw [DiskStorage.entriesFrom, DiskStorage.firstIndex]
  split
  · next hor => exact (List.drop_eq_nil_iff.mpr (by omega)).symm
  · rw [Nat.sub_sub]

end Reading

/-! ## The storage calls -/

section Calls

variable {s : DiskStorage}

theorem Stored.chain (h : Stored s) : Chain s.snapIndex s.log := by
  rw [h.log]; exact h.wal.chain

theorem Stored.lastIndex (h : Stored s) : s.lastIndex = s.snapIndex + s.log.length :=
  lastIndex_of_chain h.chain

/-- A record that is not about the log. -/
theorem Stored.write (h : Stored s) {r : WalRecord} (hr : ∀ log, replayLog s.snapIndex log r = log) :
    Stored (s.withFiles (s.disk.files.write r)) := by
  refine ⟨h.base, ?_, ?_, h.readable⟩
  · rw [DiskStorage.withFiles, Files.records_write]
    exact h.wal.concat (by rw [hr]; exact h.wal.chain)
  · rw [DiskStorage.withFiles, Files.records_write, logOf_append, hr]
    exact h.log

theorem Stored.setHardState (h : Kept Stored Recoverable s) (term votedFor : Nat) :
    Kept Stored Recoverable (s.setHardState term votedFor).1 := by
  have hm : Stored { s with term := term, votedFor := votedFor } :=
    ⟨h.1.base, h.1.wal, h.1.log, h.1.readable⟩
  exact storedGuard.setHardState h hm (hm.write fun _ => rfl)

theorem Stored.setConfState (h : Kept Stored Recoverable s) (c : ConfState) :
    Kept Stored Recoverable (s.setConfState c).1 := by
  have hm : Stored { s with conf := c } := ⟨h.1.base, h.1.wal, h.1.log, h.1.readable⟩
  exact storedGuard.setConfState h hm (hm.write fun _ => rfl)

/-- What can be appended: consecutive entries that start above the snapshot and leave no gap. -/
def Appendable (s : DiskStorage) (es : List Entry) : Prop :=
  ∀ e es', es = e :: es' → s.snapIndex < e.index ∧ e.index ≤ s.snapIndex + s.log.length + 1 ∧
    Chain (e.index - 1) es

theorem Stored.appendEntries (h : Kept Stored Recoverable s) {es : List Entry}
    (hes : Appendable s es) : Kept Stored Recoverable (s.appendEntries es).1 := by
  have hc := h.1.chain
  refine storedGuard.appendEntries
    (Q := fun es s => Stored s ∧ Chain (s.snapIndex + s.log.length) es)
    (fun hq => hq.1) (fun hd hq => ⟨storedGuard.quiet hd hq.1, hq.2⟩) ?_ h ?_ ?_
  · -- one round of the loop
    rintro e es s ⟨hs, hch⟩
    have hix := hch.head
    have hr : replayLog s.snapIndex s.log (.append e) = s.log ++ [e] := by
      simp only [replayLog]; rw [if_pos (by omega)]
    refine ⟨⟨hs.base, ?_, ?_, hs.readable⟩, ?_⟩
    · rw [DiskStorage.withFiles, Files.records_write]
      refine hs.wal.concat ?_
      rw [← hs.log, hr]
      exact hs.chain.concat (by omega)
    · rw [DiskStorage.withFiles, Files.records_write, logOf_append, ← hs.log, hr]
    · simpa [DiskStorage.withFiles, Nat.add_assoc] using hch.tail
  · intro e es' he hlt
    obtain ⟨h1, h2, h3⟩ := hes e es' he
    refine ⟨h.1, ?_⟩
    have hix : e.index = s.snapIndex + s.log.length + 1 := by
      cases hl : s.log.getLast? with
      | none => rw [List.getLast?_eq_none_iff.mp hl] at h2 ⊢; simp at h2 ⊢; omega
      | some x =>
        have := hc.getLast? hl
        have := hlt x hl
        omega
    rwa [hix, Nat.add_sub_cancel] at h3
  · intro e es' x he hl hge
    obtain ⟨h1, h2, h3⟩ := hes e es' he
    have ht := hc.truncateFrom e.index
    refine ⟨⟨h.1.base, ?_, ?_, h.1.readable⟩, ?_⟩
    · rw [DiskStorage.withFiles, Files.records_write]
      refine h.1.wal.concat ?_
      rw [← h.1.log]
      show Chain s.snapIndex (truncateFrom s.log e.index)
      rw [ht]
      exact hc.restrict (List.take_prefix _ _)
    · rw [DiskStorage.withFiles, Files.records_write, logOf_append, ← h.1.log]
      rfl
    · have hlen : (truncateFrom s.log e.index).length = e.index - (s.snapIndex + 1) := by
        rw [ht, List.length_take]; omega
      show Chain (s.snapIndex + (truncateFrom s.log e.index).length) es
      rw [hlen]
      have : s.snapIndex + (e.index - (s.snapIndex + 1)) = e.index - 1 := by omega
      rwa [this]

theorem Stored.sync (h : Kept Stored Recoverable s) : Kept Stored Recoverable s.sync.1 :=
  storedGuard.sync h

/-- The records of a rewritten WAL replay to the log they were made from. -/
theorem logOf_snapshotRecords {b : Nat} {log : List Entry} (h : Chain b log) (t v : Nat)
    (conf : ConfState) : logOf b (.hardState t v :: .confState conf :: log.map .append) = log ∧
      WalOk b (.hardState t v :: .confState conf :: log.map .append) := by
  induction log using List.reverseRecOn with
  | nil => exact ⟨rfl, (WalOk.nil.concat Chain.nil).concat Chain.nil⟩
  | append_singleton log e ih =>
    obtain ⟨hlog, hwal⟩ := ih (h.restrict (List.prefix_append _ _))
    have he : e.index = b + 1 + log.length := h _ e (by simp)
    have hrecs : WalRecord.hardState t v :: .confState conf :: (log ++ [e]).map .append =
        (.hardState t v :: .confState conf :: log.map .append) ++ [.append e] := by simp
    have hr : replayLog b log (.append e) = log ++ [e] := by
      simp only [replayLog]; rw [if_pos (by omega)]
    rw [hrecs]
    exact ⟨by rw [logOf_append, hlog, hr], hwal.concat (by rw [hlog, hr]; exact h)⟩

theorem Stored.saveSnapshot (h : Kept Stored Recoverable s) (index term : Nat) (data : Bytes)
    (conf : ConfState) : Kept Stored Recoverable (s.saveSnapshot index term data conf).1 := by
  have hbase : s.snapIndex < index → s.snapIndex ≤ index := Nat.le_of_lt
  have hlog : s.snapIndex < index → (s.log.filter fun e => decide (e.index > index)) =
      logOf index s.disk.files.records := by
    intro hlt
    rw [logOf_filter (Nat.le_of_lt hlt) h.1.wal, ← h.1.log]
  refine storedGuard.saveSnapshot h ?_ ?_ ?_ ?_ ?_
  · exact ⟨h.1.base, h.1.wal, h.1.log, fun _ => rfl⟩
  · exact fun hlt => ⟨hbase hlt, h.1.wal, h.1.log, fun _ => rfl⟩
  · exact fun hlt => ⟨hbase hlt, h.1.wal, h.1.log, fun _ => rfl⟩
  · exact fun hlt => ⟨Nat.le_refl _, h.1.wal.rebase (hbase hlt), hlog hlt, fun _ => rfl⟩
  · intro hlt f hbin hmeta _ huns hsyn
    have hch : Chain index (s.log.filter fun e => decide (e.index > index)) := by
      rw [hlog hlt]; exact (h.1.wal.rebase (hbase hlt)).chain
    have hrecs : f.records = .hardState s.term s.votedFor :: .confState conf ::
        (s.log.filter fun e => decide (e.index > index)).map .append := by
      rw [Files.records, huns, hsyn, List.append_nil]
    obtain ⟨h1, h2⟩ := logOf_snapshotRecords hch s.term s.votedFor conf
    refine ⟨?_, ?_, ?_, ?_⟩
    · show index ≤ f.snapIndex
      simp [Files.snapIndex, hmeta]
    · show WalOk index f.records
      rw [hrecs]; exact h2
    · show (s.log.filter fun e => decide (e.index > index)) = logOf index f.records
      rw [hrecs]; exact h1.symm
    · show f.Readable
      intro _; rw [hbin]; rfl

end Calls

/-! ## Recovery -/

/-- A crash keeps a prefix of the records. -/
theorem Files.crash_synced (f : Files) (keep : Nat) : (f.crash keep).synced <+: f.records := by
  rw [Files.crash, Files.records]
  exact (List.prefix_append_right_inj _).mpr (List.take_prefix _ _)

theorem Recoverable.recover {f : Files} (h : Recoverable f) {keep : Nat} {bootstrap : List Nat}
    {s : DiskStorage} (ho : DiskStorage.openDiskStorage (f.crash keep) bootstrap = some s) :
    Kept Stored Recoverable s := by
  have hr := recovered_of_open ho
  obtain ⟨b, hb, hwal⟩ := h.wal
  have hrecs : (f.crash keep).records = (f.crash keep).synced := by
    simp [Files.records, Files.crash]
  have hw : WalOk f.snapIndex (f.crash keep).synced :=
    (hwal.restrict (f.crash_synced keep)).rebase hb
  refine ⟨⟨?_, ?_, ?_, ?_⟩, ?_⟩
  · rw [hr.disk, hr.snapIndex]
  · rw [hr.disk, hr.snapIndex, hrecs]; exact hw
  · rw [hr.disk, hr.snapIndex, hrecs]; exact hr.log
  · rw [hr.disk]; exact h.readable
  · rw [hr.disk]; exact fun _ hf => absurd hf (by simp)

end Raft
end DistKV
