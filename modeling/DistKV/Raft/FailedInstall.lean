import DistKV.Raft.Durable

/-!
# A snapshot that cannot be saved

When `saveSnapshot` fails, `HandleInstallSnapshot` logs the error and returns without releasing the
mutex. There is no failing file operation for which it is otherwise (`failed_install`):

* no section of the process runs again;
* `conf`, `commitIndex` and `lastApplied` of the node stay, but the log and the snapshot in memory
  stay only if one of the three files of the snapshot could not be written, because they are
  replaced before the WAL is;
* the reply has no flag for success, so the leader takes the snapshot for installed. That is true only
  if the follower's files reach the snapshot's index.
-/

namespace DistKV
namespace Raft

/-- The last index of what is recovered from the files. -/
def DiskStorage.durableLast (s : DiskStorage) (bootstrap : List Nat) : Nat :=
  ((openDiskStorage (s.disk.files.crash 0) bootstrap).map lastIndex).getD 0

/-- Log and snapshot in memory are the same. -/
structure SameMemory (s s' : DiskStorage) : Prop where
  log : s'.log = s.log
  snapIndex : s'.snapIndex = s.snapIndex
  snapTerm : s'.snapTerm = s.snapTerm
  snapshot : s'.snapshot = s.snapshot

/-- The fields of the node itself are the same. -/
structure SameIndices (n n' : Node) : Prop where
  conf : n'.conf = n.conf
  commitIndex : n'.commitIndex = n.commitIndex
  lastApplied : n'.lastApplied = n.lastApplied

/-- No leader is told more by a reply than the follower's files hold. -/
def HonestReply (s : DiskStorage) (req : InstallSnapshotRequest) (resp : InstallSnapshotResponse) :
    Prop :=
  ∀ (l : Node) (peer : Nat) (bootstrap : List Nat),
    ((l.onSnapshotReply peer req resp).matchIndex peer).getD 0 ≤
      max ((l.matchIndex peer).getD 0) (s.durableLast bootstrap)

/-- What a failed installation should leave. -/
structure Harmless (n n' : Node) (req : InstallSnapshotRequest) (resp : InstallSnapshotResponse) :
    Prop where
  released : n'.locked = false
  memory : SameMemory n.store n'.store
  indices : SameIndices n n'
  reply : HonestReply n'.store req resp

namespace Node

/-- The handler comes to `saveSnapshot`, and it fails. -/
structure SaveFails (n : Node) (req : InstallSnapshotRequest) : Prop where
  term : n.store.term ≤ req.term
  above : n.store.snapIndex < req.lastIncludedIndex
  failed : ((n.follow req.term req.leaderId).store.saveSnapshot req.lastIncludedIndex
    req.lastIncludedTerm req.data req.confState).2 = false

/-- One of the three files of the snapshot cannot be written. -/
def FilesFail (n : Node) (req : InstallSnapshotRequest) : Prop :=
  ((n.follow req.term req.leaderId).store.writeSnapshot req.lastIncludedIndex req.lastIncludedTerm
    req.data req.confState).2 = false

end Node

/-! ## The storage -/

section Memory

variable {s : DiskStorage}

theorem SameMemory.trans {s' s'' : DiskStorage} (h : SameMemory s s') (h' : SameMemory s' s'') :
    SameMemory s s'' :=
  ⟨h'.log.trans h.log, h'.snapIndex.trans h.snapIndex, h'.snapTerm.trans h.snapTerm,
    h'.snapshot.trans h.snapshot⟩

/-- The memory is replaced as soon as the three files are there. -/
theorem saveSnapshot_memory_iff {index : Nat} (hlt : s.snapIndex < index) (term : Nat) (data : Bytes)
    (conf : ConfState) : SameMemory s (s.saveSnapshot index term data conf).1 ↔
      (s.writeSnapshot index term data conf).2 = false := by
  rw [DiskStorage.saveSnapshot, if_neg (Nat.not_le_of_lt hlt), andThen]
  cases hw : (s.writeSnapshot index term data conf).2 with
  | false =>
    obtain ⟨d, hd⟩ := writeSnapshot_rest (s := s) index term data conf
    rw [if_neg Bool.false_ne_true, hd]
    exact iff_of_true ⟨rfl, rfl, rfl, rfl⟩ rfl
  | true =>
    rw [if_pos rfl]
    refine iff_of_false (fun hsame => ?_) (by simp)
    obtain ⟨d, b, hd⟩ := rewriteWal_rest (s := { (s.writeSnapshot index term data conf).1 with
      log := (s.writeSnapshot index term data conf).1.log.filter fun e => decide (e.index > index)
      snapIndex := index, snapTerm := term, snapshot := data, conf := conf }) conf
    have hindex := hsame.snapIndex
    rw [hd] at hindex
    exact absurd hindex (Nat.ne_of_gt hlt)

theorem follow_memory (n : Node) (term leaderId : Nat) :
    SameMemory n.store (n.follow term leaderId).store := by
  obtain ⟨d, t, v, hsame⟩ := follow_rest n term leaderId
  rw [hsame]
  exact ⟨rfl, rfl, rfl, rfl⟩

/-- Memory that has not changed since the acceptance of the leader has not changed at all. -/
theorem SameMemory.follow_iff {n : Node} {term leaderId : Nat} {s' : DiskStorage} :
    SameMemory n.store s' ↔ SameMemory (n.follow term leaderId).store s' := by
  have hf := follow_memory n term leaderId
  constructor
  · intro h
    exact ⟨h.log.trans hf.log.symm, h.snapIndex.trans hf.snapIndex.symm,
      h.snapTerm.trans hf.snapTerm.symm, h.snapshot.trans hf.snapshot.symm⟩
  · exact fun h => hf.trans h

end Memory

/-! ## The handler -/

namespace Node

variable {n : Node} {req : InstallSnapshotRequest}

theorem SaveFails.handled (h : n.SaveFails req) : n.handleInstallSnapshot req =
    ({ n.follow req.term req.leaderId with
        store := ((n.follow req.term req.leaderId).store.saveSnapshot req.lastIncludedIndex
          req.lastIncludedTerm req.data req.confState).1
        locked := true },
      { term := req.term }, none) := by
  have habove : ¬req.lastIncludedIndex ≤ (n.follow req.term req.leaderId).store.snapIndex := by
    rw [follow_snapIndex]
    exact Nat.not_le_of_lt h.above
  simp only [handleInstallSnapshot, if_neg (Nat.not_lt_of_le h.term), if_neg habove, h.failed,
    Bool.not_false, if_true, follow_term _ h.term]

/-- A leader of the request's term takes the reply for a success. -/
theorem onSnapshotReply_match {l : Node} (hrole : l.role = .leader) (hterm : l.store.term = req.term)
    (peer : Nat) : ((l.onSnapshotReply peer req { term := req.term }).matchIndex peer).getD 0 =
      max ((l.matchIndex peer).getD 0) req.lastIncludedIndex := by
  have hnot : ¬(l.role ≠ .leader ∨ l.store.term ≠ req.term) := by
    rintro (hr | ht)
    · exact hr hrole
    · exact ht hterm
  rw [onSnapshotReply, if_neg (by rw [hterm]; exact Nat.lt_irrefl _), if_neg hnot, recordMatch]
  by_cases hgt : req.lastIncludedIndex > (l.matchIndex peer).getD 0
  · simp only [if_pos hgt, Function.update_self, Option.getD_some]
    exact (Nat.max_eq_right (Nat.le_of_lt hgt)).symm
  · simp only [if_neg hgt]
    exact (Nat.max_eq_left (Nat.le_of_not_lt hgt)).symm

/-- Any other node does not count it. -/
theorem onSnapshotReply_other {l : Node} (h : ¬(l.role = .leader ∧ l.store.term = req.term))
    (resp : InstallSnapshotResponse) (peer : Nat) :
    (l.onSnapshotReply peer req resp).matchIndex = l.matchIndex := by
  rw [onSnapshotReply]
  split
  · rw [stepDownLocked]
    split
    · rfl
    · rfl
  have hstale : l.role ≠ .leader ∨ l.store.term ≠ req.term := by
    rw [← not_and_or]
    exact h
  rw [if_pos hstale]

/-- The reply is honest if the follower's files reach the snapshot's index, whatever is recovered. -/
theorem honestReply_iff (s : DiskStorage) :
    HonestReply s req { term := req.term } ↔
      ∀ bootstrap, req.lastIncludedIndex ≤ s.durableLast bootstrap := by
  constructor
  · intro h bootstrap
    -- a leader that knows nothing of the peer
    let l : Node := { id := 0, store := { s with term := req.term }, conf := s.conf, role := .leader }
    have hl := h l 0 bootstrap
    rw [onSnapshotReply_match rfl rfl] at hl
    have hzero : (l.matchIndex 0).getD 0 = 0 := rfl
    rw [hzero, Nat.zero_max, Nat.zero_max] at hl
    exact hl
  · intro h l peer bootstrap
    by_cases hl : l.role = .leader ∧ l.store.term = req.term
    · rw [onSnapshotReply_match hl.1 hl.2]
      exact max_le_max (Nat.le_refl _) (h bootstrap)
    · rw [onSnapshotReply_other hl]
      exact Nat.le_max_left _ _

/-- **A snapshot that cannot be saved is never harmless**, whichever operation failed: the mutex stays
    locked. What else it leaves depends on the operation. -/
theorem failed_install (h : n.SaveFails req) :
    ¬Harmless n (n.handleInstallSnapshot req).1 req (n.handleInstallSnapshot req).2.1 ∧
    (∀ faults op, ((n.handleInstallSnapshot req).1.withFaults faults).exec op = none) ∧
    SameIndices n (n.handleInstallSnapshot req).1 ∧
    (SameMemory n.store (n.handleInstallSnapshot req).1.store ↔ n.FilesFail req) ∧
    (HonestReply (n.handleInstallSnapshot req).1.store req (n.handleInstallSnapshot req).2.1 ↔
      ∀ bootstrap,
        req.lastIncludedIndex ≤ (n.handleInstallSnapshot req).1.store.durableLast bootstrap) := by
  have hframe := follow_frame (n := n) req.term req.leaderId
  rw [h.handled]
  refine ⟨fun hharmless => ?_, fun faults op => ?_, ?_, ?_, honestReply_iff _⟩
  · cases hharmless.released
  · exact if_pos rfl
  · exact ⟨hframe.conf, follow_commitIndex req.term req.leaderId, hframe.applied⟩
  · rw [SameMemory.follow_iff]
    refine saveSnapshot_memory_iff ?_ _ _ _
    rw [follow_snapIndex]
    exact h.above

/-- A follower that has nothing yet. -/
def emptyFollower (faults : List Bool) : Node :=
  { id := 2, conf := .newConfState [1, 2, 3]
    store := { conf := .newConfState [1, 2, 3], disk := { faults := faults } } }

/-- Its leader's first snapshot. -/
def firstSnapshot : InstallSnapshotRequest :=
  { term := 0, leaderId := 1, lastIncludedIndex := 5, lastIncludedTerm := 0, data := [9]
    confState := .newConfState [1, 2, 3] }

/-- The new WAL cannot be opened, after the three files have been written. -/
theorem failed_install_wal :
    ¬SameMemory (emptyFollower [false, false, false, true]).store
        ((emptyFollower [false, false, false, true]).handleInstallSnapshot firstSnapshot).1.store ∧
    ∀ faults op, (((emptyFollower [false, false, false, true]).handleInstallSnapshot
      firstSnapshot).1.withFaults faults).exec op = none := by
  have hfails : (emptyFollower [false, false, false, true]).SaveFails firstSnapshot :=
    ⟨by decide, by decide, by decide +kernel⟩
  obtain ⟨-, hstuck, -, hmemory, -⟩ := failed_install hfails
  refine ⟨fun hsame => ?_, hstuck⟩
  exact absurd (hmemory.mp hsame) (by unfold FilesFail; decide +kernel)

/-- `snapshot.bin` cannot be written: the mutex stays locked, and the leader counts five entries of
    which the follower has none. -/
theorem failed_install_counted :
    (emptyFollower [true]).SaveFails firstSnapshot ∧
    ((emptyFollower [true]).handleInstallSnapshot firstSnapshot).1.locked = true ∧
    ((emptyFollower [true]).handleInstallSnapshot firstSnapshot).1.store.durableLast [1, 2, 3] = 0 ∧
    (({ emptyFollower [] with id := 1, role := .leader } : Node).onSnapshotReply 2 firstSnapshot
      ((emptyFollower [true]).handleInstallSnapshot firstSnapshot).2.1).matchIndex 2 = some 5 :=
  ⟨⟨by decide, by decide, by decide +kernel⟩, by decide +kernel, by decide +kernel,
    by decide +kernel⟩

end Node

end Raft
end DistKV
