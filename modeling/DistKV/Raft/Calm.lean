import DistKV.Raft.Guard

/-!
# The storage calls when nothing fails

`Guard` speaks of any pattern of failures. Where a run is free of them a call can be computed:
it succeeds, it takes the files through a fixed list of states (`Disk.puts`), and what it leaves
in memory is given by an equation. One equation for each call of `diskStorage`.
-/

namespace DistKV
namespace Raft

namespace Files

/-- The files with more records behind the last fsync. -/
def writeAll (f : Files) (rs : List WalRecord) : Files := { f with unsynced := f.unsynced ++ rs }

/-- The states on the way there. -/
def writes (f : Files) : List WalRecord → List Files
  | [] => []
  | r :: rs => f.write r :: (f.write r).writes rs

theorem writeAll_cons (f : Files) (r : WalRecord) (rs : List WalRecord) :
    (f.write r).writeAll rs = f.writeAll (r :: rs) := by
  simp [writeAll, write]

theorem getLast?_writes (f : Files) (rs : List WalRecord) :
    (f.writes rs).getLast?.getD f = f.writeAll rs := by
  induction rs generalizing f with
  | nil => simp [writes, writeAll]
  | cons r rs ih =>
    rw [writes, List.getLast?_cons, Option.getD_some, ih, writeAll_cons]

theorem writes_append (f : Files) (rs rs' : List WalRecord) :
    f.writes (rs ++ rs') = f.writes rs ++ (f.writeAll rs).writes rs' := by
  induction rs generalizing f with
  | nil => simp [writes, writeAll]
  | cons r rs ih => rw [List.cons_append, writes, ih, writes, List.cons_append, writeAll_cons]

/-- Every state on the way has a prefix of the records. -/
theorem mem_writes {f g : Files} {rs : List WalRecord} (h : g ∈ f.writes rs) :
    ∃ n, g = f.writeAll (rs.take n) := by
  induction rs generalizing f with
  | nil => cases h
  | cons r rs ih =>
    rcases List.mem_cons.mp h with rfl | h
    · exact ⟨1, by simp [writeAll, write]⟩
    · obtain ⟨n, rfl⟩ := ih h
      exact ⟨n + 1, by rw [writeAll_cons, List.take_succ_cons]⟩

end Files

namespace Files

/-- The files after the first three steps of `saveSnapshot`. -/
def withBin (f : Files) (data : Bytes) : Files := { f with snapshotBin := some data }

def withMeta (f : Files) (data : Bytes) (index term : Nat) : Files :=
  { f.withBin data with snapshotMeta := some (index, term) }

def withConf (f : Files) (data : Bytes) (index term : Nat) (conf : ConfState) : Files :=
  { f.withMeta data index term with snapshotConf := some conf }

end Files

namespace Disk

/-- No operation fails and the WAL handle is usable. -/
structure Calm (d : Disk) : Prop where
  opened : d.opened = true
  faults : d.faults = []

/-- The files go through the states `fs`. -/
def puts (d : Disk) (fs : List Files) : Disk :=
  { d with files := fs.getLast?.getD d.files, trail := d.trail ++ fs }

theorem puts_puts (d : Disk) (fs gs : List Files) : (d.puts fs).puts gs = d.puts (fs ++ gs) := by
  cases gs with
  | nil => simp [puts]
  | cons g gs => simp [puts, List.getLast?_append]

theorem puts_nil (d : Disk) : d.puts [] = d := by simp [puts]

section Calm

variable {d : Disk}

theorem Calm.puts (h : d.Calm) (fs : List Files) : (d.puts fs).Calm := ⟨h.opened, h.faults⟩

theorem Calm.io (h : d.Calm) : d.io = (d, true) := by
  rw [Disk.io, h.faults]

theorem ios_of_io {d : Disk} (h : d.io = (d, true)) (n : Nat) : d.ios n = (d, true) := by
  induction n with
  | zero => rfl
  | succ n ih => rw [Disk.ios, h]; exact ih

theorem Calm.replace (h : d.Calm) (change : Files → Files) :
    d.replace change = (d.puts [change d.files], true) := by
  rw [Disk.replace, h.io]
  rfl

theorem Calm.append (h : d.Calm) (r : WalRecord) :
    d.append r = (d.puts [d.files.write r], true) := by
  rw [Disk.append, h.io]
  rfl

theorem Calm.sync (h : d.Calm) : d.sync = (d.puts [d.files.flush], true) := by
  rw [Disk.sync, h.io]
  simp only [andThen, if_true, h.opened]
  rfl

theorem Calm.close (h : d.Calm) :
    d.close = ({ d.puts [d.files.flush] with opened := false }, true) := by
  rw [Disk.close, h.sync]
  simp [andThen, Disk.io, Disk.puts, h.faults]

end Calm
end Disk

namespace DiskStorage

def puts (s : DiskStorage) (fs : List Files) : DiskStorage := { s with disk := s.disk.puts fs }

variable {s : DiskStorage}

theorem setHardState_calm (h : s.disk.Calm) (term votedFor : Nat) :
    s.setHardState term votedFor =
      ({ s with term := term, votedFor := votedFor }.puts
        [s.disk.files.write (.hardState term votedFor),
          (s.disk.files.write (.hardState term votedFor)).flush], true) := by
  simp only [setHardState, onDisk, h.append, andThen, if_true, (h.puts _).sync, Disk.puts_puts]
  rfl

theorem setConfState_calm (h : s.disk.Calm) (c : ConfState) :
    s.setConfState c =
      ({ s with conf := c }.puts
        [s.disk.files.write (.confState c), (s.disk.files.write (.confState c)).flush], true) := by
  simp only [setConfState, onDisk, h.append, andThen, if_true, (h.puts _).sync, Disk.puts_puts]
  rfl

theorem sync_calm (h : s.disk.Calm) :
    s.sync = (if s.dirty then { s with dirty := false }.puts [s.disk.files.flush] else s, true) := by
  rw [sync]
  cases hd : s.dirty with
  | false => rfl
  | true =>
    simp only [onDisk, h.sync, andThen]
    rfl

theorem appendLoop_calm (h : s.disk.Calm) (es : List Entry) :
    s.appendLoop es =
      ({ s with log := s.log ++ es }.puts (s.disk.files.writes (es.map .append)), true) := by
  induction es generalizing s with
  | nil => simp [appendLoop, puts, Disk.puts_nil, Files.writes]
  | cons e es ih =>
    simp only [appendLoop, onDisk, h.append, andThen, if_true]
    rw [ih (h.puts _)]
    simp only [puts, Disk.puts_puts, List.append_assoc, List.singleton_append, List.map_cons,
      Files.writes]
    rfl

theorem truncateFrom_self {log : List Entry} {first : Nat}
    (h : ∀ x, log.getLast? = some x → x.index < first) : truncateFrom log first = log := by
  rw [truncateFrom, List.rdropWhile_eq_self_iff]
  intro hne
  have hlt := h _ (List.getLast?_eq_getLast_of_ne_nil hne)
  simpa using hlt

/-- The truncation record `appendEntries` writes first, if there is a conflicting suffix. -/
def truncation (s : DiskStorage) (first : Nat) : List WalRecord :=
  match s.log.getLast? with
  | some x => if x.index ≥ first then [.truncate first] else []
  | none => []

theorem truncateConflict_calm (h : s.disk.Calm) (first : Nat) :
    s.truncateConflict first =
      ({ s with log := truncateFrom s.log first }.puts
        (s.disk.files.writes (s.truncation first)), true) := by
  rw [truncateConflict, truncation]
  cases hl : s.log.getLast? with
  | none =>
    have hkeep : truncateFrom s.log first = s.log :=
      truncateFrom_self fun x hx => by rw [hl] at hx; cases hx
    simp [hkeep, puts, Disk.puts_nil, Files.writes]
  | some x =>
    simp only
    split
    · simp only [onDisk, h.append, andThen, if_true]
      rfl
    · next hlt =>
      have hkeep : truncateFrom s.log first = s.log := by
        refine truncateFrom_self fun y hy => ?_
        rw [hl, Option.some.injEq] at hy
        rw [← hy]
        exact Nat.lt_of_not_le hlt
      simp [hkeep, puts, Disk.puts_nil, Files.writes]

/-- The records of an `appendEntries` call. -/
def appendRecords (s : DiskStorage) (e : Entry) (es : List Entry) : List WalRecord :=
  s.truncation e.index ++ (e :: es).map .append

theorem appendEntries_calm (h : s.disk.Calm) (e : Entry) (es : List Entry) :
    s.appendEntries (e :: es) =
      ({ s with log := truncateFrom s.log e.index ++ e :: es, dirty := true }.puts
        (s.disk.files.writes (s.appendRecords e es)), true) := by
  simp only [appendEntries, truncateConflict_calm h, andThen, if_true]
  rw [appendLoop_calm (h.puts _)]
  simp only [if_true, puts, Disk.puts_puts, appendRecords, Files.writes_append]
  have hfiles : (s.disk.puts (s.disk.files.writes (s.truncation e.index))).files =
      s.disk.files.writeAll (s.truncation e.index) := Files.getLast?_writes _ _
  rw [hfiles]

/-- The four files after each of the durable steps of `saveSnapshot`: the three snapshot files,
    the old WAL synced as it is closed, and the new WAL in its place. -/
def snapshotStates (s : DiskStorage) (index term : Nat) (data : Bytes) (conf : ConfState) :
    List Files :=
  let f := s.disk.files
  let log := s.log.filter fun e => decide (e.index > index)
  [f.withBin data, f.withMeta data index term, f.withConf data index term conf,
    (f.withConf data index term conf).flush,
    { f.withConf data index term conf with
      synced := .hardState s.term s.votedFor :: .confState conf :: log.map .append
      unsynced := [] }]

theorem writeSnapshot_calm (h : s.disk.Calm) (index term : Nat) (data : Bytes)
    (conf : ConfState) :
    s.writeSnapshot index term data conf =
      (s.puts ((s.snapshotStates index term data conf).take 3), true) := by
  simp only [writeSnapshot, onDisk, h.replace, (h.puts _).replace, andThen, if_true,
    Disk.puts_puts]
  rfl

theorem rewriteWal_calm (h : s.disk.Calm) (conf : ConfState) :
    s.rewriteWal conf =
      ({ s with dirty := false }.puts [s.disk.files.flush,
        { s.disk.files with synced := s.snapshotRecords conf, unsynced := [] }], true) := by
  simp only [rewriteWal, onDisk, Disk.ios_of_io h.io, andThen, if_true, h.close]
  -- the handle is closed now, and the last operation opens it again
  simp [Disk.replace, Disk.io, Disk.puts, Disk.put, h.faults, h.opened, andThen, puts, Files.flush]

theorem saveSnapshot_calm (h : s.disk.Calm) {index : Nat} (hlt : s.snapIndex < index) (term : Nat)
    (data : Bytes) (conf : ConfState) :
    s.saveSnapshot index term data conf =
      ({ s with
        log := s.log.filter fun e => decide (e.index > index)
        snapIndex := index, snapTerm := term, snapshot := data, conf := conf, dirty := false }.puts
          (s.snapshotStates index term data conf), true) := by
  rw [saveSnapshot, if_neg (Nat.not_le_of_lt hlt), writeSnapshot_calm h]
  simp only [andThen, if_true]
  rw [rewriteWal_calm (h.puts _)]
  simp only [puts, Disk.puts_puts]
  rfl

/-- A snapshot at or below the one there is a call without effect. -/
theorem saveSnapshot_below {index : Nat} (hle : index ≤ s.snapIndex) (term : Nat) (data : Bytes)
    (conf : ConfState) : s.saveSnapshot index term data conf = (s, true) := by
  rw [saveSnapshot, if_pos hle]

end DiskStorage

end Raft
end DistKV
