import Mathlib.Data.List.DropRight
import DistKV.Raft.Message

/-!
# `raft/storage.go` — the persistent side of a node

`diskStorage` keeps the hard state, the log and the snapshot in memory and in four files:
`snapshot.bin`, `snapshot.meta`, `snapshot.conf` and `raft.wal`. The WAL is modelled at the
level of its records (the framing of a record into bytes is `Storage/Wal.lean`); it is split
where the last fsync stands.

A crash is taken to fall between two records: it keeps what is before the last fsync and any number
of the records after it, and what it keeps counts as synced from then on. That leaves two things of
the source out. A torn frame at the end stays in the file, the reopened WAL appends behind it, and
the next replay stops in front of records that were synced meanwhile
(`Storage.torn_then_synced_lost`); and a restart makes no fsync of what it has read. What is proved
about runs with crashes is about runs in which every synced record is read back.

Three things of the environment ride along in `Disk`. `faults` decides, one fallible file
operation after the other, which of them fails; an exhausted list means that no more do.
`trail` remembers every state the files went through, which is what a crash in the middle of
a call can leave behind. `opened` is whether the WAL handle is usable: `saveSnapshot` closes it
before it renames the new file over the old one, and a failure in between leaves it closed
(or `nil`, where the source would panic — for the files that is a crash).
-/

namespace DistKV
namespace Raft

/-- WAL record types 1 to 4. -/
inductive WalRecord where
  | hardState (term votedFor : Nat)
  | append (e : Entry)
  | truncate (first : Nat)
  | confState (c : ConfState)
  deriving DecidableEq

structure Files where
  snapshotBin : Option Bytes := none
  snapshotMeta : Option (Nat × Nat) := none
  snapshotConf : Option ConfState := none
  /-- The records of `raft.wal` that were appended before its last fsync. -/
  synced : List WalRecord := []
  /-- The records appended since. -/
  unsynced : List WalRecord := []
  deriving DecidableEq

/-- What a crash between two records leaves: everything that was synced, and the first `keep` records
    after it, which count as synced from then on. No frame is torn. -/
def Files.crash (f : Files) (keep : Nat) : Files :=
  { f with synced := f.synced ++ f.unsynced.take keep, unsynced := [] }

/-- Sequencing of fallible calls: `if err != nil { return err }`. -/
def andThen {α : Type} (r : α × Bool) (k : α → α × Bool) : α × Bool :=
  if r.2 then k r.1 else r

structure Disk where
  files : Files := {}
  opened : Bool := true
  faults : List Bool := []
  trail : List Files := []

namespace Disk

/-- One fallible file operation, without its effect. -/
def io (d : Disk) : Disk × Bool :=
  match d.faults with
  | [] => (d, true)
  | f :: fs => ({ d with faults := fs }, !f)

/-- `n` fallible operations in a row. -/
def ios (d : Disk) : Nat → Disk × Bool
  | 0 => (d, true)
  | n + 1 => andThen d.io fun d => d.ios n

def put (d : Disk) (f : Files) : Disk := { d with files := f, trail := d.trail ++ [f] }

/-- `atomicWrite`, and any other replacement of a file by `rename`: the file changes at the
    rename or not at all. -/
def replace (d : Disk) (change : Files → Files) : Disk × Bool :=
  andThen d.io fun d => (d.put (change d.files), true)

/-- `WAL.Append`. -/
def append (d : Disk) (r : WalRecord) : Disk × Bool :=
  andThen d.io fun d => (d.put { d.files with unsynced := d.files.unsynced ++ [r] }, true)

/-- `WAL.Sync`; a closed handle cannot be synced. -/
def sync (d : Disk) : Disk × Bool :=
  andThen d.io fun d =>
    if d.opened then
      (d.put { d.files with synced := d.files.synced ++ d.files.unsynced, unsynced := [] }, true)
    else (d, false)

/-- `WAL.Close` syncs first and closes the file whether that worked or not. -/
def close (d : Disk) : Disk × Bool :=
  let r := d.sync
  andThen ({ r.1 with opened := false }, r.2) io

end Disk

/-! ## `diskStorage` -/

structure DiskStorage where
  disk : Disk := {}
  term : Nat := 0
  /-- 0 = none. -/
  votedFor : Nat := 0
  /-- Appended entries not yet fsynced (group commit). -/
  dirty : Bool := false
  conf : ConfState
  /-- `log[0]` corresponds to index `snapIndex + 1`. -/
  log : List Entry := []
  snapIndex : Nat := 0
  snapTerm : Nat := 0
  snapshot : Bytes := []

/-- `for len(log) > 0 && log[len(log)-1].Index >= first { log = log[:len(log)-1] }`. -/
def truncateFrom (log : List Entry) (first : Nat) : List Entry :=
  log.rdropWhile fun e => decide (e.index ≥ first)

namespace DiskStorage

def firstIndex (s : DiskStorage) : Nat := s.snapIndex + 1

def lastIndex (s : DiskStorage) : Nat :=
  match s.log.getLast? with
  | some e => e.index
  | none => s.snapIndex

def termAt (s : DiskStorage) (index : Nat) : Option Nat :=
  if index = s.snapIndex then some s.snapTerm
  else if index < s.firstIndex ∨ index > s.lastIndex then none
  else s.log[index - s.firstIndex]?.map (·.term)

def entriesFrom (s : DiskStorage) (lo : Nat) : List Entry :=
  if lo < s.firstIndex ∨ lo > s.lastIndex then [] else s.log.drop (lo - s.firstIndex)

/-- An index outside the slice is a panic in the source, `none` here. -/
def entryAt (s : DiskStorage) (index : Nat) : Option Entry :=
  if index < s.firstIndex then none else s.log[index - s.firstIndex]?

/-! ### Opening -/

/-- The callback `openDiskStorage` passes to `ReplayWAL`. -/
def replayRecord (s : DiskStorage) : WalRecord → DiskStorage
  | .hardState term votedFor => { s with term := term, votedFor := votedFor }
  | .append e => if e.index > s.snapIndex then { s with log := s.log ++ [e] } else s
  | .truncate first => { s with log := truncateFrom s.log first }
  | .confState c => if c.voters.card > 0 then { s with conf := c } else s

/-- The snapshot files, loaded before the WAL; `none` is "snapshot.meta exists but
    snapshot.bin unreadable". -/
def loadSnapshot (files : Files) (bootstrap : List Nat) : Option DiskStorage :=
  let s : DiskStorage := { disk := { files := files }, conf := .newConfState bootstrap }
  match files.snapshotMeta with
  | none => some s
  | some (snapIndex, snapTerm) =>
    match files.snapshotBin with
    | none => none
    | some data =>
      let conf := match files.snapshotConf with
        | some cs => if cs.voters.card > 0 then cs else s.conf
        | none => s.conf
      some { s with snapIndex := snapIndex, snapTerm := snapTerm, snapshot := data, conf := conf }

def openDiskStorage (files : Files) (bootstrap : List Nat) : Option DiskStorage :=
  (loadSnapshot files bootstrap).map fun s => files.synced.foldl replayRecord s

/-! ### Writing -/

/-- Runs a disk operation on the storage's disk. -/
def onDisk (s : DiskStorage) (op : Disk → Disk × Bool) : DiskStorage × Bool :=
  let r := op s.disk
  ({ s with disk := r.1 }, r.2)

def setConfState (s : DiskStorage) (c : ConfState) : DiskStorage × Bool :=
  let s := { s with conf := c }
  andThen (s.onDisk (·.append (.confState c))) (·.onDisk Disk.sync)

def setHardState (s : DiskStorage) (term votedFor : Nat) : DiskStorage × Bool :=
  let s := { s with term := term, votedFor := votedFor }
  andThen (s.onDisk (·.append (.hardState term votedFor))) (·.onDisk Disk.sync)

/-- The loop of `appendEntries`: each entry goes to the WAL and then to the slice, and the
    first failed append leaves the ones before it in both. -/
def appendLoop (s : DiskStorage) : List Entry → DiskStorage × Bool
  | [] => (s, true)
  | e :: es =>
    andThen (s.onDisk (·.append (.append e))) fun s =>
      appendLoop { s with log := s.log ++ [e] } es

/-- Truncates a conflicting suffix, in the WAL first. -/
def truncateConflict (s : DiskStorage) (first : Nat) : DiskStorage × Bool :=
  match s.log.getLast? with
  | some e =>
    if e.index ≥ first then
      andThen (s.onDisk (·.append (.truncate first))) fun s =>
        ({ s with log := truncateFrom s.log first }, true)
    else (s, true)
  | none => (s, true)

/-- Appends entries without fsync (group commit); `sync` comes before anyone acts on their
    durability. -/
def appendEntries (s : DiskStorage) (entries : List Entry) : DiskStorage × Bool :=
  match entries with
  | [] => (s, true)
  | e :: _ =>
    andThen (s.truncateConflict e.index) fun s =>
      andThen (s.appendLoop entries) fun s => ({ s with dirty := true }, true)

def sync (s : DiskStorage) : DiskStorage × Bool :=
  if !s.dirty then (s, true)
  else andThen (s.onDisk Disk.sync) fun s => ({ s with dirty := false }, true)

/-- The records `saveSnapshot` writes to the new WAL. -/
def snapshotRecords (s : DiskStorage) (conf : ConfState) : List WalRecord :=
  .hardState s.term s.votedFor :: .confState conf :: s.log.map .append

/-- The second half of `saveSnapshot`: the WAL is rewritten beside the old one and renamed
    over it. -/
def rewriteWal (s : DiskStorage) (conf : ConfState) : DiskStorage × Bool :=
  let recs := s.snapshotRecords conf
  -- `OpenWAL(tmp)`, one `Append` for each record, and the sync and close of `nw.Close()`
  andThen (s.onDisk (·.ios (1 + recs.length + 2))) fun s =>
    andThen (s.onDisk Disk.close) fun s =>
      andThen (s.onDisk (·.replace fun f => { f with synced := recs, unsynced := [] })) fun s =>
        let r := s.disk.io
        ({ s with disk := { r.1 with opened := r.2 }, dirty := false }, r.2)

/-- The first half: three files, one after the other. -/
def writeSnapshot (s : DiskStorage) (index term : Nat) (data : Bytes) (conf : ConfState) :
    DiskStorage × Bool :=
  andThen (s.onDisk (·.replace fun f => { f with snapshotBin := some data })) fun s =>
    andThen (s.onDisk (·.replace fun f => { f with snapshotMeta := some (index, term) })) fun s =>
      s.onDisk (·.replace fun f => { f with snapshotConf := some conf })

def saveSnapshot (s : DiskStorage) (index term : Nat) (data : Bytes) (conf : ConfState) :
    DiskStorage × Bool :=
  if index ≤ s.snapIndex then (s, true)
  else
    andThen (s.writeSnapshot index term data conf) fun s =>
      rewriteWal
        { s with
          log := s.log.filter fun e => decide (e.index > index)
          snapIndex := index, snapTerm := term, snapshot := data, conf := conf }
        conf

end DiskStorage
end Raft
end DistKV
