import Mathlib.Data.List.Sort
import DistKV.Storage.SSTable

/-!
# `storage/engine.go` — the LSM engine

Writes go to the WAL and to the memtable; a memtable that has grown large enough becomes a table, and
more than six tables become one. The functions that touch files run in `EngineM`: they may stop with
an error, and what they have done up to then stays done.

Three things belong to the environment. `faults` decides, one fallible operation after the other,
which of them fails; a failing table write leaves as many bytes behind as its entry says, and an
exhausted list means that nothing fails any more. `trail` remembers every state the directory went
through. `opened` is whether the WAL handle can still be synced.

The memtable is the bottom chain of the skiplist of `memtable.go`; the higher chains only shorten
the way to a position of it (`SkiplistRefines`). A Go map that is filled and then read in key order is a sorted run.
-/

namespace DistKV
namespace Storage

/-! ## `memtable.go` -/

structure Memtable where
  nodes : List KvEntry := []
  /-- Approximate bytes. -/
  size : Int := 0
  count : Nat := 0
  deriving DecidableEq, Repr

namespace Memtable

def get (m : Memtable) (key : Bytes) : Option KvEntry := SortedRun.find KvEntry.key key m.nodes

def put (m : Memtable) (key value : Bytes) (tombstone : Bool) : Memtable :=
  let nodes := SortedRun.insert KvEntry.key { key, value, tombstone } m.nodes
  match m.get key with
  | some n => { m with nodes := nodes, size := m.size + (value.length - n.value.length) }
  | none =>
    { nodes := nodes, size := m.size + (key.length + value.length + 32), count := m.count + 1 }

def entries (m : Memtable) : List KvEntry := m.nodes

def approxSize (m : Memtable) : Int := m.size

end Memtable

/-- What a reader of the engine makes of an entry. -/
def KvEntry.live (e : KvEntry) : Option Bytes := if e.tombstone then none else some e.value

/-! ## The records of the engine's WAL -/

inductive EngineError where
  /-- The operating system reports an error. -/
  | io
  | shortRecord
  | badRecord
  | table (seq : Nat) (e : TableError)
  /-- Panic: the WAL handle is nil. -/
  | nilWal
  deriving DecidableEq, Repr

def EngineError.message (path : Nat → String) : EngineError → String
  | .io => "input/output error"
  | .shortRecord => "wal replay: short wal record"
  | .badRecord => "wal replay: bad wal record"
  | .table seq e => "open sstable " ++ path seq ++ ": " ++ e.message (path seq)
  | .nilWal => "runtime error: invalid memory address or nil pointer dereference"

/-- `flags(1) | klen(4) | key | value`. -/
def encodeWALRecord (key val : Bytes) (tomb : Bool) : Bytes :=
  (if tomb then 1 else 0) :: putUint32 (.ofNat key.length) ++ key ++ val

def decodeWALRecord (p : Bytes) : Except EngineError (Bytes × Bytes × Bool) :=
  if p.length < 5 then .error .shortRecord
  else
    let klen := (getUint32 (p.drop 1)).toNat
    if (p.drop 5).length < klen then .error .badRecord
    else .ok ((p.drop 5).take klen, (p.drop 5).drop klen, decide (p.headD 0 &&& 1 = 1))

/-! ## State -/

/-- The files of an engine: `%012d.sst` by number, and `engine.wal`. -/
structure Dir where
  sst : List (Nat × Bytes) := []
  wal : Option WAL := none

/-- What a crash leaves of the directory; of the WAL bytes after the last sync it keeps `keep`. -/
def Dir.crash (d : Dir) (keep : Nat) : Dir :=
  { d with wal := d.wal.map fun w => openWAL (w.crash keep) }

structure EngineOptions where
  flushSize : Int := 4194304
  syncWAL : Bool := true
  deriving DecidableEq, Repr

structure Engine where
  dir : Dir
  mem : Memtable := {}
  /-- Newest first. -/
  tables : List SSTable := []
  nextSST : Nat := 0
  flushSize : Int
  syncWAL : Bool
  opened : Bool := true
  faults : List (Option Nat) := []
  trail : List Dir := []

def maxTablesBeforeCompact : Nat := 6

/-! ## Opening -/

/-- The tables in the order of the files. -/
def loadTables : List (Nat × Bytes) → Except EngineError (List SSTable)
  | [] => .ok []
  | f :: fs =>
    match openSSTable f.1 f.2 with
    | .error e => .error (.table f.1 e)
    | .ok t => (loadTables fs).map (t :: ·)

/-- The callback `OpenEngine` passes to `ReplayWAL`. -/
def replayPut (m : Memtable) (p : Bytes) : Except EngineError Memtable :=
  (decodeWALRecord p).map fun r => m.put r.1 r.2.1 r.2.2

def openEngine (opts : EngineOptions) (dir : Dir) : Except EngineError Engine := do
  let names := dir.sst.insertionSort fun a b => a.1 ≥ b.1
  let tables ← loadTables names
  let file := (dir.wal.map WAL.file).getD []
  let mem ← replayWAL replayPut file {}
  return {
    dir := { dir with wal := some (openWAL file) }
    mem := mem
    tables := tables
    nextSST := names.foldl (fun next f => if f.1 ≥ next then f.1 + 1 else next) 0
    flushSize := if opts.flushSize = 0 then 4194304 else opts.flushSize
    syncWAL := opts.syncWAL }

/-! ## Reading -/

def lookup : List SSTable → Bytes → Except EngineError (Option KvEntry)
  | [], _ => .ok none
  | t :: ts, key =>
    match t.get key with
    | .error e => .error (.table t.seq e)
    | .ok (some e) => .ok (some e)
    | .ok none => lookup ts key

/-- The value, if it is found. -/
def Engine.get (e : Engine) (key : Bytes) : Except EngineError (Option Bytes) :=
  match e.mem.get key with
  | some n => .ok n.live
  | none => (lookup e.tables key).map (·.bind KvEntry.live)

/-! ## Writing -/

abbrev EngineM := ExceptT EngineError (StateM Engine)

/-- What happens to the next fallible operation. -/
def nextFault : EngineM (Option Nat) := do
  let e ← get
  match e.faults with
  | [] => pure none
  | f :: fs =>
    set { e with faults := fs }
    pure f

def io : EngineM Unit := do
  if (← nextFault).isSome then throw .io

def touch (change : Dir → Dir) : EngineM Unit :=
  modify fun e => { e with dir := change e.dir, trail := e.trail ++ [change e.dir] }

/-- The handle of the WAL. -/
def walHandle : EngineM WAL := do
  match (← get).dir.wal with
  | none => throw .nilWal
  | some w => pure w

def walAppend (payload : Bytes) : EngineM Unit := do
  let w ← walHandle
  io
  touch fun d => { d with wal := some (w.append payload) }

def walSync : EngineM Unit := do
  let w ← walHandle
  io
  if (← get).opened then touch fun d => { d with wal := some w.sync }
  else throw .io

/-- Syncs, and closes the handle whether that worked or not. -/
def walClose : EngineM Unit := do
  try walSync
  catch err =>
    modify fun e => { e with opened := false }
    throw err
  modify fun e => { e with opened := false }
  io

def walRemove : EngineM Unit := do
  io
  touch fun d => { d with wal := none }

def walOpen : EngineM Unit := do
  io
  touch fun d => { d with wal := some (openWAL ((d.wal.map WAL.file).getD [])) }
  modify fun e => { e with opened := true }

/-- The files after the first `n` bytes of a table have reached the disk. -/
def Dir.withTable (d : Dir) (seq : Nat) (bytes : Bytes) (n : Nat) : Dir :=
  { d with sst := (seq, bytes.take n) :: d.sst.filter fun f => f.1 ≠ seq }

/-- `writeSSTable` at the path of table `seq`: the file grows under its final name. -/
def writeTable (seq : Nat) (entries : List KvEntry) : EngineM Unit := do
  let bytes := writeSSTable entries
  let e ← get
  match ← nextFault with
  | some n =>
    touch fun d => d.withTable seq bytes n
    throw .io
  | none =>
    modify fun e' => { e' with
      trail := e'.trail ++ (List.range bytes.length).map (e.dir.withTable seq bytes) }
    touch fun d => d.withTable seq bytes bytes.length

def openTable (seq : Nat) : EngineM SSTable := do
  io
  match (← get).dir.sst.lookup seq with
  | none => throw .io
  | some file =>
    match openSSTable seq file with
    | .error e => throw (.table seq e)
    | .ok t => pure t

/-- A failed `os.Remove` goes unnoticed. -/
def removeTable (t : SSTable) : EngineM Unit := do
  if (← nextFault).isNone then touch fun d => { d with sst := d.sst.filter fun f => f.1 ≠ t.seq }

/-- The map `compactLocked` fills, the oldest table first. -/
def mergeTables : List SSTable → EngineM (List KvEntry)
  | [] => pure []
  | t :: ts => do
    let merged ← mergeTables ts
    io
    match t.all with
    | .error e => throw (.table t.seq e)
    | .ok entries => pure (SortedRun.insertAll KvEntry.key entries merged)

/-- Merges all tables into one, without tombstones, and removes the old ones, newest first. -/
def compactLocked : EngineM Unit := do
  let e ← get
  let merged ← mergeTables e.tables
  writeTable e.nextSST (merged.filter fun en => !en.tombstone)
  let t ← openTable e.nextSST
  modify fun e => { e with nextSST := e.nextSST + 1, tables := [t] }
  e.tables.forM removeTable

def flushLocked : EngineM Unit := do
  let e ← get
  if e.mem.entries.length = 0 then pure ()
  else
    writeTable e.nextSST e.mem.entries
    let t ← openTable e.nextSST
    modify fun e => { e with nextSST := e.nextSST + 1, tables := t :: e.tables }
    walClose
    walRemove
    walOpen
    modify fun e => { e with mem := {} }
    if (← get).tables.length > maxTablesBeforeCompact then compactLocked

/-- The second half of `write`: the memtable, and the flush of one that has grown large. -/
def writeMem (key value : Bytes) (tomb : Bool) : EngineM Unit := do
  modify fun e => { e with mem := e.mem.put key value tomb }
  let e ← get
  if e.mem.approxSize ≥ e.flushSize then flushLocked

def write (key value : Bytes) (tomb : Bool) : EngineM Unit := do
  walAppend (encodeWALRecord key value tomb)
  if (← get).syncWAL then walSync
  writeMem key value tomb

/-- `SnapshotEntries`: the live pairs, in key order. -/
def snapshotEntries : EngineM (List (Bytes × Bytes)) := do
  let e ← get
  let merged ← mergeTables e.tables
  let merged := SortedRun.insertAll KvEntry.key e.mem.entries merged
  pure ((merged.filter fun en => !en.tombstone).map fun en => (en.key, en.value))

/-- Puts one pair of a snapshot into the WAL and the memtable. -/
def loadPair (p : Bytes × Bytes) : EngineM Unit := do
  walAppend (encodeWALRecord p.1 p.2 false)
  modify fun e => { e with mem := e.mem.put p.1 p.2 false }

/-- `Reset`; the pairs of the map come in the order of its iteration. -/
def reset (entries : List (Bytes × Bytes)) : EngineM Unit := do
  (← get).tables.forM removeTable
  modify fun e => { e with tables := [], mem := {} }
  walClose
  walRemove
  walOpen
  entries.forM loadPair
  walSync

/-- `Close`. -/
def close : EngineM Unit := walClose

/-- Runs an operation on an engine. -/
def EngineM.exec {α : Type} (m : EngineM α) (e : Engine) : Except EngineError α × Engine :=
  StateT.run (ExceptT.run m) e

end Storage
end DistKV
