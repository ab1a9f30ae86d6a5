import DistKV.Raft.Quorum
import DistKV.Raft.Replay
import DistKV.Storage.SSTable

/-!
# The files of a node as bytes

`Raft/Storage.lean` speaks of records; this is how `storage.go` and `confstate.go` write them down
and read them back. A WAL payload is a type byte and the fields of the record, all numbers in
little endian words of 64 bits, and an entry carries its term and index in front of its protobuf
form. Protobuf itself is given (`Codec`): what `proto.Marshal` makes of an entry, `proto.Unmarshal`
takes back.

While the numbers fit their words and the payloads the length field of their frames, opening the
bytes of some files is opening the files (`openDirectory_image`).
-/

namespace DistKV
namespace Raft

open Storage (putUint32 getUint32 putUint64 getUint64 frames replayWAL)

/-! ## Encoding -/

/-- `proto.Marshal` and `proto.Unmarshal` of an entry. -/
structure Codec where
  marshal : Entry → Bytes
  unmarshal : Bytes → Option Entry
  inverse : ∀ e, unmarshal (marshal e) = some e

/-- A number of 64 bits. -/
def putNat (n : Nat) : Bytes := putUint64 (.ofNat n)

def getNat (b : Bytes) : Nat := (getUint64 b).toNat

def encodeConfState (c : ConfState) : Bytes :=
  putUint32 (.ofNat c.voterIDs.length) ++ c.voterIDs.flatMap putNat ++
    (putUint32 (.ofNat c.jointIDs.length) ++ c.jointIDs.flatMap putNat)

/-- `n` ids, one after the other. -/
def readIDs : Nat → Bytes → List Nat
  | 0, _ => []
  | n + 1, buf => getNat buf :: readIDs n (buf.drop 8)

/-- `none` is `ErrInvalidConfState`. -/
def decodeConfState (buf : Bytes) : Option ConfState :=
  if buf.length < 4 then some { voters := ∅ }
  else
    let nv := (getUint32 buf).toNat
    let off := 4 + nv * 8
    if off > buf.length then none
    else
      let voters := (readIDs nv (buf.drop 4)).toFinset
      if off + 4 > buf.length then some { voters := voters }
      else
        let nj := (getUint32 (buf.drop off)).toNat
        if off + 4 + nj * 8 > buf.length then none
        else some { voters := voters, joint := (readIDs nj (buf.drop (off + 4))).toFinset }

namespace Codec

variable (k : Codec)

def encodeEntry (e : Entry) : Bytes := 2 :: (putNat e.term ++ (putNat e.index ++ k.marshal e))

def decodeEntry (p : Bytes) : Entry :=
  if p.length < 16 then { term := 0, index := 0 }
  else
    let term := getNat p
    let index := getNat (p.drop 8)
    match k.unmarshal (p.drop 16) with
    | none => { term := term, index := index, data := p.drop 16 }
    | some e => { e with term := term, index := index }

/-- The payloads `setHardState`, `appendEntries`, `setConfState` and `saveSnapshot` append. -/
def encode : WalRecord → Bytes
  | .hardState term votedFor => 1 :: (putNat term ++ putNat votedFor)
  | .append e => k.encodeEntry e
  | .truncate first => 3 :: putNat first
  | .confState c => 4 :: encodeConfState c

end Codec

/-! ## Decoding -/

inductive OpenError where
  | binUnreadable
  | emptyRecord
  | unknownType (type : UInt8)
  | invalidConfState
  /-- A record that is shorter than its fields is a panic. -/
  | outOfRange
  deriving DecidableEq

def OpenError.message : OpenError → String
  | .binUnreadable => "snapshot.meta exists but snapshot.bin unreadable"
  | .emptyRecord => "wal replay: empty raft wal record"
  | .unknownType type => "wal replay: unknown raft wal record type " ++ toString type
  | .invalidConfState => "wal replay: invalid persisted config state"
  | .outOfRange => "slice bounds out of range"

/-- The callback of `openDiskStorage`, on the payload of a frame. -/
def Codec.replayPayload (k : Codec) (s : DiskStorage) : Bytes → Except OpenError DiskStorage
  | [] => .error .emptyRecord
  | type :: p =>
    if type = 1 then
      if p.length < 16 then .error .outOfRange
      else .ok (s.replayRecord (.hardState (getNat p) (getNat (p.drop 8))))
    else if type = 2 then .ok (s.replayRecord (.append (k.decodeEntry p)))
    else if type = 3 then
      if p.length < 8 then .error .outOfRange else .ok (s.replayRecord (.truncate (getNat p)))
    else if type = 4 then
      match decodeConfState p with
      | none => .error .invalidConfState
      | some c => .ok (s.replayRecord (.confState c))
    else .error (.unknownType type)

/-- The four files. -/
structure Directory where
  snapshotBin : Option Bytes := none
  snapshotMeta : Option Bytes := none
  snapshotConf : Option Bytes := none
  wal : Bytes := []

/-- The conf a snapshot file gives, over the one there is. -/
def confFrom (conf : ConfState) : Option Bytes → ConfState
  | none => conf
  | some data =>
    match decodeConfState data with
    | none => conf
    | some cs => if cs.voters.card > 0 then cs else conf

def Directory.loadSnapshot (d : Directory) (bootstrap : List Nat) : Except OpenError DiskStorage :=
  let s : DiskStorage := { conf := .newConfState bootstrap }
  match d.snapshotMeta with
  | none => .ok s
  | some file =>
    if file.length < 16 then .ok s
    else
      match d.snapshotBin with
      | none => .error .binUnreadable
      | some data =>
        .ok { s with
          snapIndex := getNat file, snapTerm := getNat (file.drop 8), snapshot := data
          conf := confFrom s.conf d.snapshotConf }

/-- `openDiskStorage`, of the files as they lie in the directory. -/
def Codec.openDirectory (k : Codec) (d : Directory) (bootstrap : List Nat) :
    Except OpenError DiskStorage :=
  match d.loadSnapshot bootstrap with
  | .error err => .error err
  | .ok s => replayWAL k.replayPayload d.wal s

/-- The bytes of some files of which every record is on the disk. -/
def Codec.image (k : Codec) (f : Files) : Directory where
  snapshotBin := f.snapshotBin
  snapshotMeta := f.snapshotMeta.map fun m => putNat m.1 ++ putNat m.2
  snapshotConf := f.snapshotConf.map encodeConfState
  wal := frames (f.synced.map k.encode)

/-! ## What fits -/

/-- The ids are words and the encoding fits into a frame. -/
structure ConfState.Fits (c : ConfState) : Prop where
  voters : ∀ id ∈ c.voters, id < 2 ^ 64
  joint : ∀ id ∈ c.joint, id < 2 ^ 64
  length : (encodeConfState c).length + 1 < 2 ^ 32

def Codec.Fits (k : Codec) : WalRecord → Prop
  | .hardState term votedFor => term < 2 ^ 64 ∧ votedFor < 2 ^ 64
  | .append e => e.term < 2 ^ 64 ∧ e.index < 2 ^ 64 ∧ (k.encodeEntry e).length < 2 ^ 32
  | .truncate first => first < 2 ^ 64
  | .confState c => c.Fits

structure Codec.FitFiles (k : Codec) (f : Files) : Prop where
  records : ∀ r ∈ f.records, k.Fits r
  saved : ∀ m, f.snapshotMeta = some m → m.1 < 2 ^ 64 ∧ m.2 < 2 ^ 64
  conf : ∀ c, f.snapshotConf = some c → c.Fits

/-! ## Round trips -/

theorem length_putNat (n : Nat) : (putNat n).length = 8 := rfl

theorem drop_putNat (n : Nat) (r : Bytes) : (putNat n ++ r).drop 8 = r := rfl

theorem getNat_putNat {n : Nat} (h : n < 2 ^ 64) (r : Bytes) : getNat (putNat n ++ r) = n := by
  rw [getNat, putNat, Storage.getUint64_putUint64, UInt64.toNat_ofNat', Nat.mod_eq_of_lt h]

theorem length_flatMap_putNat (ids : List Nat) : (ids.flatMap putNat).length = ids.length * 8 := by
  induction ids with
  | nil => rfl
  | cons id ids ih =>
    rw [List.flatMap_cons, List.length_append, ih, length_putNat, List.length_cons]
    omega

theorem readIDs_flatMap {ids : List Nat} (h : ∀ id ∈ ids, id < 2 ^ 64) (r : Bytes) :
    readIDs ids.length (ids.flatMap putNat ++ r) = ids := by
  induction ids with
  | nil => rfl
  | cons id ids ih =>
    rw [List.flatMap_cons, List.append_assoc, List.length_cons, readIDs, drop_putNat,
      getNat_putNat (h id List.mem_cons_self), ih fun x hx => h x (List.mem_cons_of_mem _ hx)]

theorem toFinset_sortedKeys (m : Finset Nat) : (sortedKeys m).toFinset = m := by
  ext id
  rw [List.mem_toFinset, mem_sortedKeys]

theorem length_sortedKeys (m : Finset Nat) : (sortedKeys m).length = m.card := by
  rw [← List.toFinset_card_of_nodup (sortedKeys_nodup m), toFinset_sortedKeys]

theorem length_encodeConfState (c : ConfState) : (encodeConfState c).length =
    4 + c.voterIDs.length * 8 + 4 + c.jointIDs.length * 8 := by
  simp only [encodeConfState, List.length_append, Storage.length_putUint32, length_flatMap_putNat]
  omega

theorem decodeConfState_encode {c : ConfState} (hv : ∀ id ∈ c.voters, id < 2 ^ 64)
    (hj : ∀ id ∈ c.joint, id < 2 ^ 64) (hvcard : c.voters.card < 2 ^ 32)
    (hjcard : c.joint.card < 2 ^ 32) : decodeConfState (encodeConfState c) = some c := by
  have hvcount : c.voterIDs.length < 2 ^ 32 := by
    rw [ConfState.voterIDs, length_sortedKeys]
    exact hvcard
  have hjcount : c.jointIDs.length < 2 ^ 32 := by
    rw [ConfState.jointIDs, length_sortedKeys]
    exact hjcard
  have hvoters : (c.voterIDs.flatMap putNat).length = c.voterIDs.length * 8 :=
    length_flatMap_putNat _
  have htotal := length_encodeConfState c
  have hsmall : ∀ n, n < 2 ^ 32 → (UInt32.ofNat n).toNat = n := fun n hn => by
    rw [UInt32.toNat_ofNat', Nat.mod_eq_of_lt hn]
  have hnv : (getUint32 (encodeConfState c)).toNat = c.voterIDs.length := by
    rw [encodeConfState, List.append_assoc, Storage.getUint32_putUint32, hsmall _ hvcount]
  -- what stands behind the first count, and behind the voters
  have hbody : (encodeConfState c).drop 4 = c.voterIDs.flatMap putNat ++
      (putUint32 (.ofNat c.jointIDs.length) ++ c.jointIDs.flatMap putNat) := by
    rw [encodeConfState, List.append_assoc]
    rfl
  have hrest : (encodeConfState c).drop (4 + c.voterIDs.length * 8) =
      putUint32 (.ofNat c.jointIDs.length) ++ c.jointIDs.flatMap putNat := by
    rw [← List.drop_drop, hbody, ← hvoters, List.drop_left]
  have hnj : (getUint32 ((encodeConfState c).drop (4 + c.voterIDs.length * 8))).toNat =
      c.jointIDs.length := by
    rw [hrest, Storage.getUint32_putUint32, hsmall _ hjcount]
  have hlast : (encodeConfState c).drop (4 + c.voterIDs.length * 8 + 4) =
      c.jointIDs.flatMap putNat ++ [] := by
    rw [← List.drop_drop, hrest, List.append_nil]
    rfl
  have hids : readIDs c.voterIDs.length ((encodeConfState c).drop 4) = c.voterIDs := by
    rw [hbody]
    exact readIDs_flatMap (fun id hid => hv id (mem_sortedKeys.mp hid)) _
  have hjids : readIDs c.jointIDs.length
      ((encodeConfState c).drop (4 + c.voterIDs.length * 8 + 4)) = c.jointIDs := by
    rw [hlast]
    exact readIDs_flatMap (fun id hid => hj id (mem_sortedKeys.mp hid)) _
  rw [decodeConfState, if_neg (by omega)]
  simp only [hnv, hnj, hids, hjids]
  rw [if_neg (by omega), if_neg (by omega), if_neg (by omega)]
  simp only [ConfState.voterIDs, ConfState.jointIDs, toFinset_sortedKeys]

theorem ConfState.Fits.decode {c : ConfState} (h : c.Fits) :
    decodeConfState (encodeConfState c) = some c := by
  have hlength := h.length
  rw [length_encodeConfState, ConfState.voterIDs, ConfState.jointIDs, length_sortedKeys,
    length_sortedKeys] at hlength
  exact decodeConfState_encode h.voters h.joint (by omega) (by omega)

namespace Codec

variable {k : Codec}

theorem decodeEntry_encode {e : Entry} (hterm : e.term < 2 ^ 64) (hindex : e.index < 2 ^ 64) :
    k.decodeEntry (putNat e.term ++ (putNat e.index ++ k.marshal e)) = e := by
  have hbody : (putNat e.term ++ (putNat e.index ++ k.marshal e)).drop 16 = k.marshal e := rfl
  have hlong : ¬(putNat e.term ++ (putNat e.index ++ k.marshal e)).length < 16 := by
    simp only [List.length_append, length_putNat]
    omega
  rw [decodeEntry, if_neg hlong]
  simp only [hbody, k.inverse, drop_putNat, getNat_putNat hterm, getNat_putNat hindex]

theorem replayPayload_encode {r : WalRecord} (h : k.Fits r) (s : DiskStorage) :
    k.replayPayload s (k.encode r) = .ok (s.replayRecord r) := by
  cases r with
  | hardState term votedFor =>
    have hvote := getNat_putNat h.2 []
    rw [List.append_nil] at hvote
    simp only [encode, replayPayload, if_true, List.length_append, length_putNat, drop_putNat,
      getNat_putNat h.1, hvote, Nat.lt_irrefl, if_false]
  | append e =>
    rw [encode, encodeEntry, replayPayload, decodeEntry_encode h.1 h.2.1]
    rfl
  | truncate first =>
    have hfirst := getNat_putNat h []
    rw [List.append_nil] at hfirst
    simp [encode, replayPayload, length_putNat, hfirst]
  | confState c =>
    simp [encode, replayPayload, ConfState.Fits.decode h]

theorem length_encode {r : WalRecord} (h : k.Fits r) : (k.encode r).length < 2 ^ 32 := by
  cases r with
  | hardState term votedFor =>
    simp [encode, length_putNat]
  | append e => exact h.2.2
  | truncate first =>
    simp [encode, length_putNat]
  | confState c =>
    have hlength := h.length
    rw [encode, List.length_cons]
    exact hlength

/-- Replaying the bytes of some records is replaying the records. -/
theorem replayWAL_encode {recs : List WalRecord} (h : ∀ r ∈ recs, k.Fits r) (s : DiskStorage) :
    replayWAL k.replayPayload (frames (recs.map k.encode)) s =
      .ok (recs.foldl DiskStorage.replayRecord s) := by
  have hshort : ∀ p ∈ recs.map k.encode, p.length < 2 ^ 32 := by
    intro p hp
    obtain ⟨r, hr, rfl⟩ := List.mem_map.mp hp
    exact length_encode (h r hr)
  have hframes := Storage.replayWAL_frames k.replayPayload hshort (t := []) rfl s
  rw [List.append_nil] at hframes
  rw [hframes]
  clear hframes hshort
  induction recs generalizing s with
  | nil => rfl
  | cons r recs ih =>
    rw [List.map_cons, List.foldlM_cons, replayPayload_encode (h r List.mem_cons_self)]
    exact ih (fun x hx => h x (List.mem_cons_of_mem _ hx)) _

theorem loadSnapshot_image {f : Files} (h : k.FitFiles f) {bootstrap : List Nat} {s : DiskStorage}
    (hs : DiskStorage.loadSnapshot f bootstrap = some s) :
    (k.image f).loadSnapshot bootstrap = .ok { s with disk := {} } := by
  rw [DiskStorage.loadSnapshot] at hs
  cases hm : f.snapshotMeta with
  | none =>
    rw [hm, Option.some.injEq] at hs
    rw [← hs]
    simp only [Directory.loadSnapshot, image, hm, Option.map_none]
  | some m =>
    obtain ⟨hindex, hterm⟩ := h.saved m hm
    have hlast := getNat_putNat hterm []
    rw [List.append_nil] at hlast
    cases hb : f.snapshotBin with
    | none =>
      simp only [hm, hb] at hs
      cases hs
    | some data =>
      simp only [hm, hb, Option.some.injEq] at hs
      rw [← hs]
      have hload : (k.image f).loadSnapshot bootstrap = .ok
          { conf := confFrom (.newConfState bootstrap) (f.snapshotConf.map encodeConfState)
            snapIndex := m.1, snapTerm := m.2, snapshot := data } := by
        simp only [Directory.loadSnapshot, image, hm, hb, Option.map_some, List.length_append,
          length_putNat, Nat.lt_irrefl, if_false, getNat_putNat hindex, drop_putNat, hlast]
      rw [hload]
      cases hc : f.snapshotConf with
      | none => rfl
      | some c =>
        rw [Option.map_some, confFrom, (h.conf c hc).decode]

/-- **Opening the bytes is opening the files.** -/
theorem openDirectory_image {f : Files} (h : k.FitFiles f) {bootstrap : List Nat}
    {s : DiskStorage} (hs : DiskStorage.openDiskStorage f bootstrap = some s) :
    k.openDirectory (k.image f) bootstrap = .ok { s with disk := {} } := by
  rw [DiskStorage.openDiskStorage, Option.map_eq_some_iff] at hs
  obtain ⟨s₀, hload, rfl⟩ := hs
  rw [openDirectory, loadSnapshot_image h hload]
  simp only
  have hwal : (k.image f).wal = frames (f.synced.map k.encode) := rfl
  rw [hwal, replayWAL_encode fun r hr => h.records r (List.mem_append_left _ hr),
    foldl_replayRecord, foldl_replayRecord]

end Codec

end Raft
end DistKV
