import DistKV.Storage.SSTable

/-!
# The parts of a table file are frames

Records and index entries carry the lengths of what they hold, and each of the two readers of
`SSTable.lean` takes one of them off the front of its input or fails. Both are framings, so what they
accept is known exactly: a record or an index entry is found precisely where its bytes stand.
-/

namespace DistKV
namespace Storage

/-! ## Words and lengths -/

/-- The first `n` bytes and the rest. -/
def cut (n : Nat) (b : Bytes) : Option (Bytes × Bytes) :=
  if b.length < n then none else some (b.take n, b.drop n)

theorem cut_append (x r : Bytes) : cut x.length (x ++ r) = some (x, r) := by
  rw [cut, if_neg (by simp), List.take_left' rfl, List.drop_left' rfl]

theorem cut_eq_some {n : Nat} {b x r : Bytes} (h : cut n b = some (x, r)) :
    x.length = n ∧ b = x ++ r := by
  rw [cut] at h
  split at h
  · cases h
  next hlong =>
  cases h
  refine ⟨?_, (List.take_append_drop _ _).symm⟩
  rw [List.length_take, Nat.min_eq_left (Nat.le_of_not_lt hlong)]

theorem toNat_ofNat_length {b : Bytes} (h : b.length < 2 ^ 32) :
    (UInt32.ofNat b.length).toNat = b.length := by
  rw [UInt32.toNat_ofNat', Nat.mod_eq_of_lt h]

/-- The first four bytes are those of the word that is read there. -/
theorem putUint32_append_drop {b : Bytes} (h : 4 ≤ b.length) :
    putUint32 (getUint32 b) ++ b.drop 4 = b := by
  rw [putUint32_getUint32 h, List.take_append_drop]

/-- The eight bytes in front are those of the word that is read there. -/
theorem putUint64_append_drop {b : Bytes} (h : 8 ≤ b.length) :
    putUint64 (getUint64 b) ++ b.drop 8 = b := by
  have hlow := (getUint32 b).toNat_lt
  have hhigh := (getUint32 (b.drop 4)).toNat_lt
  have hsecond : 4 ≤ (b.drop 4).length := by
    rw [List.length_drop]
    omega
  have hdrop : b.drop 8 = (b.drop 4).drop 4 := by rw [List.drop_drop]
  have hsum : (getUint64 b).toNat =
      (getUint32 b).toNat + 2 ^ 32 * (getUint32 (b.drop 4)).toNat := by
    rw [getUint64, UInt64.toNat_ofNat']
    omega
  have hfirst : UInt32.ofNat (getUint64 b).toNat = getUint32 b := by
    apply UInt32.toNat_inj.mp
    rw [UInt32.toNat_ofNat', hsum]
    omega
  have hnext : UInt32.ofNat ((getUint64 b).toNat / 2 ^ 32) = getUint32 (b.drop 4) := by
    apply UInt32.toNat_inj.mp
    rw [UInt32.toNat_ofNat', hsum]
    omega
  rw [putUint64, hfirst, hnext, List.append_assoc, hdrop, putUint32_append_drop hsecond,
    putUint32_append_drop (by omega)]

/-- The length word in front of so many bytes is the one that was read. -/
theorem putUint32_of_length {b : Bytes} {w : UInt32} (h : b.length = w.toNat) :
    putUint32 (.ofNat b.length) = putUint32 w := by
  rw [h, UInt32.ofNat_toNat]

/-! ## Records -/

/-- A record as it stands in the file. -/
structure RawRecord where
  flags : UInt8
  key : Bytes
  value : Bytes

namespace RawRecord

/-- What `scanBlock` makes of a record: of the flags it looks at the lowest bit. -/
def entry (p : RawRecord) : KvEntry :=
  { key := p.key, value := p.value, tombstone := decide (p.flags &&& 1 = 1) }

def bytes (p : RawRecord) : Bytes :=
  p.flags :: (putUint32 (.ofNat p.key.length) ++ (putUint32 (.ofNat p.value.length) ++
    (p.key ++ p.value)))

def read (r : Bytes) : Option (RawRecord × Bytes) :=
  if r.length < 9 then none
  else
    (cut (getUint32 (r.drop 1)).toNat (r.drop 9)).bind fun k =>
      (cut (getUint32 (r.drop 5)).toNat k.2).map fun v => (⟨r.headD 0, k.1, v.1⟩, v.2)

theorem read_bytes {p : RawRecord} (hk : p.key.length < 2 ^ 32) (hv : p.value.length < 2 ^ 32)
    (r : Bytes) : read (p.bytes ++ r) = some (p, r) := by
  have hkey : (p.bytes ++ r).drop 1 = putUint32 (.ofNat p.key.length) ++
      (putUint32 (.ofNat p.value.length) ++ (p.key ++ p.value) ++ r) := rfl
  have hvalue : (p.bytes ++ r).drop 5 = putUint32 (.ofNat p.value.length) ++
      (p.key ++ p.value ++ r) := rfl
  have hbody : (p.bytes ++ r).drop 9 = p.key ++ (p.value ++ r) := by
    rw [← List.append_assoc]
    rfl
  have hlong : ¬(p.bytes ++ r).length < 9 := by
    simp only [bytes, List.length_append, List.length_cons, length_putUint32]
    omega
  rw [read, if_neg hlong, hkey, hvalue, hbody, getUint32_putUint32, getUint32_putUint32,
    toNat_ofNat_length hk, toNat_ofNat_length hv, cut_append, Option.bind_some, cut_append]
  rfl

theorem bytes_of_read {b r : Bytes} {p : RawRecord} (h : read b = some (p, r)) :
    (p.key.length < 2 ^ 32 ∧ p.value.length < 2 ^ 32) ∧ b = p.bytes ++ r := by
  rw [read] at h
  split at h
  · cases h
  next hlong =>
  obtain ⟨⟨key, r₁⟩, hkey, h⟩ := Option.bind_eq_some_iff.mp h
  obtain ⟨⟨value, r₂⟩, hvalue, heq⟩ := Option.map_eq_some_iff.mp h
  obtain ⟨hklen, hkrest⟩ := cut_eq_some hkey
  obtain ⟨hvlen, hvrest⟩ := cut_eq_some hvalue
  cases heq
  refine ⟨⟨by rw [hklen]; exact UInt32.toNat_lt _, by rw [hvlen]; exact UInt32.toNat_lt _⟩, ?_⟩
  cases b with
  | nil => exact absurd (Nat.zero_lt_succ 8) hlong
  | cons flags b =>
    have hlong : 8 ≤ b.length := Nat.le_of_succ_le_succ (Nat.le_of_not_lt hlong)
    have hwords : putUint32 (getUint32 b) ++ (putUint32 (getUint32 (b.drop 4)) ++ b.drop 8) = b := by
      have hsecond : 4 ≤ (b.drop 4).length := by
        rw [List.length_drop]
        omega
      have hdrop : b.drop 8 = (b.drop 4).drop 4 := by rw [List.drop_drop]
      rw [hdrop, putUint32_append_drop hsecond, putUint32_append_drop (by omega)]
    simp only [bytes, List.headD_cons, List.cons_append, List.append_assoc]
    rw [putUint32_of_length hklen, putUint32_of_length hvlen, ← hvrest, ← hkrest]
    exact (congrArg (flags :: ·) hwords).symm

/-- Records are frames. -/
def framing : Framing UInt8 RawRecord where
  fits p := p.key.length < 2 ^ 32 ∧ p.value.length < 2 ^ 32
  encode := bytes
  decode := read
  decode_encode hp r := read_bytes hp.1 hp.2 r
  encode_decode h := bytes_of_read h
  encode_ne_nil _ := List.cons_ne_nil _ _

end RawRecord

/-- A round of `scanBlock` finds a record, or less than a header, or fails. -/
theorem readRecord_eq (r : Bytes) : readRecord r =
    if r.length < 9 then .ok none
    else (RawRecord.read r).elim (.error .unexpectedEOF) fun q => .ok (some (q.1.entry, q.2)) := by
  rw [readRecord, RawRecord.read]
  split
  · rfl
  simp only [cut]
  split
  · rfl
  · rw [Option.bind_some]
    split
    · rfl
    · rfl

/-! ## Index entries -/

/-- An index entry as it stands in the file. -/
structure RawIndexEntry where
  key : Bytes
  offset : UInt64

namespace RawIndexEntry

def entry (p : RawIndexEntry) : SstIndexEntry := { key := p.key, offset := toInt64 p.offset }

def bytes (p : RawIndexEntry) : Bytes :=
  putUint32 (.ofNat p.key.length) ++ (p.key ++ putUint64 p.offset)

def read (b : Bytes) : Option (RawIndexEntry × Bytes) :=
  if b.length < 4 then none
  else
    (cut (getUint32 b).toNat (b.drop 4)).bind fun k =>
      if k.2.length < 8 then none else some (⟨k.1, getUint64 k.2⟩, k.2.drop 8)

theorem read_bytes {p : RawIndexEntry} (hk : p.key.length < 2 ^ 32) (r : Bytes) :
    read (p.bytes ++ r) = some (p, r) := by
  have hbytes : p.bytes ++ r =
      putUint32 (.ofNat p.key.length) ++ (p.key ++ (putUint64 p.offset ++ r)) := by
    simp only [bytes, List.append_assoc]
  have hbody : (p.bytes ++ r).drop 4 = p.key ++ (putUint64 p.offset ++ r) := by
    rw [hbytes]
    rfl
  have hdrop : (putUint64 p.offset ++ r).drop 8 = r := rfl
  rw [read, if_neg (by simp [bytes, length_putUint32]), hbody, hbytes, getUint32_putUint32,
    toNat_ofNat_length hk, cut_append, Option.bind_some]
  rw [if_neg (by simp [length_putUint64]), getUint64_putUint64, hdrop]

theorem bytes_of_read {b r : Bytes} {p : RawIndexEntry} (h : read b = some (p, r)) :
    p.key.length < 2 ^ 32 ∧ b = p.bytes ++ r := by
  rw [read] at h
  split at h
  · cases h
  next hlong =>
  obtain ⟨⟨key, rest⟩, hkey, h⟩ := Option.bind_eq_some_iff.mp h
  obtain ⟨hklen, hkrest⟩ := cut_eq_some hkey
  split at h
  · cases h
  next hword =>
  cases h
  refine ⟨by rw [hklen]; exact UInt32.toNat_lt _, ?_⟩
  simp only [bytes, List.append_assoc]
  rw [putUint64_append_drop (Nat.le_of_not_lt hword), putUint32_of_length hklen, ← hkrest,
    putUint32_append_drop (Nat.le_of_not_lt hlong)]

/-- Index entries are frames. -/
def framing : Framing UInt8 RawIndexEntry where
  fits p := p.key.length < 2 ^ 32
  encode := bytes
  decode := read
  decode_encode hp r := read_bytes hp r
  encode_decode h := bytes_of_read h
  encode_ne_nil _ := List.cons_ne_nil _ _

end RawIndexEntry

/-- The loop over the index block reads so many frames, or runs out of the block. -/
theorem readIndex_eq (n : Nat) (b : Bytes) : readIndex n b =
    (RawIndexEntry.framing.decodeN n b).elim (.error .sliceBounds) fun q =>
      .ok (q.1.map RawIndexEntry.entry) := by
  induction n generalizing b with
  | zero => rfl
  | succ n ih =>
    have hdecode : RawIndexEntry.framing.decode b = RawIndexEntry.read b := rfl
    rw [readIndex, Framing.decodeN, hdecode, RawIndexEntry.read]
    simp only [cut]
    split
    · rfl
    split
    · rfl
    rw [Option.bind_some]
    simp only
    split
    · rfl
    simp only [ih]
    cases RawIndexEntry.framing.decodeN n _ with
    | none => rfl
    | some q => rfl

end Storage
end DistKV
