import DistKV.Storage.TableFormat

/-!
# Writing a table and opening it

`openSSTable (writeSSTable es)` is a table that lists `es` and finds the keys of `es` and no others
(`sstable_round_trip`). Two fields of the format are narrower than what they are written from. The
length of a value has 32 bits, and so has the number of index entries, one for every 16 records. The
second one matters only when it wraps around to zero: with some of the index a lookup starts further
to the front and still reads on to its key, but a table without index answers no lookup at all
(`sstable_index_lost`).
-/

namespace DistKV
namespace Storage

open SortedRun

/-! ## How many index entries there are -/

theorem length_sparseIndex (i off : Nat) (es : List KvEntry) :
    (sparseIndex i off es).length = (i + es.length + 15) / 16 - (i + 15) / 16 := by
  induction es generalizing i off with
  | nil => simp [sparseIndex]
  | cons e es ih =>
    rw [sparseIndex, indexEvery, List.length_cons]
    split
    · rw [List.length_cons, ih]
      omega
    · rw [ih]
      omega

/-- What the code writes for a list of entries can be opened, listed and searched. -/
theorem sstable_round_trip (es : List KvEntry) (seq : Nat)
    (hkeys : es.Pairwise fun a b => a.key < b.key)
    (hentry : ∀ e ∈ es, e.key.length < 2 ^ 32 ∧ e.value.length < 2 ^ 32)
    (hdata : (dataBlock es).length < 2 ^ 63)
    (hcount : es ≠ [] → ¬2 ^ 32 ∣ (es.length + 15) / 16) :
    ∃ t, openSSTable seq (writeSSTable es) = .ok t ∧ t.all = .ok es ∧
      (∀ e ∈ es, t.get e.key = .ok (some e)) ∧
      ∀ key, (∀ e ∈ es, e.key ≠ key) → t.get key = .ok none := by
  have hsized : Sized es := ⟨hentry, hdata⟩
  have hlength : (sparseIndex 0 0 es).length = (es.length + 15) / 16 := by
    rw [length_sparseIndex]
    omega
  have hwraps : (sparseIndex 0 0 es).length % 2 ^ 32 = 0 → es = [] := by
    intro hzero
    by_contra hne
    rw [hlength] at hzero
    exact hcount hne (Nat.dvd_of_mod_eq_zero hzero)
  obtain ⟨t, hopen, hreads⟩ := openSSTable_reads hsized seq hwraps
  refine ⟨t, hopen, hreads.all hsized, fun e he => ?_, fun key hkey => ?_⟩
  · rw [hreads.get hsized hkeys, find_of_mem hkeys he rfl]
  · rw [hreads.get hsized hkeys, (find_eq_none hkeys).mpr hkey]

/-- Forty records, every fifth of them a tombstone: three blocks. -/
def fortyRecords : List KvEntry :=
  (List.range 40).map fun n => ⟨[.ofNat n], [.ofNat n], n % 5 == 0⟩

theorem sstable_round_trip_forty :
    ∃ t, openSSTable 1 (writeSSTable fortyRecords) = .ok t ∧ t.index.length = 3 ∧
      t.all = .ok fortyRecords ∧ t.get [37] = .ok (some ⟨[37], [37], false⟩) ∧
      t.get [20] = .ok (some ⟨[20], [20], true⟩) ∧ t.get [40] = .ok none := by
  obtain ⟨t, hopen, hall, hget, hnone⟩ := sstable_round_trip fortyRecords 1
    (by decide +kernel) (by decide +kernel) (by decide +kernel) (by decide +kernel)
  have hindex : (openSSTable 1 (writeSSTable fortyRecords)).toOption.map (·.index.length) = some 3 := by
    decide +kernel
  rw [hopen] at hindex
  exact ⟨t, hopen, Option.some.inj hindex, hall, hget ⟨[37], [37], false⟩ (by decide +kernel),
    hget ⟨[20], [20], true⟩ (by decide +kernel), hnone [40] (by decide +kernel)⟩

/-! ## A count that wraps around to zero -/

/-- The values of a byte, in order. -/
def allBytes : List UInt8 := (List.range 256).map .ofNat

/-- Every key of `n` bytes, in order. -/
def allKeys : Nat → List Bytes
  | 0 => [[]]
  | n + 1 => allBytes.flatMap fun b => (allKeys n).map (b :: ·)

theorem allBytes_increasing : allBytes.Pairwise (· < ·) := by
  refine List.pairwise_map.mpr (List.Pairwise.imp_of_mem ?_ List.pairwise_lt_range)
  intro a b ha hb hlt
  rw [List.mem_range] at ha hb
  rw [UInt8.lt_iff_toNat_lt, UInt8.toNat_ofNat', UInt8.toNat_ofNat']
  omega

theorem allKeys_increasing (n : Nat) : (allKeys n).Pairwise (· < ·) := by
  induction n with
  | zero => exact List.pairwise_singleton _ _
  | succ n ih =>
    refine List.pairwise_flatMap.mpr ⟨fun b _ => ?_, ?_⟩
    · exact List.pairwise_map.mpr (ih.imp fun hlt => List.Lex.cons hlt)
    · refine allBytes_increasing.imp fun hlt x hx y hy => ?_
      obtain ⟨x, -, rfl⟩ := List.mem_map.mp hx
      obtain ⟨y, -, rfl⟩ := List.mem_map.mp hy
      exact List.Lex.rel hlt

theorem length_of_mem_allKeys {n : Nat} {key : Bytes} (h : key ∈ allKeys n) : key.length = n := by
  induction n generalizing key with
  | zero =>
    rw [List.mem_singleton.mp h]
    rfl
  | succ n ih =>
    obtain ⟨b, -, hkey⟩ := List.mem_flatMap.mp h
    obtain ⟨key, hmem, rfl⟩ := List.mem_map.mp hkey
    rw [List.length_cons, ih hmem]

theorem length_allKeys (n : Nat) : (allKeys n).length = 256 ^ n := by
  induction n with
  | zero => rfl
  | succ n ih =>
    rw [allKeys, List.length_flatMap]
    simp only [List.length_map, ih, List.map_const', List.sum_replicate_nat]
    rw [allBytes, List.length_map, List.length_range, Nat.pow_succ, Nat.mul_comm]

/-- A record with an empty value for every key of `n` bytes. -/
def emptyRecords (n : Nat) : List KvEntry := (allKeys n).map fun key => ⟨key, [], false⟩

theorem emptyRecords_increasing (n : Nat) :
    (emptyRecords n).Pairwise fun a b => a.key < b.key :=
  List.pairwise_map.mpr (allKeys_increasing n)

theorem length_emptyRecords (n : Nat) : (emptyRecords n).length = 256 ^ n := by
  rw [emptyRecords, List.length_map, length_allKeys]

theorem of_mem_emptyRecords {n : Nat} {e : KvEntry} (h : e ∈ emptyRecords n) :
    e.key.length = n ∧ e.value = [] := by
  obtain ⟨key, hkey, rfl⟩ := List.mem_map.mp h
  exact ⟨length_of_mem_allKeys hkey, rfl⟩

theorem length_dataBlock_emptyRecords (n : Nat) :
    (dataBlock (emptyRecords n)).length = 256 ^ n * (9 + n) := by
  have hrecord : (emptyRecords n).map (fun e => (record e).length) =
      (emptyRecords n).map fun _ => 9 + n := by
    refine List.map_congr_left fun e he => ?_
    obtain ⟨hkey, hvalue⟩ := of_mem_emptyRecords he
    rw [length_record, hkey, hvalue, List.length_nil, Nat.add_zero]
  rw [dataBlock, List.length_flatMap, hrecord, List.map_const', List.sum_replicate_nat,
    length_emptyRecords]

/-- With a record for each of the `2 ^ 40` keys of five bytes the index has `2 ^ 36` entries, and the
    footer says that it has none: the table opens, and every lookup comes back empty. -/
theorem sstable_index_lost :
    ((emptyRecords 5).Pairwise fun a b => a.key < b.key) ∧ (emptyRecords 5).length = 2 ^ 40 ∧
      (∀ e ∈ emptyRecords 5, e.key.length = 5 ∧ e.value = []) ∧
      ∃ t, openSSTable 1 (writeSSTable (emptyRecords 5)) = .ok t ∧
        ∀ key, t.get key = .ok none := by
  have hlength : (emptyRecords 5).length = 2 ^ 40 := by
    rw [length_emptyRecords]
    rfl
  have hsized : Sized (emptyRecords 5) := by
    refine ⟨fun e he => ?_, ?_⟩
    · obtain ⟨hkey, hvalue⟩ := of_mem_emptyRecords he
      rw [hkey, hvalue]
      decide
    · rw [length_dataBlock_emptyRecords]
      decide
  have hcount : (sparseIndex 0 0 (emptyRecords 5)).length % 2 ^ 32 = 0 := by
    rw [length_sparseIndex, hlength]
    rfl
  refine ⟨emptyRecords_increasing 5, hlength, fun e he => of_mem_emptyRecords he,
    { seq := 1, file := writeSSTable (emptyRecords 5), index := [] }, ?_, fun key => ?_⟩
  · rw [openSSTable_count hsized, hcount, List.take_zero]
    rfl
  · rw [SSTable.get]
    exact if_pos (Or.inl rfl)

end Storage
end DistKV
