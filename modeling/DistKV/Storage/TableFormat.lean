import DistKV.Storage.TableFrames

/-!
# What was written to a table can be read from it

Each reader of `SSTable.lean` is matched with the writer of the same piece: a record, the data block,
the index block, the footer. The lookup needs one more fact, about the index alone: an index entry
stands for a position of the list, with the key that is there and the offset of its record.
-/

namespace DistKV
namespace Storage

open SortedRun (Increasing find)

/-- The lengths and offsets of a table with these entries fit their fields. -/
structure Fits (es : List KvEntry) : Prop where
  entry : ∀ e ∈ es, e.key.length < 2 ^ 32 ∧ e.value.length < 2 ^ 32
  data : (dataBlock es).length < 2 ^ 63
  index : (sparseIndex 0 0 es).length < 2 ^ 32

/-- The lengths of the records fit their fields, and every offset its word. -/
structure Sized (es : List KvEntry) : Prop where
  entry : ∀ e ∈ es, e.key.length < 2 ^ 32 ∧ e.value.length < 2 ^ 32
  data : (dataBlock es).length < 2 ^ 63

theorem Fits.sized {es : List KvEntry} (h : Fits es) : Sized es := ⟨h.entry, h.data⟩

/-! ## Records -/

theorem length_record (e : KvEntry) : (record e).length = 9 + e.key.length + e.value.length := by
  simp only [record, List.length_append, List.length_cons, length_putUint32]

theorem dataBlock_cons (e : KvEntry) (es : List KvEntry) :
    dataBlock (e :: es) = record e ++ dataBlock es := List.flatMap_cons

theorem dataBlock_append (es es' : List KvEntry) :
    dataBlock (es ++ es') = dataBlock es ++ dataBlock es' := List.flatMap_append

/-- The record that is written for an entry. -/
def KvEntry.raw (e : KvEntry) : RawRecord := ⟨if e.tombstone then 1 else 0, e.key, e.value⟩

theorem KvEntry.bytes_raw (e : KvEntry) : e.raw.bytes = record e := by
  simp only [raw, RawRecord.bytes, record, List.cons_append, List.append_assoc]

theorem KvEntry.entry_raw (e : KvEntry) : e.raw.entry = e := by
  obtain ⟨key, value, tombstone⟩ := e
  cases tombstone with
  | true => simp [raw, RawRecord.entry]
  | false => simp [raw, RawRecord.entry]

theorem readRecord_record {e : KvEntry} (hk : e.key.length < 2 ^ 32) (hv : e.value.length < 2 ^ 32)
    (r : Bytes) : readRecord (record e ++ r) = .ok (some (e, r)) := by
  have hlong : ¬(record e ++ r).length < 9 := by
    rw [List.length_append, length_record]
    omega
  have hread : RawRecord.read (record e ++ r) = some (e.raw, r) := by
    rw [← e.bytes_raw]
    exact RawRecord.read_bytes hk hv r
  rw [readRecord_eq, if_neg hlong, hread, Option.elim_some, e.entry_raw]

/-- The scan of a list of entries. -/
def scanList {σ : Type} (fn : σ → KvEntry → σ × Bool) : List KvEntry → Bytes → σ → Bytes × σ
  | [], lastKey, s => (lastKey, s)
  | e :: es, _, s =>
    let q := fn s e
    if q.2 then (e.key, q.1) else scanList fn es e.key q.1

theorem scanLoop_dataBlock {σ : Type} (fn : σ → KvEntry → σ × Bool) {es : List KvEntry}
    (hes : ∀ e ∈ es, e.key.length < 2 ^ 32 ∧ e.value.length < 2 ^ 32) {fuel : Nat}
    (hfuel : es.length ≤ fuel) (lastKey : Bytes) (s : σ) :
    scanLoop fn fuel (dataBlock es) lastKey s = .ok (scanList fn es lastKey s) := by
  induction es generalizing fuel lastKey s with
  | nil =>
    cases fuel with
    | zero => rfl
    | succ fuel => rfl
  | cons e es ih =>
    cases fuel with
    | zero => cases hfuel
    | succ fuel =>
      obtain ⟨hk, hv⟩ := hes e List.mem_cons_self
      rw [dataBlock_cons, scanLoop, readRecord_record hk hv, scanList]
      simp only
      split
      · rfl
      · exact ih (fun x hx => hes x (List.mem_cons_of_mem _ hx)) (Nat.le_of_succ_le_succ hfuel) _ _

theorem length_le_dataBlock (es : List KvEntry) : 9 * es.length ≤ (dataBlock es).length := by
  induction es with
  | nil => exact Nat.zero_le _
  | cons e es ih =>
    rw [dataBlock_cons, List.length_append, length_record, List.length_cons]
    omega

/-! ## The index -/

/-- An index entry stands for a position. -/
theorem mem_sparseIndex {i off : Nat} {es : List KvEntry} {ie : Bytes × Nat}
    (h : ie ∈ sparseIndex i off es) : ∃ m e, es[m]? = some e ∧ ie.1 = e.key ∧
      ie.2 = off + (dataBlock (es.take m)).length := by
  induction es generalizing i off with
  | nil => cases h
  | cons e es ih =>
    have htail : ie ∈ sparseIndex (i + 1) (off + (9 + e.key.length + e.value.length)) es →
        ∃ m x, (e :: es)[m]? = some x ∧ ie.1 = x.key ∧
          ie.2 = off + (dataBlock ((e :: es).take m)).length := by
      intro hmem
      obtain ⟨m, x, hx, hkey, hoff⟩ := ih hmem
      refine ⟨m + 1, x, hx, hkey, ?_⟩
      rw [hoff, List.take_succ_cons, dataBlock_cons, List.length_append, length_record, Nat.add_assoc]
    rw [sparseIndex] at h
    split at h
    · rcases List.mem_cons.mp h with rfl | hmem
      · exact ⟨0, e, rfl, rfl, rfl⟩
      · exact htail hmem
    · exact htail h

theorem sparseIndex_sublist (i off : Nat) (es : List KvEntry) :
    ((sparseIndex i off es).map Prod.fst).Sublist (es.map KvEntry.key) := by
  induction es generalizing i off with
  | nil => exact List.Sublist.refl _
  | cons e es ih =>
    rw [sparseIndex, List.map_cons]
    split
    · exact (ih ..).cons_cons _
    · exact (ih ..).cons _

/-- The index entry that is written for a key and an offset. -/
def rawIndex (ie : Bytes × Nat) : RawIndexEntry := ⟨ie.1, .ofNat ie.2⟩

theorem bytes_rawIndex (ie : Bytes × Nat) : (rawIndex ie).bytes = indexRecord ie := by
  simp only [rawIndex, RawIndexEntry.bytes, indexRecord, List.append_assoc]

theorem encodeAll_rawIndex (index : List (Bytes × Nat)) :
    RawIndexEntry.framing.encodeAll (index.map rawIndex) = index.flatMap indexRecord := by
  rw [Framing.encodeAll, List.flatMap_map]
  exact List.flatMap_congr fun ie _ => bytes_rawIndex ie

/-- The count decides how much of the index block is read. -/
theorem readIndex_take {index : List (Bytes × Nat)} {n : Nat} (hn : n ≤ index.length)
    (h : ∀ ie ∈ index, ie.1.length < 2 ^ 32 ∧ ie.2 < 2 ^ 63) :
    readIndex n (index.flatMap indexRecord) =
      .ok ((index.take n).map fun ie => { key := ie.1, offset := ie.2 }) := by
  have hread : RawIndexEntry.framing.decodeN n (index.flatMap indexRecord) =
      some ((index.take n).map rawIndex, (index.drop n).flatMap indexRecord) := by
    rw [Framing.decodeN_eq_some, List.length_map, List.length_take, Nat.min_eq_left hn]
    refine ⟨rfl, fun p hp => ?_, ?_⟩
    · obtain ⟨ie, hie, rfl⟩ := List.mem_map.mp hp
      exact (h ie (List.mem_of_mem_take hie)).1
    · rw [encodeAll_rawIndex, ← List.flatMap_append, List.take_append_drop]
  rw [readIndex_eq, hread, Option.elim_some, List.map_map]
  refine congrArg Except.ok (List.map_congr_left fun ie hie => ?_)
  rw [Function.comp_apply, rawIndex, RawIndexEntry.entry,
    toInt64_ofNat (h ie (List.mem_of_mem_take hie)).2]

/-! ## Whole files -/

theorem length_footer (indexOff count : Nat) (crc : UInt32) :
    (footer indexOff count crc).length = 24 := by
  simp only [footer, List.length_append, length_putUint32, length_putUint64]

theorem footerOf_append (b : Bytes) (indexOff count : Nat) (crc : UInt32) :
    footerOf (b ++ footer indexOff count crc) = footer indexOff count crc := by
  have hlen : (b ++ footer indexOff count crc).length - 24 = b.length := by
    rw [List.length_append, length_footer, Nat.add_sub_cancel]
  rw [footerOf, hlen, List.drop_left']
  rfl

theorem footer_fields (indexOff count : Nat) (crc : UInt32) :
    getUint64 (footer indexOff count crc) = .ofNat indexOff ∧
    getUint32 ((footer indexOff count crc).drop 8) = .ofNat count ∧
    getUint32 ((footer indexOff count crc).drop 12) = crc ∧
    getUint64 ((footer indexOff count crc).drop 16) = sstMagic := by
  have hcount : (footer indexOff count crc).drop 8 =
      putUint32 (.ofNat count) ++ (putUint32 crc ++ putUint64 sstMagic) := rfl
  have hcrc : (footer indexOff count crc).drop 12 = putUint32 crc ++ putUint64 sstMagic := rfl
  have hmagic : (footer indexOff count crc).drop 16 = putUint64 sstMagic ++ [] := rfl
  refine ⟨?_, ?_, ?_, ?_⟩
  · rw [footer, List.append_assoc, List.append_assoc, getUint64_putUint64]
  · rw [hcount, getUint32_putUint32]
  · rw [hcrc, getUint32_putUint32]
  · rw [hmagic, getUint64_putUint64]

/-- The whole index of a list of entries, as it is read back. -/
def indexOf (es : List KvEntry) : List SstIndexEntry :=
  (sparseIndex 0 0 es).map fun ie => { key := ie.1, offset := ie.2 }

/-- The table `openSSTable` makes of a list of entries. -/
def tableOf (seq : Nat) (es : List KvEntry) : SSTable where
  seq := seq
  file := writeSSTable es
  index := (sparseIndex 0 0 es).map fun ie => { key := ie.1, offset := ie.2 }
  minKey := (es.head?.map KvEntry.key).getD []
  maxKey := (es.getLast?.map KvEntry.key).getD []

section Table

variable {es : List KvEntry}

theorem writeSSTable_footer (es : List KvEntry) : footerOf (writeSSTable es) =
    footer (dataBlock es).length (sparseIndex 0 0 es).length
      (checksumIEEE ((sparseIndex 0 0 es).flatMap indexRecord)) :=
  footerOf_append _ _ _ _

theorem writeSSTable_limit (h : Sized es) :
    toInt64 (getUint64 (footerOf (writeSSTable es))) = (dataBlock es).length := by
  rw [writeSSTable_footer, (footer_fields _ _ _).1, toInt64_ofNat h.data]

theorem readIndexBlock_writeSSTable (memory : Nat) (es : List KvEntry) :
    readIndexBlock memory (writeSSTable es) (dataBlock es).length =
      .ok ((sparseIndex 0 0 es).flatMap indexRecord) := by
  have hlen : ((writeSSTable es).length : Int) - 24 - (dataBlock es).length =
      (((sparseIndex 0 0 es).flatMap indexRecord).length : Nat) := by
    rw [writeSSTable, List.length_append, List.length_append, length_footer]
    omega
  rw [readIndexBlock]
  simp only [hlen]
  rw [if_neg (by omega), if_neg (by omega), Int.toNat_natCast, Int.toNat_natCast, writeSSTable,
    List.append_assoc, List.drop_left', List.take_left']
  · rfl
  · rfl

/-- The section from the record at a position to the end of the data. -/
theorem sectionOf_writeSSTable (es : List KvEntry) (m : Nat) :
    sectionOf (writeSSTable es) (dataBlock (es.take m)).length (dataBlock es).length =
      dataBlock (es.drop m) := by
  have hsplit : dataBlock es = dataBlock (es.take m) ++ dataBlock (es.drop m) := by
    rw [← dataBlock_append, List.take_append_drop]
  have hle : (dataBlock (es.take m)).length ≤ (dataBlock es).length := by
    rw [hsplit, List.length_append]
    exact Nat.le_add_right _ _
  have hlen : ((dataBlock es).length : Int) - (dataBlock (es.take m)).length =
      ((dataBlock (es.drop m)).length : Nat) := by
    rw [hsplit, List.length_append]
    omega
  rw [sectionOf, if_neg (by omega), if_neg (by omega), hlen, Int.toNat_natCast, Int.toNat_natCast,
    writeSSTable]
  rw [hsplit, List.append_assoc, List.append_assoc, List.drop_left' rfl, List.take_left' rfl]

/-- A scan from the record at a position. -/
theorem scanBlock_writeSSTable {σ : Type} (h : Sized es) (m : Nat) (fn : σ → KvEntry → σ × Bool)
    (s : σ) :
    scanBlock (writeSSTable es) (dataBlock (es.take m)).length (dataBlock es).length fn s =
      .ok (scanList fn (es.drop m) [] s) := by
  have hdata := h.data
  rw [scanBlock, if_neg (by omega)]
  simp only [sectionOf_writeSSTable]
  refine scanLoop_dataBlock fn (fun e he => h.entry e (List.mem_of_mem_drop he)) ?_ [] s
  exact Nat.le_trans (Nat.le_mul_of_pos_left _ (by decide)) (length_le_dataBlock _)

theorem scanList_lastKey (es : List KvEntry) (lastKey : Bytes) :
    (scanList (fun (_ : Unit) _ => ((), false)) es lastKey ()).1 =
      (es.getLast?.map KvEntry.key).getD lastKey := by
  induction es generalizing lastKey with
  | nil => rfl
  | cons e es ih =>
    rw [scanList]
    simp only [Bool.false_eq_true, if_false]
    rw [ih, List.getLast?_cons]
    cases es.getLast? with
    | none => rfl
    | some x => rfl

theorem indexOf_ne_nil (hne : es ≠ []) : indexOf es ≠ [] := by
  cases es with
  | nil => exact absurd rfl hne
  | cons e es => exact List.cons_ne_nil _ _

theorem mem_indexOf {ie : SstIndexEntry} (h : ie ∈ indexOf es) :
    ∃ m e, es[m]? = some e ∧ ie = ⟨e.key, (dataBlock (es.take m)).length⟩ := by
  obtain ⟨entry, hentry, rfl⟩ := List.mem_map.mp h
  obtain ⟨m, e, hm, hkey, hoff⟩ := mem_sparseIndex hentry
  rw [Nat.zero_add] at hoff
  exact ⟨m, e, hm, by rw [hkey, hoff]⟩

/-- The first index entry is that of the first record. -/
theorem head_of_prefix {e : KvEntry} {index : List SstIndexEntry}
    (hpre : index <+: indexOf (e :: es)) (hne : index ≠ []) : index.head? = some ⟨e.key, 0⟩ := by
  cases index with
  | nil => exact absurd rfl hne
  | cons ie index =>
    have hhead : ie = ⟨e.key, 0⟩ := (List.cons_prefix_cons.mp hpre).1
    rw [hhead]
    rfl

/-- The bounds do not depend on how much of the index is there, as long as some of it is. -/
theorem findBounds_writeSSTable (h : Sized es) (seq : Nat) {index : List SstIndexEntry}
    (hpre : index <+: indexOf es) (hne : es ≠ [] → index ≠ []) :
    findBounds { seq := seq, file := writeSSTable es, index := index } (dataBlock es).length =
      .ok { tableOf seq es with index := index } := by
  cases es with
  | nil =>
    obtain rfl := List.prefix_nil.mp hpre
    rfl
  | cons e es =>
    have hne := hne (List.cons_ne_nil _ _)
    obtain ⟨last, hlast⟩ : ∃ last, index.getLast? = some last := by
      rw [← Option.isSome_iff_exists, List.getLast?_isSome]
      exact hne
    obtain ⟨m, x, hm, rfl⟩ := mem_indexOf (hpre.subset (List.mem_of_getLast? hlast))
    have hmax : ((e :: es).drop m).getLast? = (e :: es).getLast? := by
      rw [List.getLast?_drop, if_neg]
      exact Nat.not_le.mpr (List.getElem?_eq_some_iff.mp hm).1
    rw [findBounds, head_of_prefix hpre hne, hlast]
    simp only
    rw [scanBlock_writeSSTable h m]
    simp only [tableOf, scanList_lastKey, hmax, List.head?_cons, Option.map_some, Option.getD_some]

theorem sparseIndex_fits (h : Sized es) {ie : Bytes × Nat} (hie : ie ∈ sparseIndex 0 0 es) :
    ie.1.length < 2 ^ 32 ∧ ie.2 < 2 ^ 63 := by
  obtain ⟨m, e, hm, hkey, hoff⟩ := mem_sparseIndex hie
  refine ⟨by rw [hkey]; exact (h.entry e (List.mem_of_getElem? hm)).1, ?_⟩
  have hsplit : dataBlock es = dataBlock (es.take m) ++ dataBlock (es.drop m) := by
    rw [← dataBlock_append, List.take_append_drop]
  have hdata := h.data
  rw [hsplit, List.length_append] at hdata
  omega

/-- Opening reads as many index entries as the 32 bits of the count say. -/
theorem openSSTable_count (h : Sized es) (seq : Nat) : openSSTable seq (writeSSTable es) =
    findBounds { seq := seq, file := writeSSTable es,
                 index := (indexOf es).take ((sparseIndex 0 0 es).length % 2 ^ 32) }
      (dataBlock es).length := by
  have hlong : ¬(writeSSTable es).length < 24 := by
    rw [writeSSTable, List.length_append, length_footer]
    omega
  obtain ⟨hfoff, hfcount, hfcrc, hfmagic⟩ := footer_fields (dataBlock es).length
    (sparseIndex 0 0 es).length (checksumIEEE ((sparseIndex 0 0 es).flatMap indexRecord))
  have hread := readIndex_take (Nat.mod_le (sparseIndex 0 0 es).length (2 ^ 32))
    fun ie hie => sparseIndex_fits h hie
  rw [openSSTable, if_neg hlong]
  simp only [writeSSTable_footer, hfoff, toInt64_ofNat h.data, hfcount, hfcrc, hfmagic,
    UInt32.toNat_ofNat', readIndexBlock_writeSSTable, ne_eq, not_true_eq_false, if_false, hread,
    indexOf, List.map_take]

theorem openSSTable_writeSSTable (h : Fits es) (seq : Nat) :
    openSSTable seq (writeSSTable es) = .ok (tableOf seq es) := by
  have hlength : (indexOf es).length = (sparseIndex 0 0 es).length := List.length_map _
  rw [openSSTable_count h.sized, Nat.mod_eq_of_lt h.index, ← hlength, List.take_length]
  exact findBounds_writeSSTable h.sized seq (List.prefix_refl _) indexOf_ne_nil

/-! ## Lookups -/

theorem scanList_lookFor (hes : Increasing KvEntry.key es) (key lastKey : Bytes) :
    (scanList (SSTable.lookFor key) es lastKey none).2 = find KvEntry.key key es := by
  induction es generalizing lastKey with
  | nil => rfl
  | cons e es ih =>
    obtain ⟨-, hes⟩ := List.pairwise_cons.mp hes
    rw [scanList, SSTable.lookFor, find]
    rcases lt_trichotomy e.key key with hlt | heq | hgt
    · simp only [if_neg (ne_of_lt hlt), if_pos hlt, decide_eq_false (not_lt_of_gt hlt),
        Bool.false_eq_true, if_false]
      exact ih hes _
    · simp only [heq, lt_irrefl, if_true, if_false]
    · simp only [if_neg (ne_of_gt hgt), if_neg (not_lt_of_gt hgt), decide_eq_true hgt, if_true]

theorem scanList_collect (es out : List KvEntry) (lastKey : Bytes) :
    (scanList (fun out e => (out ++ [e], false)) es lastKey out).2 = out ++ es := by
  induction es generalizing out lastKey with
  | nil => exact (List.append_nil out).symm
  | cons e es ih =>
    rw [scanList]
    simp only [Bool.false_eq_true, if_false]
    rw [ih, List.append_assoc]
    rfl

/-- A table over the file of `es`, with some of the index, and with any if there are entries. -/
structure Reads (t : SSTable) (es : List KvEntry) : Prop where
  file : t.file = writeSSTable es
  index : t.index <+: indexOf es
  filled : es ≠ [] → t.index ≠ []
  minKey : t.minKey = (es.head?.map KvEntry.key).getD []
  maxKey : t.maxKey = (es.getLast?.map KvEntry.key).getD []

theorem reads_tableOf (seq : Nat) (es : List KvEntry) : Reads (tableOf seq es) es :=
  ⟨rfl, List.prefix_refl _, indexOf_ne_nil, rfl, rfl⟩

/-- **A table that was written can be opened and read**, unless the count has wrapped around to
    zero. -/
theorem openSSTable_reads (h : Sized es) (seq : Nat)
    (hcount : (sparseIndex 0 0 es).length % 2 ^ 32 = 0 → es = []) :
    ∃ t, openSSTable seq (writeSSTable es) = .ok t ∧ Reads t es := by
  have hfilled : es ≠ [] → (indexOf es).take ((sparseIndex 0 0 es).length % 2 ^ 32) ≠ [] := by
    intro hne hnil
    rcases List.take_eq_nil_iff.mp hnil with hzero | hempty
    · exact hne (hcount hzero)
    · exact indexOf_ne_nil hne hempty
  rw [openSSTable_count h, findBounds_writeSSTable h seq (List.take_prefix _ _) hfilled]
  exact ⟨_, rfl, rfl, List.take_prefix _ _, hfilled, rfl, rfl⟩

namespace Reads

variable {t : SSTable}

theorem limit (hr : Reads t es) (h : Sized es) : t.indexLimit = (dataBlock es).length := by
  rw [SSTable.indexLimit, hr.file, writeSSTable_limit h]

theorem all (hr : Reads t es) (h : Sized es) : t.all = .ok es := by
  have hscan := scanBlock_writeSSTable h 0 (fun out e => (out ++ [e], false)) []
  rw [List.take_zero, List.drop_zero] at hscan
  have hscan' : scanBlock (writeSSTable es) 0 (dataBlock es).length
      (fun out e => (out ++ [e], false)) [] = _ := hscan
  rw [SSTable.all, hr.limit h, hr.file, hscan', Except.map, scanList_collect, List.nil_append]

/-- Outside its bounds a table has nothing. -/
theorem find_outside (hr : Reads t es) (hes : Increasing KvEntry.key es) {key : Bytes}
    (h : t.index.length = 0 ∨ key < t.minKey ∨ t.maxKey < key) : find KvEntry.key key es = none := by
  rw [SortedRun.find_eq_none hes]
  intro e he hkey
  cases es with
  | nil => cases he
  | cons first rest =>
    rcases h with hempty | hlow | hhigh
    · exact hr.filled (List.cons_ne_nil _ _) (List.length_eq_zero_iff.mp hempty)
    · have hmin : t.minKey = first.key := hr.minKey
      rw [hmin, ← hkey] at hlow
      rcases List.mem_cons.mp he with rfl | he
      · exact lt_irrefl _ hlow
      · exact lt_asymm hlow ((List.pairwise_cons.mp hes).1 e he)
    · obtain ⟨last, hlast⟩ : ∃ last, (first :: rest).getLast? = some last := by
        rw [← Option.isSome_iff_exists, List.getLast?_isSome]
        exact List.cons_ne_nil _ _
      have hmax : t.maxKey = last.key := by
        rw [hr.maxKey, hlast]
        rfl
      rw [hmax, ← hkey] at hhigh
      obtain ⟨front, hfront⟩ := List.getLast?_eq_some_iff.mp hlast
      rw [hfront] at he hes
      rcases List.mem_append.mp he with he | he
      · exact lt_asymm hhigh ((List.pairwise_append.mp hes).2.2 e he last List.mem_cons_self)
      · rw [List.mem_singleton.mp he] at hhigh
        exact lt_irrefl _ hhigh

theorem index_sorted (hr : Reads t es) (hes : Increasing KvEntry.key es) :
    t.index.Pairwise fun a b => a.key < b.key := by
  have hkeys : ((sparseIndex 0 0 es).map Prod.fst).Pairwise (· < ·) :=
    (List.pairwise_map.mpr hes).sublist (sparseIndex_sublist 0 0 es)
  have hindex : (indexOf es).Pairwise fun a b => a.key < b.key :=
    List.pairwise_map.mpr (List.pairwise_map.mp hkeys)
  exact hindex.sublist hr.index.sublist

theorem indexAbove_upward (hr : Reads t es) (hes : Increasing KvEntry.key es) (key : Bytes) :
    Search.Upward (t.indexAbove key) := by
  intro a b hab ha
  rcases Nat.eq_or_lt_of_le hab with rfl | hlt
  · exact ha
  rw [SSTable.indexAbove] at ha ⊢
  cases hb : t.index[b]? with
  | none => rfl
  | some high =>
    have hlen := (List.getElem?_eq_some_iff.mp hb).1
    obtain ⟨low, hlow⟩ : ∃ low, t.index[a]? = some low :=
      ⟨_, List.getElem?_eq_getElem (Nat.lt_trans hlt hlen)⟩
    have hkeys : low.key < high.key := by
      obtain ⟨ha', rfl⟩ := List.getElem?_eq_some_iff.mp hlow
      obtain ⟨hb', rfl⟩ := List.getElem?_eq_some_iff.mp hb
      exact List.pairwise_iff_getElem.mp (hr.index_sorted hes) a b ha' hb' hlt
    rw [hlow, Option.all_some, decide_eq_true_eq] at ha
    rw [Option.all_some, decide_eq_true_eq]
    exact lt_trans ha hkeys

/-- The search finds the block to scan: it starts at a key that is not above the target. -/
theorem search_index (hr : Reads t es) (hes : Increasing KvEntry.key es) {key : Bytes} {i : Nat}
    (h : Search.search t.index.length (t.indexAbove key) = i + 1) :
    ∃ m e, es[m]? = some e ∧ e.key ≤ key ∧
      t.index[i]? = some ⟨e.key, (dataBlock (es.take m)).length⟩ := by
  have hle := Search.search_le t.index.length (t.indexAbove key)
  obtain ⟨hbelow, -⟩ := Search.search_spec (hr.indexAbove_upward hes key) _
  rw [h] at hle hbelow
  obtain ⟨ie, hie⟩ : ∃ ie, t.index[i]? = some ie := ⟨_, List.getElem?_eq_getElem hle⟩
  have hkey := hbelow i (Nat.lt_succ_self i)
  rw [SSTable.indexAbove, hie, Option.all_some, decide_eq_false_iff_not, not_lt] at hkey
  obtain ⟨m, e, hm, rfl⟩ := mem_indexOf (hr.index.subset (List.mem_of_getElem? hie))
  exact ⟨m, e, hm, hkey, hie⟩

/-- A key that is in bounds is not below the whole index. -/
theorem search_index_pos (hr : Reads t es) (hes : Increasing KvEntry.key es) {key : Bytes}
    (hmin : ¬key < t.minKey) (hne : t.index.length ≠ 0) :
    Search.search t.index.length (t.indexAbove key) ≠ 0 := by
  intro hzero
  obtain ⟨-, hat⟩ := Search.search_spec (hr.indexAbove_upward hes key) t.index.length
  rw [hzero] at hat
  have habove := hat (Nat.pos_of_ne_zero hne)
  have hindex : t.index ≠ [] := fun hnil => hne (List.length_eq_zero_iff.mpr hnil)
  cases es with
  | nil => exact hindex (List.prefix_nil.mp hr.index)
  | cons e es =>
    have hfirst := head_of_prefix hr.index hindex
    rw [List.head?_eq_getElem?] at hfirst
    rw [SSTable.indexAbove, hfirst, Option.all_some, decide_eq_true_eq] at habove
    rw [hr.minKey] at hmin
    exact hmin habove

/-- **A table answers as the list it was written from.** -/
theorem get (hr : Reads t es) (h : Sized es) (hes : Increasing KvEntry.key es) (key : Bytes) :
    t.get key = .ok (find KvEntry.key key es) := by
  rw [SSTable.get]
  split
  · next hout => rw [hr.find_outside hes hout]
  next hin =>
  simp only [not_or] at hin
  split
  · next hzero => exact absurd hzero (hr.search_index_pos hes hin.2.1 hin.1)
  · next i hi =>
    obtain ⟨m, e, hm, hle, hindex⟩ := hr.search_index hes hi
    have hscan := scanBlock_writeSSTable h m (SSTable.lookFor key) none
    rw [hindex]
    simp only
    rw [hr.limit h, hr.file, hscan, Except.map,
      scanList_lookFor (hes.sublist (List.drop_sublist m es)), SortedRun.find_drop hes hm hle]

end Reads

theorem all_tableOf (h : Fits es) (seq : Nat) : (tableOf seq es).all = .ok es :=
  (reads_tableOf seq es).all h.sized

theorem get_tableOf (h : Fits es) (hes : Increasing KvEntry.key es) (seq : Nat) (key : Bytes) :
    (tableOf seq es).get key = .ok (find KvEntry.key key es) :=
  (reads_tableOf seq es).get h.sized hes key

end Table

end Storage
end DistKV
