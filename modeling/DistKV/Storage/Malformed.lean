import DistKV.Storage.TableFrames

/-!
# Files that no writer made

`openSSTable` looks at the size of a file, at the magic number and at the checksum of the index. The
other fields of the footer are taken on trust: an index offset behind the footer is the length of a
negative allocation and one far below zero that of an allocation no machine has room for, a count that
is too large runs over the end of the index block, and an offset of the index that is close to the
lowest `int64` overflows in the section reader. Each of these ends the process where the code means to
return an error.

`openSSTable_safe_iff` says of which files this is true, and `Scan` that the scanning loop ends on all
of them. The footer alone is enough for a failure (`openSSTable_footer_only`).
-/

namespace DistKV
namespace Storage

/-! ## What is asked of a file -/

/-- The call ends in a panic of the source, or in the death of the process in `make`. -/
def Panics {α : Type} (r : Except TableError α) : Prop :=
  r = .error .makeslice ∨ r = .error .sliceBounds

/-- The loop of `scanBlock`, without a bound on its rounds: what it returns if it ends. -/
inductive Scan {σ : Type} (fn : σ → KvEntry → σ × Bool) :
    Bytes → Bytes → σ → Except TableError (Bytes × σ) → Prop
  | ended {r lastKey : Bytes} {s : σ} (h : readRecord r = .ok none) :
      Scan fn r lastKey s (.ok (lastKey, s))
  | failed {r lastKey : Bytes} {s : σ} {e : TableError} (h : readRecord r = .error e) :
      Scan fn r lastKey s (.error e)
  | stopped {r rest lastKey : Bytes} {s : σ} {e : KvEntry} (h : readRecord r = .ok (some (e, rest)))
      (hstop : (fn s e).2 = true) : Scan fn r lastKey s (.ok (e.key, (fn s e).1))
  | next {r rest lastKey : Bytes} {s : σ} {e : KvEntry} {out : Except TableError (Bytes × σ)}
      (h : readRecord r = .ok (some (e, rest))) (hgo : (fn s e).2 = false)
      (hrest : Scan fn rest e.key (fn s e).1 out) : Scan fn r lastKey s out

/-- The file is opened or turned down, and what is opened can be used, all without a panic and in
    finitely many rounds. -/
structure Safe (memory seq : Nat) (file : Bytes) : Prop where
  opens : ¬Panics (openSSTable seq file memory)
  get : ∀ t, openSSTable seq file memory = .ok t → ∀ key, ¬Panics (t.get key)
  all : ∀ t, openSSTable seq file memory = .ok t → ¬Panics t.all
  ends : ∀ {σ : Type} (fn : σ → KvEntry → σ × Bool) (s : σ) (off limit : Int), limit - off < 2 ^ 63 →
    Scan fn (sectionOf file off limit) [] s (scanBlock file off limit fn s)

/-! ## What the file says -/

def indexOffset (file : Bytes) : Int := toInt64 (getUint64 (footerOf file))

def indexCount (file : Bytes) : Nat := (getUint32 ((footerOf file).drop 8)).toNat

def indexCRC (file : Bytes) : UInt32 := getUint32 ((footerOf file).drop 12)

def magic (file : Bytes) : UInt64 := getUint64 ((footerOf file).drop 16)

/-- What stands between the offset of the index and the footer. -/
def indexBlock (file : Bytes) : Bytes :=
  (file.drop (indexOffset file).toNat).take ((file.length : Int) - 24 - indexOffset file).toNat

/-- The distance from an index entry's record to the index can be computed. -/
def Near (file : Bytes) (ie : SstIndexEntry) : Prop := indexOffset file - ie.offset < 2 ^ 63

/-- The section from the last index entry on has nothing but records and at most the start of a
    header, and `key` is its last key. -/
def LastKey (file : Bytes) (last : SstIndexEntry) (key : Bytes) : Prop :=
  ∃ records tail, sectionOf file last.offset (indexOffset file) =
      RawRecord.framing.encodeAll records ++ tail ∧
    (∀ p ∈ records, RawRecord.framing.fits p) ∧ tail.length < 9 ∧
    key = (records.getLast?.map RawRecord.key).getD []

/-- A lookup of the key starts at this entry of the index. -/
structure Reaches (file : Bytes) (index : List SstIndexEntry) (key : Bytes) (ie : SstIndexEntry) :
    Prop where
  low : ∃ first, index.head? = some first ∧ first.key ≤ key
  high : ∃ last, index.getLast? = some last ∧ ∃ maxKey, LastKey file last maxKey ∧ key ≤ maxKey
  found : ∃ i, index[i]? = some ie ∧
    Search.search index.length (fun j => (index[j]?).all fun x => decide (key < x.key)) = i + 1

/-- What the checks of the code leave open: what is turned down by one of them, and what needs none. -/
inductive Sound (memory : Nat) (file : Bytes) : Prop
  | short (h : file.length < 24)
  | otherMagic (h : magic file ≠ sstMagic)
  | negative (h : indexOffset file < 0) (hroom : (file.length : Int) - 24 - indexOffset file ≤ memory)
  | checksum (h : 0 ≤ indexOffset file) (hroom : indexOffset file ≤ (file.length : Int) - 24)
      (hcrc : checksumIEEE (indexBlock file) ≠ indexCRC file)
  | index (records : List RawIndexEntry) (h : 0 ≤ indexOffset file)
      (hroom : indexOffset file ≤ (file.length : Int) - 24)
      (hcount : records.length = indexCount file) (hfits : ∀ p ∈ records, p.key.length < 2 ^ 32)
      (hblock : RawIndexEntry.framing.encodeAll records <+: indexBlock file)
      (hlast : ∀ last, (records.map RawIndexEntry.entry).getLast? = some last → Near file last)
      (hnear : ∀ key ie, Reaches file (records.map RawIndexEntry.entry) key ie → Near file ie)

/-! ## Calls that do not panic -/

theorem not_panics_ok {α : Type} (a : α) : ¬Panics (.ok a : Except TableError α) := by
  rintro (h | h)
  · cases h
  · cases h

theorem panics_error {α : Type} {e : TableError} :
    Panics (.error e : Except TableError α) ↔ e = .makeslice ∨ e = .sliceBounds := by
  simp only [Panics, Except.error.injEq]

theorem panics_map {α β : Type} {f : α → β} {r : Except TableError α} :
    Panics (r.map f) ↔ Panics r := by
  cases r with
  | error e => rw [Except.map, panics_error, panics_error]
  | ok a => exact ⟨fun h => absurd h (not_panics_ok _), fun h => absurd h (not_panics_ok _)⟩

/-! ## The scan -/

theorem readRecord_error {r : Bytes} {e : TableError} (h : readRecord r = .error e) :
    e = .unexpectedEOF := by
  rw [readRecord_eq] at h
  split at h
  · cases h
  · cases hread : RawRecord.read r with
    | none =>
      rw [hread] at h
      cases h
      rfl
    | some q =>
      rw [hread] at h
      cases h

/-- A record takes something off the section. -/
theorem length_of_readRecord {r rest : Bytes} {e : KvEntry}
    (h : readRecord r = .ok (some (e, rest))) : rest.length < r.length := by
  rw [readRecord_eq] at h
  split at h
  · cases h
  · cases hread : RawRecord.read r with
    | none =>
      rw [hread] at h
      cases h
    | some q =>
      rw [hread] at h
      cases h
      rw [(RawRecord.bytes_of_read hread).2, List.length_append]
      have hpos := List.length_pos_iff.mpr (RawRecord.framing.encode_ne_nil q.1)
      exact Nat.lt_add_of_pos_left hpos

section Loop

variable {σ : Type} {fn : σ → KvEntry → σ × Bool}

/-- As many rounds as there are bytes are enough. -/
theorem scanLoop_ends {fuel : Nat} {r : Bytes} (hfuel : r.length ≤ fuel) (lastKey : Bytes) (s : σ) :
    Scan fn r lastKey s (scanLoop fn fuel r lastKey s) := by
  induction fuel generalizing r lastKey s with
  | zero =>
    obtain rfl := List.length_eq_zero_iff.mp (Nat.le_zero.mp hfuel)
    exact .ended rfl
  | succ fuel ih =>
    rw [scanLoop]
    cases hread : readRecord r with
    | error e => exact .failed hread
    | ok found =>
      cases found with
      | none => exact .ended hread
      | some q =>
        obtain ⟨e, rest⟩ := q
        have hrest : rest.length ≤ fuel := by
          have hlt := length_of_readRecord hread
          omega
        simp only
        split
        · next hstop => exact .stopped hread hstop
        · next hgo => exact .next hread (Bool.not_eq_true _ ▸ hgo) (ih hrest _ _)

/-- In the loop only the end of the file can come too soon. -/
theorem Scan.not_panics {r lastKey : Bytes} {s : σ} {out : Except TableError (Bytes × σ)}
    (h : Scan fn r lastKey s out) : ¬Panics out := by
  induction h with
  | ended h => exact not_panics_ok _
  | failed h =>
    rw [readRecord_error h, panics_error]
    rintro (h | h)
    · cases h
    · cases h
  | stopped h hstop => exact not_panics_ok _
  | next h hgo hrest ih => exact ih

theorem scanBlock_ends {file : Bytes} {off limit : Int} (h : limit - off < 2 ^ 63) (s : σ) :
    Scan fn (sectionOf file off limit) [] s (scanBlock file off limit fn s) := by
  rw [scanBlock, if_neg (by omega)]
  exact scanLoop_ends (Nat.le_refl _) [] s

theorem scanBlock_panics {file : Bytes} {off limit : Int} {s : σ} :
    Panics (scanBlock file off limit fn s) ↔ ¬limit - off < 2 ^ 63 := by
  constructor
  · intro hpanic hnear
    exact (scanBlock_ends hnear s).not_panics hpanic
  · intro hfar
    rw [scanBlock, if_pos (by omega), panics_error]
    exact Or.inr rfl

end Loop

/-- A scan that stops at no record sees all of them, and fails if there is more than a header
    behind the last one. -/
theorem scanLoop_records {records : List RawRecord}
    (h : ∀ p ∈ records, RawRecord.framing.fits p) {tail : Bytes}
    (htail : RawRecord.framing.decode tail = none) {fuel : Nat}
    (hfuel : records.length + tail.length ≤ fuel) (lastKey : Bytes) :
    scanLoop (fun (_ : Unit) _ => ((), false)) fuel (RawRecord.framing.encodeAll records ++ tail)
        lastKey () =
      if tail.length < 9 then .ok ((records.getLast?.map RawRecord.key).getD lastKey, ())
      else .error .unexpectedEOF := by
  have htail : RawRecord.read tail = none := htail
  induction records generalizing fuel lastKey with
  | nil =>
    rw [Framing.encodeAll_nil, List.nil_append]
    cases fuel with
    | zero =>
      rw [if_pos (by omega)]
      rfl
    | succ fuel =>
      rw [scanLoop, readRecord_eq, htail]
      by_cases hshort : tail.length < 9
      · rw [if_pos hshort, if_pos hshort]
        rfl
      · rw [if_neg hshort, if_neg hshort]
        rfl
  | cons p records ih =>
    obtain ⟨hp, hrecords⟩ := List.forall_mem_cons.mp h
    have hread : ∀ r, readRecord (p.bytes ++ r) = .ok (some (p.entry, r)) := by
      intro r
      have hlong : ¬(p.bytes ++ r).length < 9 := by
        rw [RawRecord.bytes, List.cons_append, List.length_cons]
        simp only [List.length_append, length_putUint32]
        omega
      rw [readRecord_eq, if_neg hlong, RawRecord.read_bytes hp.1 hp.2, Option.elim_some]
    cases fuel with
    | zero =>
      rw [List.length_cons] at hfuel
      omega
    | succ fuel =>
      have hfuel : records.length + tail.length ≤ fuel := by
        rw [List.length_cons] at hfuel
        omega
      have hbytes : RawRecord.framing.encode p = p.bytes := rfl
      rw [Framing.encodeAll_cons, List.append_assoc, hbytes, scanLoop, hread]
      simp only [Bool.false_eq_true, if_false]
      rw [ih hrecords hfuel, List.getLast?_cons]
      cases records.getLast? with
      | none => rfl
      | some last => rfl

/-- A header that is cut short is no record. -/
theorem read_eq_none_of_short {tail : Bytes} (h : tail.length < 9) :
    RawRecord.framing.decode tail = none := if_pos h

/-- The last key of a section, if it has one that the scan can find. -/
theorem scanBlock_lastKey {file : Bytes} {last : SstIndexEntry} (hnear : Near file last)
    {key : Bytes} :
    scanBlock file last.offset (indexOffset file) (fun (_ : Unit) _ => ((), false)) () =
        .ok (key, ()) ↔
      LastKey file last key := by
  have hscan : ∀ records tail, sectionOf file last.offset (indexOffset file) =
      RawRecord.framing.encodeAll records ++ tail →
      (∀ p ∈ records, RawRecord.framing.fits p) → RawRecord.framing.decode tail = none →
      scanBlock file last.offset (indexOffset file) (fun (_ : Unit) _ => ((), false)) () =
        if tail.length < 9 then .ok ((records.getLast?.map RawRecord.key).getD [], ())
        else .error .unexpectedEOF := by
    intro records tail hsection hfits htail
    have hfuel : records.length + tail.length ≤
        (RawRecord.framing.encodeAll records ++ tail).length := by
      rw [List.length_append]
      exact Nat.add_le_add_right (Framing.length_le_encodeAll records) _
    rw [scanBlock, if_neg (Int.not_le.mpr hnear)]
    simp only [hsection]
    exact scanLoop_records hfits htail hfuel []
  constructor
  · intro h
    obtain ⟨records, tail, hfits, hsection, htail⟩ :=
      Framing.exists_split (F := RawRecord.framing) (sectionOf file last.offset (indexOffset file))
    rw [hscan records tail hsection hfits htail] at h
    split at h
    · next hshort =>
      cases h
      exact ⟨records, tail, hsection, hfits, hshort, rfl⟩
    · cases h
  · rintro ⟨records, tail, hsection, hfits, hshort, rfl⟩
    rw [hscan records tail hsection hfits (read_eq_none_of_short hshort), if_pos hshort]

/-! ## Opening -/

theorem toInt64_lt (v : UInt64) : toInt64 v < 2 ^ 63 := by
  have hv := v.toNat_lt
  rw [toInt64]
  split
  · omega
  · omega

section Open

variable {memory seq : Nat} {file : Bytes}

/-- An index block that is in the file is read as it is. -/
theorem readIndexBlock_inside (h : 0 ≤ indexOffset file)
    (hroom : indexOffset file ≤ (file.length : Int) - 24) :
    readIndexBlock memory file (indexOffset file) = .ok (indexBlock file) := by
  rw [readIndexBlock, if_neg (by omega), if_neg (by omega)]
  rfl

theorem openSSTable_otherMagic (hlong : ¬file.length < 24) (hmagic : magic file ≠ sstMagic) :
    openSSTable seq file memory = .error .badMagic := by
  rw [openSSTable, if_neg hlong]
  exact if_pos hmagic

/-- An index block that cannot be read is the end. -/
theorem openSSTable_noBlock (hlong : ¬file.length < 24) (hmagic : magic file = sstMagic)
    {e : TableError} (h : readIndexBlock memory file (indexOffset file) = .error e) :
    openSSTable seq file memory = .error e := by
  have hmagic : ¬getUint64 ((footerOf file).drop 16) ≠ sstMagic := not_not.mpr hmagic
  have hblock : readIndexBlock memory file (toInt64 (getUint64 (footerOf file))) = .error e := h
  rw [openSSTable, if_neg hlong, if_neg hmagic]
  simp only [hblock]

/-- With the right checksum the block starts with as many entries as are counted, or the loop runs
    over its end. -/
theorem openSSTable_index (memory seq : Nat) (hlong : ¬file.length < 24)
    (hmagic : magic file = sstMagic) (h : 0 ≤ indexOffset file) (hroom : indexOffset file ≤ (file.length : Int) - 24) :
    openSSTable seq file memory =
      if checksumIEEE (indexBlock file) ≠ indexCRC file then .error .checksumMismatch
      else
        (RawIndexEntry.framing.decodeN (indexCount file) (indexBlock file)).elim
          (.error .sliceBounds) fun q =>
            findBounds { seq := seq, file := file, index := q.1.map RawIndexEntry.entry }
              (indexOffset file) := by
  have hmagic : ¬getUint64 ((footerOf file).drop 16) ≠ sstMagic := not_not.mpr hmagic
  have hblock : readIndexBlock memory file (toInt64 (getUint64 (footerOf file))) =
      .ok (indexBlock file) := readIndexBlock_inside h hroom
  rw [openSSTable, if_neg hlong, if_neg hmagic]
  simp only [hblock, readIndex_eq]
  by_cases hcrc : checksumIEEE (indexBlock file) ≠ indexCRC file
  · rw [if_pos hcrc]
    exact if_pos hcrc
  · rw [if_neg hcrc]
    refine (if_neg hcrc).trans ?_
    rw [← indexCount]
    cases RawIndexEntry.framing.decodeN (indexCount file) (indexBlock file) with
    | none => rfl
    | some q => rfl

/-! ## A table with this index -/

variable {index : List SstIndexEntry}

theorem findBounds_panics :
    ¬Panics (findBounds { seq := seq, file := file, index := index } (indexOffset file)) ↔
      ∀ last, index.getLast? = some last → Near file last := by
  cases index with
  | nil => exact ⟨fun _ last hlast => by simp at hlast, fun _ => not_panics_ok _⟩
  | cons first rest =>
    obtain ⟨last, hlast⟩ : ∃ last, (first :: rest).getLast? = some last := by
      rw [← Option.isSome_iff_exists, List.getLast?_isSome]
      exact List.cons_ne_nil _ _
    have hscan : Panics (findBounds { seq := seq, file := file, index := first :: rest }
        (indexOffset file)) ↔ Panics (scanBlock file last.offset (indexOffset file)
          (fun (_ : Unit) _ => ((), false)) ()) := by
      rw [findBounds]
      simp only [List.head?_cons, hlast]
      cases scanBlock file last.offset (indexOffset file) (fun (_ : Unit) _ => ((), false)) () with
      | error e => simp only [panics_error]
      | ok r => exact ⟨fun h => absurd h (not_panics_ok _), fun h => absurd h (not_panics_ok _)⟩
    rw [hscan, scanBlock_panics, not_not]
    constructor
    · intro hnear last' hlast'
      rw [hlast] at hlast'
      cases hlast'
      exact hnear
    · intro hnear
      exact hnear last hlast

/-- The table that is opened: its bounds are the first key of the index and the last key that a scan
    from the last entry finds. -/
theorem findBounds_ok {t : SSTable}
    (h : findBounds { seq := seq, file := file, index := index } (indexOffset file) = .ok t) :
    t.file = file ∧ t.index = index ∧ ∀ first last, index.head? = some first →
      index.getLast? = some last → t.minKey = first.key ∧ LastKey file last t.maxKey := by
  rw [findBounds] at h
  cases hfirst : index.head? with
  | none =>
    rw [hfirst] at h
    cases h
    exact ⟨rfl, rfl, fun first last h => by cases h⟩
  | some first =>
    cases hlast : index.getLast? with
    | none =>
      rw [hfirst, hlast] at h
      cases h
      exact ⟨rfl, rfl, fun first last _ h => by cases h⟩
    | some last =>
      rw [hfirst, hlast] at h
      simp only at h
      cases hscan : scanBlock file last.offset (indexOffset file)
          (fun (_ : Unit) _ => ((), false)) () with
      | error e =>
        rw [hscan] at h
        cases h
      | ok r =>
        rw [hscan] at h
        cases h
        have hnear : Near file last := by
          by_contra hfar
          have hpanic : Panics (scanBlock file last.offset (indexOffset file)
              (fun (_ : Unit) _ => ((), false)) ()) := scanBlock_panics.mpr hfar
          rw [hscan] at hpanic
          exact not_panics_ok _ hpanic
        refine ⟨rfl, rfl, fun first' last' hfirst' hlast' => ?_⟩
        cases hfirst'
        cases hlast'
        exact ⟨rfl, (scanBlock_lastKey hnear).mp hscan⟩

/-- A section has one last key. -/
theorem LastKey.unique {last : SstIndexEntry} (hnear : Near file last) {a b : Bytes}
    (ha : LastKey file last a) (hb : LastKey file last b) : a = b := by
  have ha := (scanBlock_lastKey hnear).mpr ha
  have hb := (scanBlock_lastKey hnear).mpr hb
  rw [ha] at hb
  cases hb
  rfl

/-- A key within the bounds is one between the first key of the index and the last one of the data. -/
theorem inside_iff {t : SSTable}
    (h : findBounds { seq := seq, file := file, index := index } (indexOffset file) = .ok t)
    (key : Bytes) :
    ¬(t.index.length = 0 ∨ key < t.minKey ∨ t.maxKey < key) ↔
      (∃ first, index.head? = some first ∧ first.key ≤ key) ∧
      ∃ last, index.getLast? = some last ∧ ∃ maxKey, LastKey file last maxKey ∧ key ≤ maxKey := by
  obtain ⟨-, hindex, hbounds⟩ := findBounds_ok h
  have hcalm : ¬Panics (findBounds { seq := seq, file := file, index := index }
      (indexOffset file)) := by
    rw [h]
    exact not_panics_ok _
  rw [hindex]
  simp only [not_or, not_lt]
  constructor
  · rintro ⟨hne, hlow, hhigh⟩
    have hne : index ≠ [] := fun hnil => hne (List.length_eq_zero_iff.mpr hnil)
    obtain ⟨first, hfirst⟩ : ∃ first, index.head? = some first := by
      rw [← Option.isSome_iff_exists, List.isSome_head?]
      exact hne
    obtain ⟨last, hlast⟩ : ∃ last, index.getLast? = some last := by
      rw [← Option.isSome_iff_exists, List.getLast?_isSome]
      exact hne
    obtain ⟨hmin, hmax⟩ := hbounds first last hfirst hlast
    exact ⟨⟨first, hfirst, hmin ▸ hlow⟩, last, hlast, t.maxKey, hmax, hhigh⟩
  · rintro ⟨⟨first, hfirst, hlow⟩, last, hlast, maxKey, hkey, hhigh⟩
    obtain ⟨hmin, hmax⟩ := hbounds first last hfirst hlast
    have hnear := findBounds_panics.mp hcalm last hlast
    refine ⟨fun hzero => ?_, hmin ▸ hlow, ?_⟩
    · rw [List.length_eq_zero_iff.mp hzero] at hfirst
      cases hfirst
    · rw [hmax.unique hnear hkey]
      exact hhigh

theorem get_panics {t : SSTable}
    (h : findBounds { seq := seq, file := file, index := index } (indexOffset file) = .ok t)
    (key : Bytes) : Panics (t.get key) ↔ ∃ ie, Reaches file index key ie ∧ ¬Near file ie := by
  obtain ⟨hfile, hindex, -⟩ := findBounds_ok h
  have hlimit : t.indexLimit = indexOffset file := by rw [SSTable.indexLimit, hfile, indexOffset]
  have habove : t.indexAbove key = fun j => (index[j]?).all fun x => decide (key < x.key) := by
    funext j
    rw [SSTable.indexAbove, hindex]
  have hinside := inside_iff h key
  rw [SSTable.get]
  by_cases hout : t.index.length = 0 ∨ key < t.minKey ∨ t.maxKey < key
  · rw [if_pos hout]
    refine ⟨fun hpanic => absurd hpanic (not_panics_ok _), ?_⟩
    rintro ⟨ie, hreach, -⟩
    exact absurd hout (hinside.mpr ⟨hreach.low, hreach.high⟩)
  · obtain ⟨hlow, hhigh⟩ := hinside.mp hout
    rw [if_neg hout, habove, hindex]
    cases hs : Search.search index.length
        (fun j => (index[j]?).all fun x => decide (key < x.key)) with
    | zero =>
      refine ⟨fun hpanic => absurd hpanic (not_panics_ok _), ?_⟩
      rintro ⟨ie, ⟨-, -, i, -, hi⟩, -⟩
      rw [hs] at hi
      cases hi
    | succ i =>
      cases hie : index[i]? with
      | none =>
        simp only [hie]
        refine ⟨fun hpanic => absurd hpanic (not_panics_ok _), ?_⟩
        rintro ⟨ie, ⟨-, -, j, hj, hi⟩, -⟩
        rw [hs] at hi
        cases hi
        rw [hie] at hj
        cases hj
      | some ie =>
        simp only [hie]
        rw [panics_map, scanBlock_panics, hlimit]
        constructor
        · intro hfar
          exact ⟨ie, ⟨hlow, hhigh, i, hie, hs⟩, hfar⟩
        · rintro ⟨ie', ⟨-, -, j, hj, hi⟩, hfar⟩
          rw [hs] at hi
          cases hi
          rw [hie] at hj
          cases hj
          exact hfar

theorem not_panics_all {t : SSTable} : ¬Panics t.all := by
  have hlimit : t.indexLimit - 0 < 2 ^ 63 := by
    rw [Int.sub_zero]
    exact toInt64_lt _
  rw [SSTable.all, panics_map, scanBlock_panics]
  exact not_not.mpr hlimit

/-- A file that is turned down asks for nothing more. -/
theorem Safe.of_error {e : TableError} (h : openSSTable seq file memory = .error e)
    (he : ¬(e = .makeslice ∨ e = .sliceBounds)) : Safe memory seq file := by
  have hnone : ∀ t, openSSTable seq file memory ≠ .ok t := by
    intro t ht
    rw [h] at ht
    cases ht
  refine ⟨?_, fun t ht => absurd ht (hnone t), fun t ht => absurd ht (hnone t), ?_⟩
  · rw [h, panics_error]
    exact he
  · intro σ fn s off limit hnear
    exact scanBlock_ends hnear s

theorem safe_of_sound (h : Sound memory file) : Safe memory seq file := by
  by_cases hlong : file.length < 24
  · exact .of_error (if_pos hlong) (by decide)
  by_cases hmagic : magic file = sstMagic
  case neg => exact .of_error (openSSTable_otherMagic hlong hmagic) (by decide)
  cases h with
  | short hshort => exact absurd hshort hlong
  | otherMagic hother => exact absurd hmagic hother
  | negative hneg hroom =>
    refine .of_error (openSSTable_noBlock hlong hmagic ?_) (e := .negativeOffset) (by decide)
    rw [readIndexBlock, if_neg (by omega), if_pos hneg, if_neg (by omega)]
  | checksum hpos hroom hcrc =>
    have hopen := openSSTable_index memory seq hlong hmagic hpos hroom
    rw [if_pos hcrc] at hopen
    exact .of_error hopen (by decide)
  | index records hpos hroom hcount hfits hblock hlast hnear =>
    have hopen := openSSTable_index memory seq hlong hmagic hpos hroom
    by_cases hcrc : checksumIEEE (indexBlock file) ≠ indexCRC file
    · rw [if_pos hcrc] at hopen
      exact .of_error hopen (by decide)
    obtain ⟨rest, hrest⟩ := hblock
    have hread := Framing.decodeN_eq_some.mpr ⟨hcount, hfits, hrest.symm⟩
    rw [if_neg hcrc, hread, Option.elim_some] at hopen
    refine ⟨?_, fun t ht key => ?_, fun t ht => not_panics_all, ?_⟩
    · rw [hopen]
      exact findBounds_panics.mpr hlast
    · rw [hopen] at ht
      rw [get_panics ht]
      rintro ⟨ie, hreach, hfar⟩
      exact hfar (hnear key ie hreach)
    · intro σ fn s off limit hnear
      exact scanBlock_ends hnear s

/-- What is read from a block with the right checksum is the index the footer speaks of. -/
theorem sound_of_index (hlong : ¬file.length < 24) (hmagic : magic file = sstMagic)
    (hpos : 0 ≤ indexOffset file) (hroom : indexOffset file ≤ (file.length : Int) - 24)
    (hcrc : ¬checksumIEEE (indexBlock file) ≠ indexCRC file) (hsafe : Safe memory seq file) :
    Sound memory file := by
  have hopen := openSSTable_index memory seq hlong hmagic hpos hroom
  rw [if_neg hcrc] at hopen
  cases hread : RawIndexEntry.framing.decodeN (indexCount file) (indexBlock file) with
  | none =>
    rw [hread] at hopen
    exact absurd (Or.inr hopen) hsafe.opens
  | some q =>
    rw [hread, Option.elim_some] at hopen
    obtain ⟨records, rest⟩ := q
    obtain ⟨hcount, hfits, hblock⟩ := Framing.decodeN_eq_some.mp hread
    have hcalm := hsafe.opens
    rw [hopen] at hcalm
    have hlast := findBounds_panics.mp hcalm
    refine .index records hpos hroom hcount hfits ⟨rest, hblock.symm⟩ hlast ?_
    intro key ie hreach
    by_contra hfar
    -- a lookup can start somewhere only if the bounds were found
    obtain ⟨last, hlastOf, maxKey, hmax, -⟩ := hreach.high
    obtain ⟨first, hfirst, -⟩ := hreach.low
    obtain ⟨t, ht⟩ : ∃ t, findBounds ⟨seq, file, records.map RawIndexEntry.entry, [], []⟩
        (indexOffset file) = .ok t := by
      rw [findBounds]
      simp only [hfirst, hlastOf, (scanBlock_lastKey (hlast last hlastOf)).mpr hmax]
      exact ⟨_, rfl⟩
    exact hsafe.get t (hopen.trans ht) key ((get_panics ht key).mpr ⟨ie, hreach, hfar⟩)

end Open

/-- **A file is handled without a panic exactly if a check turns it down or its index is what the
    footer says it is.** -/
theorem openSSTable_safe_iff (memory seq : Nat) (file : Bytes) :
    Safe memory seq file ↔ Sound memory file := by
  refine ⟨fun hsafe => ?_, safe_of_sound⟩
  by_cases hlong : file.length < 24
  · exact .short hlong
  by_cases hmagic : magic file = sstMagic
  case neg => exact .otherMagic hmagic
  -- the allocation of the index block
  have hroom : indexOffset file ≤ (file.length : Int) - 24 := by
    by_contra hbehind
    refine hsafe.opens (Or.inl (openSSTable_noBlock hlong hmagic ?_))
    rw [readIndexBlock, if_pos (by omega)]
  by_cases hneg : indexOffset file < 0
  · refine .negative hneg ?_
    by_contra hlarge
    refine hsafe.opens (Or.inl (openSSTable_noBlock hlong hmagic ?_))
    rw [readIndexBlock, if_neg (by omega), if_pos hneg, if_pos (by omega)]
  have hpos : 0 ≤ indexOffset file := by omega
  by_cases hcrc : checksumIEEE (indexBlock file) ≠ indexCRC file
  · exact .checksum hpos hroom hcrc
  · exact sound_of_index hlong hmagic hpos hroom hcrc hsafe

/-- A file that is nothing but a footer, with an index offset of 1. -/
def footerOnly : Bytes :=
  [1, 0, 0, 0, 0, 0, 0, 0] ++ [0, 0, 0, 0] ++ [0, 0, 0, 0] ++ putUint64 sstMagic

/-- The index block of `footerOnly` would have the length -1. -/
theorem openSSTable_footer_only :
    footerOnly.length = 24 ∧ ∀ memory, openSSTable 1 footerOnly memory = .error .makeslice ∧
      ¬Safe memory 1 footerOnly := by
  refine ⟨rfl, fun memory => ?_⟩
  have hopen : openSSTable 1 footerOnly memory = .error .makeslice := rfl
  exact ⟨hopen, fun hsafe => hsafe.opens (Or.inl hopen)⟩

end Storage
end DistKV
