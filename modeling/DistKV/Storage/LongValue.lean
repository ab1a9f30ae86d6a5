import DistKV.Storage.EngineRefines

/-!
# A value of four gigabytes

A record of a table has a length field of 32 bits for the value. The field of a value of `2 ^ 32` bytes
says zero, and what follows the key is read as further records. If the value is itself the bytes of a
record, the table is the same, byte for byte, as that of two entries (`writeSSTable_long`): one with
an empty value, and the one in the value. Their keys need not be in order. Then no lookup finds
either of them, but `SnapshotEntries`, which reads the table from front to end, has both
(`put_longValue`, `LongValue.snapshotEntries`).
-/

namespace DistKV
namespace Storage

/-- The entry whose record is the value. -/
def hiddenEntry (filler : Bytes) : KvEntry := ⟨[0], filler, false⟩

/-- The entries the table seems to have. -/
def apparentEntries (filler : Bytes) : List KvEntry := [⟨[1], [], false⟩, hiddenEntry filler]

section Table

variable {filler : Bytes}

theorem length_hidden (h : filler.length = 2 ^ 32 - 10) :
    (record (hiddenEntry filler)).length = 2 ^ 32 := by
  rw [length_record]
  show 9 + 1 + filler.length = 2 ^ 32
  omega

theorem writeSSTable_long (h : filler.length = 2 ^ 32 - 10) :
    writeSSTable [⟨[1], record (hiddenEntry filler), false⟩] =
      writeSSTable (apparentEntries filler) := by
  have hrecord : record ⟨[1], record (hiddenEntry filler), false⟩ =
      record ⟨[1], [], false⟩ ++ record (hiddenEntry filler) := by
    have hzero : UInt32.ofNat (2 ^ 32) = UInt32.ofNat ([] : Bytes).length := rfl
    rw [record.eq_1 ⟨[1], record (hiddenEntry filler), false⟩, length_hidden h, hzero,
      record.eq_1 ⟨[1], [], false⟩, List.append_nil]
  have hdata : dataBlock [⟨[1], record (hiddenEntry filler), false⟩] =
      dataBlock (apparentEntries filler) := by
    rw [apparentEntries, dataBlock_cons, dataBlock_cons, dataBlock_cons, hrecord,
      List.append_assoc]
  have hindex : sparseIndex 0 0 [⟨[1], record (hiddenEntry filler), false⟩] =
      sparseIndex 0 0 (apparentEntries filler) := rfl
  rw [writeSSTable, writeSSTable, hdata, hindex]

theorem apparent_fits (h : filler.length = 2 ^ 32 - 10) : Fits (apparentEntries filler) := by
  refine ⟨?_, ?_, ?_⟩
  · intro e he
    rcases List.mem_cons.mp he with rfl | he
    · exact ⟨by decide, by decide⟩
    · rw [List.mem_singleton.mp he]
      refine ⟨show ([0] : Bytes).length < 2 ^ 32 by decide, ?_⟩
      show filler.length < 2 ^ 32
      omega
  · rw [apparentEntries, dataBlock_cons, dataBlock_cons, List.length_append, List.length_append,
      length_hidden h, length_record]
    decide
  · show [(([1] : Bytes), 0)].length < 2 ^ 32
    decide

/-- The keys are in the wrong order, so every key is below the first or above the last. -/
theorem get_apparent (seq : Nat) (key : Bytes) :
    (tableOf seq (apparentEntries filler)).get key = .ok none := by
  rw [SSTable.get, if_pos]
  refine .inr ?_
  show key < [1] ∨ ([0] : Bytes) < key
  rcases lt_or_ge key [1] with hlt | hge
  · exact .inl hlt
  · exact .inr (lt_of_lt_of_le (by decide) hge)

end Table

/-- An engine whose only table is that of the long value. -/
structure LongValue (filler : Bytes) (e : Engine) : Prop where
  length : filler.length = 2 ^ 32 - 10
  faults : e.faults = []
  mem : e.mem = {}
  tables : ∃ seq, e.tables = [tableOf seq (apparentEntries filler)]

section Engine

variable {filler : Bytes} {e : Engine} {w : WAL}

/-- A flush writes the table of one entry and opens it as the table of two. -/
theorem flush_longValue (h : filler.length = 2 ^ 32 - 10) (hcalm : Calm e w)
    (hmem : e.mem.nodes = [⟨[1], record (hiddenEntry filler), false⟩]) (htables : e.tables = [])
    (hsst : e.dir.sst = []) :
    ∃ e', flushLocked.exec e = (.ok (), e') ∧ LongValue filler e' := by
  have hnew : ∀ f ∈ e.dir.sst, f.1 ≠ e.nextSST := by
    rw [hsst]
    intro f hf
    cases hf
  have hnonempty : ¬e.mem.entries.length = 0 := by
    rw [Memtable.entries, hmem]
    exact Nat.one_ne_zero
  have hwrote : e.wrote e.nextSST e.mem.entries = e.wrote e.nextSST (apparentEntries filler) := by
    rw [Engine.wrote, Engine.wrote, Memtable.entries, hmem, writeSSTable_long h]
  have hone : ¬(tableOf e.nextSST (apparentEntries filler) :: e.tables).length >
      maxTablesBeforeCompact := by
    rw [htables]
    exact show ¬1 > maxTablesBeforeCompact by decide
  unfold flushLocked
  rw [exec_then exec_get, exec_ite, if_neg hnonempty, exec_then (writeTable_calm hcalm.faults hnew _),
    hwrote, exec_then (openTable_calm hcalm.faults (apparent_fits h) _), exec_then (exec_modify _),
    exec_then (walClose_calm (w := w) (by exact ⟨hcalm.faults, hcalm.opened, hcalm.wal⟩)),
    exec_then (walRemove_calm (by exact hcalm.faults)),
    exec_then (walOpen_calm (by exact hcalm.faults)), exec_then (exec_modify _),
    exec_then exec_get, exec_ite, if_neg (by exact hone), exec_pure]
  refine ⟨_, rfl, h, hcalm.faults, rfl, e.nextSST, ?_⟩
  show tableOf e.nextSST (apparentEntries filler) :: e.tables = _
  rw [htables]

/-- **A `Put` of the value** into an empty engine flushes it at once. -/
theorem put_longValue (h : filler.length = 2 ^ 32 - 10) (hcalm : Calm e w) (hmem : e.mem = {})
    (htables : e.tables = []) (hsst : e.dir.sst = []) (hoff : e.syncWAL = false)
    (hflush : e.flushSize ≤ 2 ^ 32) : ∃ e',
      (write [1] (record (hiddenEntry filler)) false).exec e = (.ok (), e') ∧
      LongValue filler e' := by
  have hlarge : (({} : Memtable).put [1] (record (hiddenEntry filler)) false).approxSize ≥
      e.flushSize := by
    show (0 + ((1 : Nat) + (record (hiddenEntry filler)).length + 32) : Int) ≥ e.flushSize
    rw [length_hidden h]
    omega
  let e₁ : Engine :=
    { e.moved { e.dir with
        wal := some (w.append (encodeWALRecord [1] (record (hiddenEntry filler)) false)) } with
      mem := ({} : Memtable).put [1] (record (hiddenEntry filler)) false
      syncWAL := false }
  have hwrite : (write [1] (record (hiddenEntry filler)) false).exec e = flushLocked.exec e₁ := by
    rw [write, exec_then (walAppend_calm hcalm _), exec_then exec_get]
    simp only [Engine.moved, hoff, Bool.false_eq_true, if_false]
    rw [writeMem, exec_then (exec_modify _), exec_then exec_get, exec_ite]
    simp only [hmem]
    rw [if_pos (by exact hlarge)]
    rfl
  rw [hwrite]
  exact flush_longValue (e := e₁) h ⟨hcalm.faults, hcalm.opened, rfl⟩ rfl htables hsst

theorem LongValue.get (h : LongValue filler e) (key : Bytes) : e.get key = .ok none := by
  obtain ⟨seq, htables⟩ := h.tables
  rw [Engine.get, h.mem, htables]
  simp only [lookup, get_apparent]
  rfl

theorem LongValue.snapshotEntries (h : LongValue filler e) :
    Storage.snapshotEntries.exec e = (.ok [([0], filler), ([1], [])], e) := by
  obtain ⟨seq, htables⟩ := h.tables
  have hmerge : (mergeTables [tableOf seq (apparentEntries filler)]).exec e =
      (.ok [hiddenEntry filler, ⟨[1], [], false⟩], e) := by
    rw [mergeTables, exec_then (by rw [mergeTables]; exact exec_pure []), exec_then (io_calm h.faults),
      all_tableOf (apparent_fits h.length)]
    rfl
  rw [Storage.snapshotEntries, exec_then exec_get, htables, exec_then hmerge, exec_pure, h.mem]
  rfl

end Engine

end Storage
end DistKV
