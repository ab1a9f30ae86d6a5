import DistKV.Storage.EngineSpec

/-!
# The abstract state of the engine

The abstract state of an engine is its memtable and the runs of its tables. `Stores` says that the
tables and their files are those of this state, and a `Get` answers with the first of the memtable and
the runs that has the key (`Stores.get`). A flush and a compaction do not change that answer; a write
changes it for its key; `Reset` leaves the pairs it is given.

What a later `OpenEngine` finds is another matter. A WAL that was torn once stays torn, and the engine
works on it all the same; only where the WAL replays to the memtable (`Durable`) does the directory
alone give the state back, and the operations keep that too.

Two lengths are bounded: the payload of a WAL record by its length field, and a table by its offsets
and its entry count.
-/

namespace DistKV
namespace Storage

open SortedRun (Increasing find first)

/-! ## WAL records -/

def KvEntry.walRecord (r : KvEntry) : Bytes := encodeWALRecord r.key r.value r.tombstone

def Memtable.putEntry (m : Memtable) (r : KvEntry) : Memtable := m.put r.key r.value r.tombstone

theorem length_encodeWALRecord (key val : Bytes) (tomb : Bool) :
    (encodeWALRecord key val tomb).length = 5 + key.length + val.length := by
  simp only [encodeWALRecord, List.length_append, List.length_cons, length_putUint32]

theorem decodeWALRecord_encode {key : Bytes} (h : key.length < 2 ^ 32) (val : Bytes) (tomb : Bool) :
    decodeWALRecord (encodeWALRecord key val tomb) = .ok (key, val, tomb) := by
  have hlong : ¬(encodeWALRecord key val tomb).length < 5 := by
    rw [length_encodeWALRecord]
    omega
  have hbody : (encodeWALRecord key val tomb).drop 5 = key ++ val := by
    simp [encodeWALRecord, putUint32]
  have hklen : (getUint32 ((encodeWALRecord key val tomb).drop 1)).toNat = key.length := by
    have hdrop : (encodeWALRecord key val tomb).drop 1 =
        putUint32 (.ofNat key.length) ++ (key ++ val) := by simp [encodeWALRecord]
    rw [hdrop, getUint32_putUint32, UInt32.toNat_ofNat', Nat.mod_eq_of_lt h]
  have htomb : decide ((encodeWALRecord key val tomb).headD 0 &&& 1 = 1) = tomb := by
    cases tomb with
    | true => simp [encodeWALRecord]
    | false => simp [encodeWALRecord]
  rw [decodeWALRecord, if_neg hlong]
  simp only [hklen, hbody, htomb, List.drop_left', List.take_left']
  rw [if_neg (by simp)]

section Records

variable {K : Finset Bytes} {recs : List KvEntry}

theorem Small.replayPut {r : KvEntry} (h : Small K r) (m : Memtable) :
    replayPut m r.walRecord = .ok (m.putEntry r) := by
  have hkey : r.key.length < 2 ^ 32 := by
    have := h.2
    omega
  rw [Storage.replayPut, KvEntry.walRecord, decodeWALRecord_encode hkey]
  rfl

theorem replay_records (h : ∀ r ∈ recs, Small K r) (m : Memtable) :
    (recs.map KvEntry.walRecord).foldlM replayPut m = .ok (recs.foldl Memtable.putEntry m) := by
  induction recs generalizing m with
  | nil => rfl
  | cons r recs ih =>
    rw [List.map_cons, List.foldlM_cons, (h r List.mem_cons_self).replayPut, List.foldl_cons]
    exact ih (fun x hx => h x (List.mem_cons_of_mem _ hx)) _

theorem Small.record_length {r : KvEntry} (h : Small K r) : r.walRecord.length < 2 ^ 32 := by
  rw [KvEntry.walRecord, length_encodeWALRecord]
  exact h.2

theorem Memtable.put_nodes (m : Memtable) (key value : Bytes) (tomb : Bool) :
    (m.put key value tomb).nodes = SortedRun.insert KvEntry.key ⟨key, value, tomb⟩ m.nodes := by
  rw [put]
  cases m.get key with
  | none => rfl
  | some n => rfl

theorem foldl_putEntry_nodes (recs : List KvEntry) (m : Memtable) :
    (recs.foldl Memtable.putEntry m).nodes = SortedRun.insertAll KvEntry.key recs m.nodes := by
  induction recs generalizing m with
  | nil => rfl
  | cons r recs ih =>
    rw [List.foldl_cons, ih, Memtable.putEntry, Memtable.put_nodes]
    rfl

end Records

/-! ## The invariant -/

/-- The WAL replays to the memtable. -/
def Journal (K : Finset Bytes) (w : WAL) (m : Memtable) : Prop :=
  ∃ recs : List KvEntry, w.file ++ w.pending = frames (recs.map KvEntry.walRecord) ∧
    (∀ r ∈ recs, Small K r) ∧ recs.foldl Memtable.putEntry {} = m

structure Stores (K : Finset Bytes) (e : Engine) (levels : List Level) : Prop where
  room : K.card < 2 ^ 30
  faults : e.faults = []
  opened : e.opened = true
  wal : ∃ w, e.dir.wal = some w
  tables : e.tables = levels.map Level.table
  files : e.dir.sst = levels.map Level.file
  newest : levels.Pairwise fun a b => b.1 < a.1
  fresh : ∀ l ∈ levels, l.1 < e.nextSST
  runs : ∀ l ∈ levels, Run K l.2
  mem : Run K e.mem.nodes

/-- The part of it that reads need: the tables are those of some runs. -/
structure Answers (K : Finset Bytes) (e : Engine) (levels : List Level) : Prop where
  room : K.card < 2 ^ 30
  tables : e.tables = levels.map Level.table
  runs : ∀ l ∈ levels, Run K l.2
  mem : Run K e.mem.nodes

/-- With `SyncWAL` on, nothing waits for a sync between two operations. -/
def Engine.Synced (e : Engine) : Prop :=
  e.syncWAL = true → ∀ w, e.dir.wal = some w → w.pending = []

theorem Engine.Synced.of_wal {e : Engine} {w : WAL} (hw : e.dir.wal = some w)
    (hp : w.pending = []) : e.Synced := by
  intro _ w' hw'
  rw [hw] at hw'
  cases hw'
  exact hp

/-- The directory gives the memtable back. -/
structure Engine.Durable (K : Finset Bytes) (e : Engine) : Prop where
  synced : e.Synced
  journal : ∃ w, e.dir.wal = some w ∧ Journal K w e.mem

theorem Engine.Durable.of_wal {K : Finset Bytes} {e : Engine} {w : WAL} (hw : e.dir.wal = some w)
    (hp : w.pending = []) (hj : Journal K w e.mem) : e.Durable K :=
  ⟨.of_wal hw hp, w, hw, hj⟩

/-- What a map of the engine's type holds. -/
abbrev Contents := Bytes → Option Bytes

/-- What the engine answers, in terms of its runs. -/
def view (m : Memtable) (levels : List Level) : Contents := fun key =>
  (first KvEntry.key key (m.nodes :: levels.map Prod.snd)).bind KvEntry.live

section Stores

variable {K : Finset Bytes} {e : Engine} {w : WAL} {levels : List Level} {m : Memtable}

theorem Journal.run (h : Journal K w m) : Run K m.nodes := by
  obtain ⟨recs, -, hsmall, rfl⟩ := h
  rw [foldl_putEntry_nodes]
  refine ⟨Increasing.insertAll List.Pairwise.nil recs, fun x hx => ?_⟩
  rcases SortedRun.mem_insertAll hx with hx | hx
  · exact hsmall x hx
  · cases hx

theorem Run.empty : Run K ({} : Memtable).nodes := ⟨List.Pairwise.nil, List.forall_mem_nil _⟩

theorem Journal.empty : Journal K (openWAL []) {} := ⟨[], rfl, by simp, rfl⟩

theorem Journal.sync (h : Journal K w m) : Journal K w.sync m := by
  obtain ⟨recs, hbytes, hsmall, hmem⟩ := h
  exact ⟨recs, by rw [← hbytes]; exact List.append_nil _, hsmall, hmem⟩

theorem Journal.replay (h : Journal K w m) :
    replayWAL replayPut (w.file ++ w.pending) {} = .ok m := by
  obtain ⟨recs, hbytes, hsmall, hmem⟩ := h
  have hshort : ∀ p ∈ recs.map KvEntry.walRecord, p.length < 2 ^ 32 := by
    intro p hp
    obtain ⟨r, hr, rfl⟩ := List.mem_map.mp hp
    exact (hsmall r hr).record_length
  rw [hbytes, ← List.append_nil (frames _), replayWAL_frames replayPut hshort rfl,
    replay_records hsmall, hmem]

theorem Journal.append (h : Journal K w m) {r : KvEntry} (hr : Small K r) :
    Journal K (w.append r.walRecord) (m.putEntry r) := by
  obtain ⟨recs, hbytes, hsmall, rfl⟩ := h
  refine ⟨recs ++ [r], ?_, fun x hx => ?_, List.foldl_concat ..⟩
  · rw [List.map_append, frames_append, ← hbytes, WAL.append, List.append_assoc, List.map_singleton,
      frames, List.flatMap_singleton]
  · rcases List.mem_append.mp hx with hx | hx
    · exact hsmall x hx
    · rw [List.mem_singleton.mp hx]
      exact hr

theorem Stores.new (h : Stores K e levels) : ∀ f ∈ e.dir.sst, f.1 ≠ e.nextSST := by
  rw [h.files]
  intro f hf
  obtain ⟨l, hl, rfl⟩ := List.mem_map.mp hf
  exact ne_of_lt (h.fresh l hl)

/-- **A read is answered by the newest of the memtable and the runs that has the key.** -/
theorem get_levels (hroom : K.card < 2 ^ 30) (htables : e.tables = levels.map Level.table)
    (hruns : ∀ l ∈ levels, Run K l.2) (key : Bytes) : e.get key = .ok (view e.mem levels key) := by
  rw [Engine.get, htables, lookup_levels hroom hruns, view, SortedRun.first_cons, Memtable.get]
  cases find KvEntry.key key e.mem.nodes with
  | some n => rfl
  | none => rfl

theorem Answers.get (h : Answers K e levels) (key : Bytes) :
    e.get key = .ok (view e.mem levels key) := get_levels h.room h.tables h.runs key

theorem Stores.answers (h : Stores K e levels) : Answers K e levels :=
  ⟨h.room, h.tables, h.runs, h.mem⟩

theorem Stores.get (h : Stores K e levels) (key : Bytes) :
    e.get key = .ok (view e.mem levels key) := h.answers.get key

end Stores

/-! ## Opening -/

section Opening

variable {K : Finset Bytes} {levels : List Level} {m : Memtable}

theorem loadTables_levels (hroom : K.card < 2 ^ 30) (h : ∀ l ∈ levels, Run K l.2) :
    loadTables (levels.map Level.file) = .ok (levels.map Level.table) := by
  induction levels with
  | nil => rfl
  | cons l levels ih =>
    have hfits : Fits l.2 := (h l List.mem_cons_self).fits hroom
    rw [List.map_cons, loadTables, Level.file]
    simp only [openSSTable_writeSSTable hfits, ih fun l' hl' => h l' (List.mem_cons_of_mem _ hl')]
    rfl

theorem le_nextSST (names : List (Nat × Bytes)) (next : Nat) :
    next ≤ names.foldl (fun next f => if f.1 ≥ next then f.1 + 1 else next) next := by
  induction names generalizing next with
  | nil => exact le_rfl
  | cons f names ih =>
    refine le_trans ?_ (ih _)
    show next ≤ if f.1 ≥ next then f.1 + 1 else next
    split
    · omega
    · exact le_rfl

theorem lt_nextSST {names : List (Nat × Bytes)} {f : Nat × Bytes} (hf : f ∈ names) (next : Nat) :
    f.1 < names.foldl (fun next f => if f.1 ≥ next then f.1 + 1 else next) next := by
  induction names generalizing next with
  | nil => cases hf
  | cons g names ih =>
    rcases List.mem_cons.mp hf with rfl | hmem
    · refine lt_of_lt_of_le ?_ (le_nextSST names _)
      show f.1 < if f.1 ≥ next then f.1 + 1 else next
      split
      · exact Nat.lt_succ_self _
      · omega
    · exact ih hmem _

/-- The bytes of the WAL file, all of them synced. -/
def Dir.walBytes (d : Dir) : Bytes := (d.wal.map WAL.file).getD []

/-- The engine that `OpenEngine` makes of the tables in a directory and a memtable. -/
def openedEngine (opts : EngineOptions) (d : Dir) (levels : List Level) (m : Memtable) : Engine :=
  { dir := { d with wal := some (openWAL d.walBytes) }
    mem := m
    tables := levels.map Level.table
    nextSST := (levels.map Level.file).foldl (fun next f => if f.1 ≥ next then f.1 + 1 else next) 0
    flushSize := if opts.flushSize = 0 then 4194304 else opts.flushSize
    syncWAL := opts.syncWAL }

/-- With the files of runs `OpenEngine` depends on the replay of the WAL alone. -/
theorem openEngine_levels (opts : EngineOptions) {d : Dir} (hroom : K.card < 2 ^ 30)
    (hfiles : d.sst = levels.map Level.file) (hnewest : levels.Pairwise fun a b => b.1 < a.1)
    (hruns : ∀ l ∈ levels, Run K l.2) :
    openEngine opts d = (replayWAL replayPut d.walBytes {}).map (openedEngine opts d levels) := by
  have hsorted : (d.sst.insertionSort fun a b => a.1 ≥ b.1) = levels.map Level.file := by
    rw [hfiles]
    refine List.Pairwise.insertionSort_eq (List.pairwise_map.mpr (hnewest.imp fun hlt => ?_))
    exact Nat.le_of_lt hlt
  rw [openEngine, hsorted, loadTables_levels hroom hruns]
  show (replayWAL replayPut d.walBytes {} >>= _) = _
  cases replayWAL replayPut d.walBytes {} with
  | error x => rfl
  | ok m => rfl

/-- **`OpenEngine` finds the runs of the files and the memtable that the WAL replays to.** -/
theorem openEngine_stores (opts : EngineOptions) {d : Dir} (hroom : K.card < 2 ^ 30)
    (hfiles : d.sst = levels.map Level.file) (hnewest : levels.Pairwise fun a b => b.1 < a.1)
    (hruns : ∀ l ∈ levels, Run K l.2) (hwal : replayWAL replayPut d.walBytes {} = .ok m)
    (hm : Run K m.nodes) :
    openEngine opts d = .ok (openedEngine opts d levels m) ∧
      Stores K (openedEngine opts d levels m) levels := by
  refine ⟨?_, hroom, rfl, rfl, ⟨_, rfl⟩, rfl, hfiles, hnewest, fun l hl => ?_, hruns, hm⟩
  · rw [openEngine_levels opts hroom hfiles hnewest hruns, hwal]
    rfl
  · exact lt_nextSST (List.mem_map_of_mem (f := Level.file) hl) 0

/-- If the WAL is whole the engine is durable. -/
theorem openEngine_durable (opts : EngineOptions) {d : Dir} (hroom : K.card < 2 ^ 30)
    (hfiles : d.sst = levels.map Level.file) (hnewest : levels.Pairwise fun a b => b.1 < a.1)
    (hruns : ∀ l ∈ levels, Run K l.2) (hwal : Journal K (openWAL d.walBytes) m) :
    ∃ e, openEngine opts d = .ok e ∧ Stores K e levels ∧ e.Durable K ∧ e.mem = m := by
  have hreplay := hwal.replay
  rw [openWAL, List.append_nil] at hreplay
  obtain ⟨hopen, hs⟩ := openEngine_stores opts hroom hfiles hnewest hruns hreplay hwal.run
  exact ⟨_, hopen, hs, .of_wal rfl rfl hwal, rfl⟩

end Opening

/-! ## Flush and compaction -/

/-- The engine after a flush, before it looks at the number of its tables. -/
def Engine.flushed (e : Engine) (w : WAL) : Engine :=
  let d := e.dir.addTable e.nextSST (writeSSTable e.mem.nodes)
  { e with
    dir := { d with wal := some (openWAL []) }
    mem := {}
    tables := tableOf e.nextSST e.mem.nodes :: e.tables
    nextSST := e.nextSST + 1
    trail := e.trail ++ e.dir.partials e.nextSST (writeSSTable e.mem.nodes) ++
      [d, { d with wal := some w.sync }, { d with wal := none },
        { d with wal := some (openWAL []) }] }

/-- The run a compaction writes. -/
def mergedRun (levels : List Level) : List KvEntry :=
  SortedRun.compact KvEntry.tombstone KvEntry.key (levels.map Prod.snd)

/-- The engine after a compaction. -/
def Engine.compacted (e : Engine) (levels : List Level) : Engine :=
  let merged := writeSSTable (mergedRun levels)
  { e with
    dir := { e.dir with sst := [(e.nextSST, merged)] }
    tables := [tableOf e.nextSST (mergedRun levels)]
    nextSST := e.nextSST + 1
    trail := e.trail ++ e.dir.partials e.nextSST merged ++ [e.dir.addTable e.nextSST merged] ++
      removals e.dir.wal [(e.nextSST, merged)] levels }

section Flush

variable {K : Finset Bytes} {e : Engine} {w : WAL} {levels : List Level}

theorem Answers.runs_sorted (h : Answers K e levels) :
    ∀ run ∈ levels.map Prod.snd, Increasing KvEntry.key run := by
  intro run hrun
  obtain ⟨l, hl, rfl⟩ := List.mem_map.mp hrun
  exact (h.runs l hl).sorted

theorem Answers.compactedRun (h : Answers K e levels) : Run K (mergedRun levels) := by
  refine Run.compact fun run hrun => ?_
  obtain ⟨l, hl, rfl⟩ := List.mem_map.mp hrun
  exact h.runs l hl

theorem Stores.compactedRun (h : Stores K e levels) : Run K (mergedRun levels) :=
  h.answers.compactedRun

theorem Stores.flush_exec (h : Stores K e levels) (hw : e.dir.wal = some w)
    (hne : e.mem.nodes ≠ []) : flushLocked.exec e =
      (if levels.length + 1 > maxTablesBeforeCompact then compactLocked else pure ()).exec
        (e.flushed w) := by
  have hnonempty : ¬e.mem.entries.length = 0 := fun h0 => hne (List.length_eq_zero_iff.mp h0)
  have hfits : Fits e.mem.entries := h.mem.fits h.room
  have hcount : (e.flushed w).tables.length = levels.length + 1 := by
    rw [Engine.flushed, List.length_cons, h.tables, List.length_map]
  unfold flushLocked
  rw [exec_then exec_get, exec_ite, if_neg hnonempty,
    exec_then (writeTable_calm h.faults h.new _), exec_then (openTable_calm h.faults hfits _),
    exec_then (exec_modify _), exec_then (walClose_calm (w := w) (by exact ⟨h.faults, h.opened, hw⟩)),
    exec_then (walRemove_calm (by exact h.faults)), exec_then (walOpen_calm (by exact h.faults)),
    exec_then (exec_modify _), exec_then exec_get]
  have hstate : (e.flushed w) = { e.flushed w with opened := true } := by
    rw [Engine.flushed, ← h.opened]
  rw [← hcount, hstate]
  simp only [Engine.flushed, Engine.wrote, Engine.moved, List.append_assoc, List.cons_append,
    List.nil_append]
  rfl

theorem Stores.compact_exec (h : Stores K e levels) :
    compactLocked.exec e = (.ok (), e.compacted levels) := by
  have hfits : Fits (mergedRun levels) := h.compactedRun.fits h.room
  unfold compactLocked
  have hmerged : ((SortedRun.merge KvEntry.key (levels.map Prod.snd)).filter fun en =>
      !en.tombstone) = mergedRun levels := rfl
  rw [exec_then exec_get, h.tables, exec_then (mergeTables_calm h.faults h.room h.runs), hmerged,
    exec_then (writeTable_calm h.faults h.new _), exec_then (openTable_calm h.faults hfits _),
    exec_then (exec_modify _)]
  have hdisjoint : ∀ f ∈ [(e.nextSST, writeSSTable (mergedRun levels))], ∀ l ∈ levels,
      f.1 ≠ l.1 := by
    intro f hf l hl
    rw [List.mem_singleton.mp hf]
    exact ne_of_gt (h.fresh l hl)
  rw [removeTables_calm (by exact h.faults) (by rw [← h.files]; rfl) h.newest hdisjoint]
  simp only [Engine.wrote, Engine.compacted, Dir.addTable, h.files]

theorem Stores.flushed (h : Stores K e levels) :
    Stores K (e.flushed w) ((e.nextSST, e.mem.nodes) :: levels) := by
  refine ⟨h.room, h.faults, h.opened, ⟨_, rfl⟩, ?_, ?_, ?_, ?_, ?_, .empty⟩
  · rw [Engine.flushed, h.tables]
    rfl
  · show (_, _) :: e.dir.sst = _
    rw [h.files]
    rfl
  · exact List.pairwise_cons.mpr ⟨h.fresh, h.newest⟩
  · intro l hl
    rcases List.mem_cons.mp hl with rfl | hl
    · exact Nat.lt_succ_self _
    · exact Nat.lt_succ_of_lt (h.fresh l hl)
  · intro l hl
    rcases List.mem_cons.mp hl with rfl | hl
    · exact h.mem
    · exact h.runs l hl

theorem view_flushed (m : Memtable) (seq : Nat) (levels : List Level) :
    view {} ((seq, m.nodes) :: levels) = view m levels := by
  funext key
  rw [view, SortedRun.first_cons]
  rfl

theorem Stores.compacted (h : Stores K e levels) :
    Stores K (e.compacted levels) [(e.nextSST, mergedRun levels)] := by
  refine ⟨h.room, h.faults, h.opened, h.wal, rfl, rfl, List.pairwise_singleton _ _, ?_, ?_, h.mem⟩
  · intro l hl
    rw [List.mem_singleton.mp hl]
    exact Nat.lt_succ_self _
  · intro l hl
    rw [List.mem_singleton.mp hl]
    exact h.compactedRun

/-- An entry is read as its value if it is live. -/
theorem bind_live_filter (o : Option KvEntry) :
    (o.filter fun en => !en.tombstone).bind KvEntry.live = o.bind KvEntry.live := by
  cases o with
  | none => rfl
  | some en =>
    cases ht : en.tombstone with
    | true => simp [Option.filter, KvEntry.live, ht]
    | false => simp [Option.filter, ht]

/-- A table with the contents of the memtable, behind it. -/
theorem view_twice (m : Memtable) (seq : Nat) (levels : List Level) :
    view m ((seq, m.nodes) :: levels) = view m levels := by
  funext key
  rw [view, view, List.map_cons, SortedRun.first_cons, SortedRun.first_cons]
  cases find KvEntry.key key m.nodes with
  | none => rfl
  | some x => rfl

theorem Answers.view_compacted (h : Answers K e levels) (m : Memtable) (seq : Nat) :
    view m [(seq, mergedRun levels)] = view m levels := by
  funext key
  rw [view, ← bind_live_filter, List.map_singleton, mergedRun,
    SortedRun.first_compact KvEntry.tombstone h.runs_sorted, bind_live_filter, view]

/-- **A flush, with the compaction it may start, changes no answer.** -/
theorem Stores.flush (h : Stores K e levels) : ∃ e' levels', flushLocked.exec e = (.ok (), e') ∧
    Stores K e' levels' ∧ (e.Durable K → e'.Durable K) ∧ view e'.mem levels' = view e.mem levels := by
  obtain ⟨w, hw⟩ := h.wal
  by_cases hne : e.mem.nodes = []
  · refine ⟨e, levels, ?_, h, id, rfl⟩
    unfold flushLocked
    rw [exec_then exec_get, exec_ite, if_pos (by rw [Memtable.entries, hne]; rfl), exec_pure]
  rw [h.flush_exec hw hne, exec_ite]
  split
  · have hflushed := h.flushed (w := w)
    refine ⟨_, _, hflushed.compact_exec, hflushed.compacted, fun _ => .of_wal rfl rfl .empty, ?_⟩
    exact (hflushed.answers.view_compacted _ _).trans (view_flushed e.mem e.nextSST levels)
  · exact ⟨_, _, exec_pure _, h.flushed, fun _ => .of_wal rfl rfl .empty,
      view_flushed e.mem e.nextSST levels⟩

end Flush

/-! ## Writing -/

section Write

variable {K : Finset Bytes} {e : Engine} {w : WAL} {levels : List Level} {m : Memtable}

theorem view_put (h : Run K m.nodes) (r : KvEntry) (levels : List Level) :
    view (m.putEntry r) levels = Function.update (view m levels) r.key r.live := by
  funext key
  rw [view, SortedRun.first_cons, Memtable.putEntry, Memtable.put_nodes,
    SortedRun.find_insert h.sorted]
  by_cases hkey : r.key = key
  · subst hkey
    rw [if_pos rfl, Function.update_self]
    rfl
  · rw [if_neg hkey, Function.update_of_ne (Ne.symm hkey), view, SortedRun.first_cons]

/-- What is left of the invariant when only the WAL and the memtable change. -/
theorem Stores.rewritten {e' : Engine} (h : Stores K e levels) (hf : e'.faults = e.faults)
    (ho : e'.opened = e.opened) (ht : e'.tables = e.tables) (hd : e'.dir.sst = e.dir.sst)
    (hn : e'.nextSST = e.nextSST) (hw : e'.dir.wal = some w) (hm : Run K e'.mem.nodes) :
    Stores K e' levels :=
  ⟨h.room, hf.trans h.faults, ho.trans h.opened, ⟨w, hw⟩, ht.trans h.tables, hd.trans h.files,
    h.newest, by rw [hn]; exact h.fresh, h.runs, hm⟩

theorem Run.put (h : Run K m.nodes) {r : KvEntry} (hr : Small K r) :
    Run K (m.put r.key r.value r.tombstone).nodes := by
  rw [Memtable.put_nodes]
  refine ⟨h.sorted.insert r, fun x hx => ?_⟩
  rcases SortedRun.mem_insert hx with rfl | hx
  · exact hr
  · exact h.small x hx

/-- The engine with one more record in the WAL. -/
def Engine.logged (e : Engine) (w : WAL) (r : KvEntry) : Engine :=
  e.moved { e.dir with wal := some (w.append r.walRecord) }

theorem Stores.writeMem (h : Stores K e levels) (e₁ : Engine) (hf : e₁.faults = e.faults)
    (ho : e₁.opened = e.opened) (ht : e₁.tables = e.tables) (hd : e₁.dir.sst = e.dir.sst)
    (hn : e₁.nextSST = e.nextSST) (hm : e₁.mem = e.mem) (hw : e₁.dir.wal = some w) {r : KvEntry}
    (hr : Small K r) :
    ∃ e' levels', (Storage.writeMem r.key r.value r.tombstone).exec e₁ = (.ok (), e') ∧
      Stores K e' levels' ∧
      (e₁.Synced → Journal K w (e.mem.putEntry r) → e'.Durable K) ∧
      view e'.mem levels' = Function.update (view e.mem levels) r.key r.live := by
  have hstores : Stores K { e₁ with mem := e₁.mem.put r.key r.value r.tombstone } levels :=
    h.rewritten hf ho ht hd hn hw (by rw [hm]; exact h.mem.put hr)
  have hview : view (e₁.mem.put r.key r.value r.tombstone) levels =
      Function.update (view e.mem levels) r.key r.live := by
    rw [hm]
    exact view_put h.mem r levels
  have hdurable : e₁.Synced → Journal K w (e.mem.putEntry r) →
      Engine.Durable K { e₁ with mem := e₁.mem.put r.key r.value r.tombstone } :=
    fun hsync hj => ⟨hsync, w, hw, by rw [hm]; exact hj⟩
  rw [Storage.writeMem, exec_then (exec_modify _), exec_then exec_get, exec_ite]
  split
  · obtain ⟨e', levels', hflush, hs, hdurable', hv⟩ := hstores.flush
    exact ⟨e', levels', hflush, hs, fun hsync hj => hdurable' (hdurable hsync hj), hv.trans hview⟩
  · exact ⟨_, levels, exec_pure _, hstores, hdurable, hview⟩

/-- **A write changes the answer for its key, and no other.** -/
theorem Stores.write (h : Stores K e levels) {r : KvEntry} (hr : Small K r) :
    ∃ e' levels', (Storage.write r.key r.value r.tombstone).exec e = (.ok (), e') ∧
      Stores K e' levels' ∧ (e.Durable K → e'.Durable K) ∧
      view e'.mem levels' = Function.update (view e.mem levels) r.key r.live := by
  obtain ⟨w, hw⟩ := h.wal
  have happend : (walAppend (encodeWALRecord r.key r.value r.tombstone)).exec e =
      (.ok (), e.logged w r) := walAppend_calm ⟨h.faults, h.opened, hw⟩ _
  have hjournal : e.Durable K → Journal K (w.append r.walRecord) (e.mem.putEntry r) := by
    intro hd
    obtain ⟨w', hw', hj⟩ := hd.journal
    obtain rfl := Option.some.inj (hw.symm.trans hw')
    exact hj.append hr
  rw [Storage.write, exec_then happend, exec_then exec_get]
  -- whether it is synced or not, the record is in the WAL when the memtable changes
  show ∃ e' levels', (if e.syncWAL = true then walSync >>= fun _ =>
    Storage.writeMem r.key r.value r.tombstone else
      Storage.writeMem r.key r.value r.tombstone).exec (e.logged w r) = _ ∧ _
  rw [exec_ite]
  split
  · have hsync := walSync_calm (e := e.logged w r) ⟨h.faults, h.opened, rfl⟩
    rw [exec_then hsync]
    obtain ⟨e', levels', hexec, hs, hdurable, hv⟩ := h.writeMem
      ((e.logged w r).moved { e.dir with wal := some (w.append r.walRecord).sync })
      rfl rfl rfl rfl rfl rfl rfl hr
    exact ⟨e', levels', hexec, hs, fun hd => hdurable (.of_wal rfl rfl) (hjournal hd).sync, hv⟩
  · next hoff =>
    obtain ⟨e', levels', hexec, hs, hdurable, hv⟩ := h.writeMem (e.logged w r)
      rfl rfl rfl rfl rfl rfl rfl hr
    exact ⟨e', levels', hexec, hs,
      fun hd => hdurable (fun hon => absurd hon hoff) (hjournal hd), hv⟩

/-! ## Loading and reopening -/

/-- A map with one more pair. -/
def Contents.load (f : Contents) (p : Bytes × Bytes) : Contents := Function.update f p.1 (some p.2)

theorem Stores.loadPair (h : Stores K e levels) {p : Bytes × Bytes} (hp : Small K ⟨p.1, p.2, false⟩) :
    ∃ e', (Storage.loadPair p).exec e = (.ok (), e') ∧ Stores K e' levels ∧
      (∀ w, e.dir.wal = some w → Journal K w e.mem →
        ∃ w', e'.dir.wal = some w' ∧ Journal K w' e'.mem) ∧
      view e'.mem levels = (view e.mem levels).load p := by
  obtain ⟨w, hw⟩ := h.wal
  have happend := walAppend_calm ⟨h.faults, h.opened, hw⟩ (encodeWALRecord p.1 p.2 false)
  rw [Storage.loadPair, exec_then happend, exec_modify]
  refine ⟨_, rfl, ?_, fun w' hw' hj => ⟨_, rfl, ?_⟩, ?_⟩
  · exact h.rewritten rfl rfl rfl rfl rfl rfl (h.mem.put (r := ⟨p.1, p.2, false⟩) hp)
  · obtain rfl := Option.some.inj (hw.symm.trans hw')
    exact hj.append (r := ⟨p.1, p.2, false⟩) hp
  · exact view_put h.mem ⟨p.1, p.2, false⟩ levels

theorem Stores.loadPairs {entries : List (Bytes × Bytes)} (h : Stores K e levels)
    (hsmall : ∀ p ∈ entries, Small K ⟨p.1, p.2, false⟩) {w : WAL} (hw : e.dir.wal = some w)
    (hj : Journal K w e.mem) :
    ∃ e' w', (entries.forM Storage.loadPair).exec e = (.ok (), e') ∧ Stores K e' levels ∧
      e'.dir.wal = some w' ∧ Journal K w' e'.mem ∧
      view e'.mem levels = entries.foldl Contents.load (view e.mem levels) := by
  induction entries generalizing e w with
  | nil => exact ⟨e, w, rfl, h, hw, hj, rfl⟩
  | cons p entries ih =>
    obtain ⟨e₁, hexec, hs, hjournal, hv⟩ := h.loadPair (hsmall p List.mem_cons_self)
    obtain ⟨w₁, hw₁, hj₁⟩ := hjournal w hw hj
    obtain ⟨e', w', hrest, hs', hw', hj', hv'⟩ :=
      ih hs (fun q hq => hsmall q (List.mem_cons_of_mem _ hq)) hw₁ hj₁
    refine ⟨e', w', ?_, hs', hw', hj', ?_⟩
    · show (Storage.loadPair p >>= fun _ => entries.forM Storage.loadPair).exec e = _
      rw [exec_then hexec, hrest]
    · rw [hv', hv, List.foldl_cons]

/-- The pairs of a map can be loaded one after the other, in any order. -/
theorem foldl_load {entries : List (Bytes × Bytes)} (h : (entries.map Prod.fst).Nodup)
    (f : Contents) (key : Bytes) :
    entries.foldl Contents.load f key = (entries.lookup key).or (f key) := by
  induction entries generalizing f with
  | nil => rfl
  | cons p entries ih =>
    obtain ⟨hp, hrest⟩ := List.nodup_cons.mp h
    rw [List.foldl_cons, ih hrest, List.lookup_cons, Contents.load]
    by_cases hkey : key = p.1
    · have hnone : entries.lookup key = none := by
        rw [List.lookup_eq_none_iff]
        intro q hq
        rw [bne_iff_ne]
        refine fun heq => hp ?_
        rw [← hkey, heq]
        exact List.mem_map_of_mem hq
      rw [hnone, hkey, Function.update_self, beq_self_eq_true]
      rfl
    · rw [Function.update_of_ne hkey, beq_eq_false_iff_ne.mpr hkey]

/-- The engine after `Reset` has emptied it. -/
def Engine.wiped (e : Engine) (w : WAL) (levels : List Level) : Engine :=
  { e with
    dir := { wal := some (openWAL []) }
    tables := []
    mem := {}
    opened := true
    trail := e.trail ++ removals e.dir.wal [] levels ++ [{ wal := some w.sync }] ++ [{ wal := none }] ++
      [{ wal := some (openWAL []) }] }

/-- **`Reset` leaves the given pairs and nothing else**, whatever keys there were. -/
theorem Stores.replace {entries : List (Bytes × Bytes)} (h : Stores K e levels) {K' : Finset Bytes}
    (hroom : K'.card < 2 ^ 30) (hsmall : ∀ p ∈ entries, Small K' ⟨p.1, p.2, false⟩)
    (hunique : (entries.map Prod.fst).Nodup) :
    ∃ e', (Storage.reset entries).exec e = (.ok (), e') ∧ Stores K' e' [] ∧ e'.Durable K' ∧
      view e'.mem [] = fun key => entries.lookup key := by
  obtain ⟨w, hw⟩ := h.wal
  have hremove := removeTables_calm (e := e) h.faults
    (by rw [List.nil_append]; exact h.files) h.newest (by simp)
  rw [Storage.reset, exec_then exec_get, h.tables, exec_then hremove, exec_then (exec_modify _),
    exec_then (walClose_calm (w := w) (by exact ⟨h.faults, h.opened, hw⟩)),
    exec_then (walRemove_calm (by exact h.faults)), exec_then (walOpen_calm (by exact h.faults))]
  have hwiped : Stores K' (e.wiped w levels) [] :=
    ⟨hroom, h.faults, rfl, ⟨_, rfl⟩, rfl, rfl, .nil, by simp, by simp, .empty⟩
  obtain ⟨e₂, w₂, hload, hs, hw₂, hj₂, hv⟩ := hwiped.loadPairs hsmall rfl .empty
  refine ⟨_, (exec_then hload).trans (walSync_calm ⟨hs.faults, hs.opened, hw₂⟩), ?_,
    .of_wal rfl rfl hj₂.sync, ?_⟩
  · exact hs.rewritten rfl rfl rfl rfl rfl rfl hs.mem
  · funext key
    show view e₂.mem [] key = _
    rw [hv, foldl_load hunique]
    exact Option.or_none

theorem Stores.reset {entries : List (Bytes × Bytes)} (h : Stores K e levels)
    (hsmall : ∀ p ∈ entries, Small K ⟨p.1, p.2, false⟩) (hunique : (entries.map Prod.fst).Nodup) :
    ∃ e', (Storage.reset entries).exec e = (.ok (), e') ∧ Stores K e' [] ∧ e'.Durable K ∧
      view e'.mem [] = fun key => entries.lookup key :=
  h.replace h.room hsmall hunique

/-- The pairs of a run, looked up by key. -/
theorem lookup_pairs {run : List KvEntry} (h : Increasing KvEntry.key run) (key : Bytes) :
    (run.map fun en => (en.key, en.value)).lookup key =
      (find KvEntry.key key run).map KvEntry.value := by
  induction run with
  | nil => rfl
  | cons x run ih =>
    obtain ⟨hx, hrun⟩ := List.pairwise_cons.mp h
    rw [List.map_cons, List.lookup_cons, find]
    by_cases hkey : key = x.key
    · subst hkey
      rw [beq_self_eq_true, if_neg (lt_irrefl _), if_pos rfl]
      rfl
    · rw [beq_eq_false_iff_ne.mpr hkey, if_neg (Ne.symm hkey)]
      show (run.map fun en => (en.key, en.value)).lookup key = _
      rw [ih hrun]
      by_cases hlt : x.key < key
      · rw [if_pos hlt]
      · -- all keys that follow are above `key`
        have hnone : find KvEntry.key key run = none := by
          refine (SortedRun.find_eq_none hrun).mpr fun y hy hyk => hlt ?_
          rw [← hyk]
          exact hx y hy
        rw [if_neg hlt, hnone]

/-- The live pairs of some runs. -/
def livePairs (runs : List (List KvEntry)) : List (Bytes × Bytes) :=
  (SortedRun.compact KvEntry.tombstone KvEntry.key runs).map fun en => (en.key, en.value)

theorem map_value_filter (o : Option KvEntry) :
    (o.filter fun en => !en.tombstone).map KvEntry.value = o.bind KvEntry.live := by
  cases o with
  | none => rfl
  | some en =>
    cases ht : en.tombstone with
    | true => simp [Option.filter, KvEntry.live, ht]
    | false => simp [Option.filter, KvEntry.live, ht]

/-- **`SnapshotEntries` is what the engine answers.** -/
theorem Stores.snapshotEntries (h : Stores K e levels) : ∃ entries,
    Storage.snapshotEntries.exec e = (.ok entries, e) ∧ (entries.map Prod.fst).Nodup ∧
    (∀ p ∈ entries, Small K ⟨p.1, p.2, false⟩) ∧ ∀ key, entries.lookup key = view e.mem levels key := by
  have hruns : ∀ run ∈ e.mem.nodes :: levels.map Prod.snd, Run K run := by
    intro run hrun
    rcases List.mem_cons.mp hrun with rfl | hrun
    · exact h.mem
    · obtain ⟨l, hl, rfl⟩ := List.mem_map.mp hrun
      exact h.runs l hl
  have hlive : Run K (SortedRun.compact KvEntry.tombstone KvEntry.key _) := Run.compact hruns
  refine ⟨livePairs (e.mem.nodes :: levels.map Prod.snd), ?_, ?_, ?_, fun key => ?_⟩
  · rw [Storage.snapshotEntries, exec_then exec_get, h.tables,
      exec_then (mergeTables_calm h.faults h.room h.runs), exec_pure]
    rfl
  · rw [livePairs, List.map_map]
    exact List.pairwise_map.mpr (hlive.sorted.imp fun hlt => ne_of_lt hlt)
  · intro p hp
    obtain ⟨en, hen, rfl⟩ := List.mem_map.mp hp
    exact hlive.small en hen
  · rw [livePairs, lookup_pairs hlive.sorted,
      SortedRun.find_compact _ fun run hrun => (hruns run hrun).sorted, map_value_filter, view]

/-- **`Close` and `OpenEngine` change no answer**, if the WAL replays to the memtable. -/
theorem Stores.reopen (h : Stores K e levels) (hd : e.Durable K) (opts : EngineOptions) :
    ∃ e₁ e', close.exec e = (.ok (), e₁) ∧ openEngine opts e₁.dir = .ok e' ∧ Stores K e' levels ∧
      e'.Durable K ∧ e'.mem = e.mem := by
  obtain ⟨w, hw, hj⟩ := hd.journal
  obtain ⟨e', hopen, hs⟩ := openEngine_durable opts (d := { e.dir with wal := some w.sync }) h.room
    h.files h.newest h.runs hj.sync
  exact ⟨_, e', walClose_calm ⟨h.faults, h.opened, hw⟩, hopen, hs⟩

end Write

end Storage
end DistKV
