import DistKV.Storage.EngineRuns

/-!
# Crashes inside a compaction and inside a flush

`compactLocked` writes the merged table, without the tombstones, and removes the old tables one by
one, the newest first. While an old table is left behind it, a dropped tombstone is missed: a crash
in between brings a deleted key back whenever its tombstone is removed before the live entry it hid
(`compaction_crash_safe`, `deleted_key_reappears`).

`flushLocked` writes the new table under its final name. `OpenEngine` opens every table it finds, so
a crash while the table is written can leave an engine that does not open (`torn_table_blocks_open`).
Once the table is complete the WAL is replayed over it as long as it is there. That is harmless if the
replay finds what the engine answers, as it does with a WAL of whole frames; a WAL that was torn by an
earlier crash replays to older values (`flush_crash_safe`).
-/

namespace DistKV
namespace Storage

open SortedRun (Increasing find first)

/-- The directories an operation goes through. -/
def Engine.path (e : Engine) (m : EngineM Unit) : List Dir := (m.exec e).2.trail.drop e.trail.length

/-- After a crash that leaves the directory `d`, an engine opens and answers every key as `e` does. -/
def Survives (e : Engine) (d : Dir) : Prop :=
  ∀ opts keep, ∃ e', openEngine opts (d.crash keep) = .ok e' ∧ ∀ key, e'.get key = e.get key

section Crash

variable {K : Finset Bytes} {e : Engine} {levels : List Level}

theorem Dir.crash_walBytes {d : Dir} (h : ∀ w, d.wal = some w → w.pending = []) (keep : Nat) :
    (d.crash keep).walBytes = d.walBytes := by
  cases hw : d.wal with
  | none => simp only [Dir.crash, Dir.walBytes, hw, Option.map_none]
  | some w =>
    simp only [Dir.crash, Dir.walBytes, hw, Option.map_some, Option.getD_some, WAL.crash, h w hw,
      List.take_nil, List.append_nil]
    rfl

/-- A directory whose WAL is synced survives if the answers from its files are those of before. -/
theorem Stores.survives_iff (h : Stores K e levels) {d : Dir} {levels' : List Level}
    (hfiles : d.sst = levels'.map Level.file) (hnewest : levels'.Pairwise fun a b => b.1 < a.1)
    (hruns : ∀ l ∈ levels', Run K l.2) (hsynced : ∀ w, d.wal = some w → w.pending = []) :
    Survives e d ↔ ∃ m, replayWAL replayPut d.walBytes {} = .ok m ∧
      ∀ key, view m levels' key = view e.mem levels key := by
  have hopen : ∀ opts keep, openEngine opts (d.crash keep) =
      (replayWAL replayPut d.walBytes {}).map (openedEngine opts (d.crash keep) levels') := by
    intro opts keep
    rw [openEngine_levels opts (d := d.crash keep) h.room hfiles hnewest hruns,
      Dir.crash_walBytes hsynced]
  have hget : ∀ opts keep m key,
      (openedEngine opts (d.crash keep) levels' m).get key = .ok (view m levels' key) :=
    fun opts keep m key => get_levels h.room rfl hruns key
  constructor
  · intro hsurvives
    obtain ⟨e', hok, hsame⟩ := hsurvives {} 0
    rw [hopen] at hok
    cases hreplay : replayWAL replayPut d.walBytes {} with
    | error x =>
      rw [hreplay] at hok
      cases hok
    | ok m =>
      rw [hreplay] at hok
      cases hok
      refine ⟨m, rfl, fun key => ?_⟩
      have heq := hsame key
      rw [hget, h.get] at heq
      exact Except.ok.inj heq
  · rintro ⟨m, hreplay, hview⟩ opts keep
    refine ⟨openedEngine opts (d.crash keep) levels' m, ?_, fun key => ?_⟩
    · rw [hopen, hreplay]
      rfl
    · rw [hget, h.get, hview]

end Crash

/-! ## Compaction -/

/-- The newest entry of the key is a tombstone, and without the `j` newest tables it is a live one. -/
def Resurrects (levels : List Level) (j : Nat) (key : Bytes) : Prop :=
  (∃ t, first KvEntry.key key (levels.map Prod.snd) = some t ∧ t.tombstone = true) ∧
    ∃ x, first KvEntry.key key ((levels.map Prod.snd).drop j) = some x ∧ x.tombstone = false

section Compaction

variable {K : Finset Bytes} {e : Engine} {w : WAL} {levels : List Level}

theorem removals_get (wal : Option WAL) (kept : List (Nat × Bytes)) {j : Nat}
    (hj : j ≤ levels.length) :
    (({ sst := kept ++ levels.map Level.file, wal := wal } : Dir) :: removals wal kept levels)[j]? =
      some { sst := kept ++ (levels.drop j).map Level.file, wal := wal } := by
  induction levels generalizing j with
  | nil =>
    obtain rfl : j = 0 := Nat.le_zero.mp hj
    rfl
  | cons l levels ih =>
    cases j with
    | zero => rfl
    | succ j => exact ih (Nat.le_of_succ_le_succ hj)

/-- The directory when the merged table is complete and `j` of the old tables are removed. -/
theorem Stores.compaction_path (h : Stores K e levels) {j : Nat} (hj : j ≤ levels.length) :
    (e.path compactLocked)[(writeSSTable (mergedRun levels)).length + j]? = some
      { e.dir with sst := Level.file (e.nextSST, mergedRun levels) ::
          (levels.drop j).map Level.file } := by
  have hpath : e.path compactLocked = e.dir.partials e.nextSST (writeSSTable (mergedRun levels)) ++
      (e.dir.addTable e.nextSST (writeSSTable (mergedRun levels)) ::
        removals e.dir.wal [Level.file (e.nextSST, mergedRun levels)] levels) := by
    rw [Engine.path, h.compact_exec, Engine.compacted, List.append_assoc, List.append_assoc,
      List.drop_left]
    rfl
  have hlen : (e.dir.partials e.nextSST (writeSSTable (mergedRun levels))).length =
      (writeSSTable (mergedRun levels)).length := by
    rw [Dir.partials, List.length_map, List.length_range]
  rw [hpath, ← hlen, List.getElem?_append_right (Nat.le_add_right _ _), Nat.add_sub_cancel_left,
    Dir.addTable, h.files]
  exact removals_get e.dir.wal [Level.file (e.nextSST, mergedRun levels)] hj

theorem first_drop_none {key : Bytes} (h : first KvEntry.key key (levels.map Prod.snd) = none)
    (j : Nat) : first KvEntry.key key ((levels.map Prod.snd).drop j) = none := by
  rw [first, List.findSome?_eq_none_iff] at h ⊢
  intro run hrun
  exact h run (List.mem_of_mem_drop hrun)

/-- With some old tables behind the merged one, a key is answered as before unless it resurrects. -/
theorem Stores.view_partial (h : Stores K e levels) (j : Nat) (key : Bytes) :
    view e.mem ((e.nextSST, mergedRun levels) :: levels.drop j) key = view e.mem levels key ↔
      (e.mem.get key = none → ¬Resurrects levels j key) := by
  have hmerged := SortedRun.find_compact (k := key) KvEntry.tombstone h.answers.runs_sorted
  rw [view, List.map_cons, SortedRun.first_cons, SortedRun.first_cons, view, SortedRun.first_cons,
    Memtable.get]
  cases find KvEntry.key key e.mem.nodes with
  | some n =>
    simp
  | none =>
    show ((find KvEntry.key key (mergedRun levels)).or _).bind _ = _ ↔ _
    rw [mergedRun, hmerged]
    cases hfirst : first KvEntry.key key (levels.map Prod.snd) with
    | none => simp [Resurrects, hfirst, first_drop_none hfirst]
    | some t =>
      cases ht : t.tombstone with
      | false => simp [Resurrects, hfirst, ht, Option.filter]
      | true =>
        cases hold : first KvEntry.key key ((levels.map Prod.snd).drop j) with
        | none => simp [Resurrects, hfirst, hold, ht, Option.filter, KvEntry.live]
        | some x =>
          cases hx : x.tombstone with
          | false => simp [Resurrects, hfirst, hold, ht, hx, Option.filter, KvEntry.live]
          | true => simp [Resurrects, hfirst, hold, ht, hx, Option.filter, KvEntry.live]

/-- **When a crash inside a compaction is harmless.** The merged table is on disk and the `j` newest
    old tables are removed: the engine comes back with the same answers exactly if no key that only
    the tables know resurrects. -/
theorem compaction_crash_safe (h : Stores K e levels) (hw : e.dir.wal = some w)
    (hsynced : w.pending = []) (hjournal : Journal K w e.mem) {j : Nat} (hj : j ≤ levels.length) :
    ∃ d, (e.path compactLocked)[(writeSSTable (mergedRun levels)).length + j]? = some d ∧
      (Survives e d ↔ ∀ key, e.mem.get key = none → ¬Resurrects levels j key) := by
  refine ⟨_, h.compaction_path hj, ?_⟩
  have hnewest : ((e.nextSST, mergedRun levels) :: levels.drop j).Pairwise fun a b => b.1 < a.1 :=
    List.pairwise_cons.mpr ⟨fun l hl => h.fresh l (List.mem_of_mem_drop hl),
      h.newest.sublist (List.drop_sublist j levels)⟩
  have hruns : ∀ l ∈ (e.nextSST, mergedRun levels) :: levels.drop j, Run K l.2 := by
    intro l hl
    rcases List.mem_cons.mp hl with rfl | hl
    · exact h.compactedRun
    · exact h.runs l (List.mem_of_mem_drop hl)
  have hreplay : replayWAL replayPut e.dir.walBytes {} = .ok e.mem := by
    have hall := hjournal.replay
    rwa [hsynced, List.append_nil, show w.file = e.dir.walBytes by rw [Dir.walBytes, hw]; rfl] at hall
  refine (h.survives_iff (d := { e.dir with sst := _ }) rfl hnewest hruns fun w' hw' => ?_).trans ?_
  · rw [← Option.some.inj (hw.symm.trans hw'), hsynced]
  · have hiff := forall_congr' fun key => h.view_partial j key
    constructor
    · rintro ⟨m, hm, hview⟩
      obtain rfl := Except.ok.inj (hreplay.symm.trans hm)
      exact hiff.mp hview
    · exact fun hkeys => ⟨_, hreplay, hiff.mpr hkeys⟩

/-- A tombstone in a table of its own, over the entry it hides. -/
def shadowed : List Level := [(1, [⟨[107], [], true⟩]), (0, [⟨[107], [1], false⟩])]

def shadowedEngine : Engine :=
  { dir := { sst := shadowed.map Level.file, wal := some (openWAL []) }
    tables := shadowed.map Level.table
    nextSST := 2
    flushSize := 1
    syncWAL := true }

theorem shadowedEngine_stores : Stores {[107]} shadowedEngine shadowed := by
  refine ⟨by decide, rfl, rfl, ⟨_, rfl⟩, rfl, rfl, by decide, by decide, fun l hl => ?_, .empty⟩
  have hsorted : ∀ l ∈ shadowed, ∃ x, l.2 = [x] ∧ Small {[107]} x := by
    simp [shadowed, Small]
  obtain ⟨x, hx, hsmall⟩ := hsorted l hl
  rw [hx]
  exact ⟨List.pairwise_singleton _ _, fun y hy => by rw [List.mem_singleton.mp hy]; exact hsmall⟩

/-- With both old tables behind it the merged table is harmless; with the tombstone's table removed
    and the other one left the deleted key is back. -/
theorem compaction_crash_safe_shadowed :
    (∃ d, (shadowedEngine.path compactLocked)[(writeSSTable (mergedRun shadowed)).length + 0]? =
      some d ∧ Survives shadowedEngine d) ∧
    ∃ d, (shadowedEngine.path compactLocked)[(writeSSTable (mergedRun shadowed)).length + 1]? =
      some d ∧ ¬Survives shadowedEngine d := by
  obtain ⟨d, hd, hiff⟩ := compaction_crash_safe shadowedEngine_stores rfl rfl .empty (j := 0) (by decide)
  obtain ⟨d', hd', hiff'⟩ := compaction_crash_safe shadowedEngine_stores rfl rfl .empty (j := 1) (by decide)
  refine ⟨⟨d, hd, hiff.mpr ?_⟩, d', hd', fun hs => hiff'.mp hs [107] rfl ?_⟩
  · rintro key - ⟨⟨t, ht, hdead⟩, x, hx, hlive⟩
    rw [List.drop_zero, ht] at hx
    cases hx
    rw [hdead] at hlive
    cases hlive
  · exact ⟨⟨_, rfl, rfl⟩, _, rfl, rfl⟩

theorem ok_of_toOption {α ε : Type} {x : Except ε α} {a : α} (h : x.toOption = some a) :
    x = .ok a := by
  cases x with
  | error e => cases h
  | ok b =>
    cases h
    rfl

/-- Six writes, each in a table of its own: the next one starts a compaction. -/
def beforeCompaction : List EngineOp :=
  [.put [107] [1], .delete [107], .put [97] [], .put [97] [], .put [97] [], .put [97] []]

/-- **A deleted key reappears.** The seventh table is written and merged with the six others; the
    crash comes when only the oldest of them is left. -/
theorem deleted_key_reappears : ∃ e d e', runEngine { flushSize := 1 } beforeCompaction = .ok e ∧
    e.get [107] = .ok none ∧ d ∈ e.path (write [97] [] false) ∧
    openEngine {} (d.crash 0) = .ok e' ∧ e'.get [107] = .ok (some [1]) := by
  have heval : ((runEngine { flushSize := 1 } beforeCompaction).toOption.bind fun e =>
      (e.path (write [97] [] false))[106]?.bind fun d => (openEngine {} (d.crash 0)).toOption.map
        fun e' => decide (e.get [107] = .ok none ∧ e'.get [107] = .ok (some [1]))) = some true := by
    decide +kernel
  obtain ⟨e, hrun, heval⟩ := Option.bind_eq_some_iff.mp heval
  obtain ⟨d, hd, heval⟩ := Option.bind_eq_some_iff.mp heval
  obtain ⟨e', hopen, heval⟩ := Option.map_eq_some_iff.mp heval
  obtain ⟨hnone, hsome⟩ := of_decide_eq_true heval
  exact ⟨e, d, e', ok_of_toOption hrun, hnone, List.mem_of_getElem? hd, ok_of_toOption hopen, hsome⟩

end Compaction

/-! ## Flush -/

/-- Where a crash can come inside `flushLocked`, up to the new WAL. -/
inductive FlushPhase where
  /-- A proper prefix of the new table is on disk. -/
  | writing
  /-- The table is complete. -/
  | complete
  /-- The WAL is closed. -/
  | closed
  /-- The WAL file is removed. -/
  | removed
  /-- The new WAL is created. -/
  | created
  deriving DecidableEq, Repr

/-- The positions of a phase on the path of a flush that writes a table of `size` bytes. -/
def FlushPhase.steps (size : Nat) : FlushPhase → List Nat
  | writing => List.range size
  | complete => [size]
  | closed => [size + 1]
  | removed => [size + 2]
  | created => [size + 3]

/-- The WAL of before is still there. -/
def FlushPhase.hasWal : FlushPhase → Bool
  | removed => false
  | created => false
  | _ => true

/-- A replay of the WAL as it stands finds for every key what the engine answers, or nothing. -/
def Engine.WalAgrees (e : Engine) : Prop :=
  ∃ m, replayWAL replayPut e.dir.walBytes {} = .ok m ∧
    ∀ key n, m.get key = some n → e.get key = .ok n.live

section FlushCrash

variable {K : Finset Bytes} {e : Engine} {w : WAL} {levels : List Level}

/-- The directory with the new table, and what there is of the WAL. -/
def Engine.withFlushed (e : Engine) (wal : Option WAL) : Dir :=
  { sst := Level.file (e.nextSST, e.mem.nodes) :: e.dir.sst, wal := wal }

/-- The path of a flush: the table byte by byte, and then the WAL. -/
theorem Stores.flush_path (h : Stores K e levels) (hw : e.dir.wal = some w)
    (hne : e.mem.nodes ≠ []) : ∃ rest, e.path flushLocked =
      e.dir.partials e.nextSST (writeSSTable e.mem.nodes) ++
        ([some w, some w.sync, none, some (openWAL [])].map e.withFlushed ++ rest) := by
  have htrail : ∃ rest, (flushLocked.exec e).2.trail = (e.flushed w).trail ++ rest := by
    rw [h.flush_exec hw hne, exec_ite]
    split
    · rw [h.flushed.compact_exec]
      exact ⟨_, by rw [Engine.compacted, List.append_assoc, List.append_assoc]⟩
    · exact ⟨[], (List.append_nil _).symm⟩
  obtain ⟨rest, htrail⟩ := htrail
  refine ⟨rest, ?_⟩
  rw [Engine.path, htrail, Engine.flushed, List.append_assoc, List.append_assoc, List.drop_left]
  simp only [Dir.addTable, Engine.withFlushed, Level.file, List.map_cons, List.map_nil, hw]

theorem writeSSTable_length_pos (es : List KvEntry) : 0 < (writeSSTable es).length := by
  rw [writeSSTable, List.length_append, length_footer]
  omega

/-- What is replayed over the new table hides it, and nothing else does. -/
theorem view_over (m m' : Memtable) (seq : Nat) (levels : List Level) :
    (∀ key, view m ((seq, m'.nodes) :: levels) key = view m' levels key) ↔
      ∀ key n, m.get key = some n → n.live = view m' levels key := by
  refine forall_congr' fun key => ?_
  rw [view, List.map_cons, SortedRun.first_cons, Memtable.get]
  cases find KvEntry.key key m.nodes with
  | none => exact iff_of_true rfl fun n hn => by cases hn
  | some x => exact ⟨fun hview n hn => Option.some.inj hn ▸ hview, fun hview => hview x rfl⟩

/-- With the new table on disk it depends on the WAL that is left. -/
theorem Stores.survives_flushed (h : Stores K e levels) {wal : Option WAL}
    (hsynced : ∀ w, wal = some w → w.pending = []) :
    Survives e (e.withFlushed wal) ↔ ∃ m,
      replayWAL replayPut ((wal.map WAL.file).getD []) {} = .ok m ∧
        ∀ key n, m.get key = some n → e.get key = .ok n.live := by
  have hflushed := h.flushed (w := openWAL [])
  refine (h.survives_iff (d := e.withFlushed wal)
    (by rw [Engine.withFlushed, h.files]; exact (List.map_cons ..).symm) hflushed.newest
    hflushed.runs hsynced).trans (exists_congr fun m => and_congr_right fun _ => ?_)
  rw [view_over]
  refine forall_congr' fun key => forall_congr' fun n => imp_congr_right fun _ => ?_
  rw [h.get, Except.ok.injEq]
  exact eq_comm

/-- A file that is shorter than a footer keeps the engine from opening. -/
theorem Stores.torn (h : Stores K e levels) {n : Nat} (hn : n < 24) (opts : EngineOptions)
    (keep : Nat) :
    openEngine opts ((e.dir.withTable e.nextSST (writeSSTable e.mem.nodes) n).crash keep) =
      .error (.table e.nextSST .tooSmall) := by
  have hshort : ((writeSSTable e.mem.nodes).take n).length < 24 :=
    lt_of_le_of_lt (List.length_take_le _ _) hn
  have hkeep : (e.dir.sst.filter fun f => f.1 ≠ e.nextSST) = levels.map Level.file := by
    rw [List.filter_eq_self.mpr fun f hf => by simpa using h.new f hf, h.files]
  have hsorted : (((e.nextSST, (writeSSTable e.mem.nodes).take n) :: levels.map Level.file).insertionSort
      fun a b => a.1 ≥ b.1) =
        (e.nextSST, (writeSSTable e.mem.nodes).take n) :: levels.map Level.file := by
    refine List.Pairwise.insertionSort_eq (List.pairwise_cons.mpr ⟨fun f hf => ?_, ?_⟩)
    · obtain ⟨l, hl, rfl⟩ := List.mem_map.mp hf
      exact Nat.le_of_lt (h.fresh l hl)
    · exact List.pairwise_map.mpr (h.newest.imp fun hlt => Nat.le_of_lt hlt)
  have hopen : openSSTable e.nextSST ((writeSSTable e.mem.nodes).take n) = .error .tooSmall := by
    rw [openSSTable, if_pos hshort]
  rw [openEngine]
  show (loadTables (List.insertionSort _ (_ :: e.dir.sst.filter fun f => f.1 ≠ e.nextSST)) >>= _) = _
  rw [hkeep, hsorted, loadTables]
  simp only [hopen]
  rfl

/-- **When a crash inside a flush is harmless**: never in all of the phase that writes the table; while
    the old WAL is there, if a replay of it agrees with the engine; and always when it is removed. -/
theorem flush_crash_safe (h : Stores K e levels) (hsync : e.Synced) (hon : e.syncWAL = true)
    (hne : e.mem.nodes ≠ []) (p : FlushPhase) :
    (∀ i ∈ p.steps (writeSSTable e.mem.nodes).length,
      ∃ d, (e.path flushLocked)[i]? = some d ∧ Survives e d) ↔
      p ≠ .writing ∧ (p.hasWal = true → e.WalAgrees) := by
  obtain ⟨w, hw⟩ := h.wal
  obtain ⟨rest, hpath⟩ := h.flush_path hw hne
  have hpending : w.pending = [] := hsync hon w hw
  have hlen : (e.dir.partials e.nextSST (writeSSTable e.mem.nodes)).length =
      (writeSSTable e.mem.nodes).length := by
    rw [Dir.partials, List.length_map, List.length_range]
  have hafter : ∀ {k wal}, [some w, some w.sync, none, some (openWAL [])][k]? = some wal →
      (∀ w', wal = some w' → w'.pending = []) →
      ((∀ i ∈ [(writeSSTable e.mem.nodes).length + k],
        ∃ d, (e.path flushLocked)[i]? = some d ∧ Survives e d) ↔
        ∃ m, replayWAL replayPut ((wal.map WAL.file).getD []) {} = .ok m ∧
          ∀ key n, m.get key = some n → e.get key = .ok n.live) := by
    intro k wal hwal hsynced
    have hdir : (e.path flushLocked)[(writeSSTable e.mem.nodes).length + k]? =
        some (e.withFlushed wal) := by
      rw [hpath, ← hlen, List.getElem?_append_right (Nat.le_add_right _ _), Nat.add_sub_cancel_left]
      refine (List.getElem?_append_left ?_).trans ?_
      · rw [List.length_map]
        exact (List.getElem?_eq_some_iff.mp hwal).1
      · rw [List.getElem?_map, hwal]
        rfl
    rw [List.forall_mem_singleton, hdir, ← h.survives_flushed hsynced]
    exact ⟨fun hex => by obtain ⟨d, hd, hs⟩ := hex; rwa [Option.some.inj hd], fun hs => ⟨_, rfl, hs⟩⟩
  have hagrees : (∃ m, replayWAL replayPut w.file {} = .ok m ∧
      ∀ key n, m.get key = some n → e.get key = .ok n.live) ↔ e.WalAgrees := by
    rw [Engine.WalAgrees, show e.dir.walBytes = w.file by rw [Dir.walBytes, hw]; rfl]
  have hempty : ∃ m, replayWAL replayPut [] {} = .ok m ∧
      ∀ key n, m.get key = some n → e.get key = .ok n.live :=
    ⟨{}, rfl, fun key n hn => by cases hn⟩
  cases p with
  | writing =>
    -- the file is empty at first
    refine iff_of_false (fun hall => ?_) fun hp => hp.1 rfl
    obtain ⟨d, hd, hsurvives⟩ := hall 0 (List.mem_range.mpr (writeSSTable_length_pos _))
    have hzero : (e.path flushLocked)[0]? =
        some (e.dir.withTable e.nextSST (writeSSTable e.mem.nodes) 0) := by
      rw [hpath, List.getElem?_append_left (by rw [hlen]; exact writeSSTable_length_pos _),
        Dir.partials, List.getElem?_map, List.getElem?_range (writeSSTable_length_pos _)]
      rfl
    rw [hzero] at hd
    cases hd
    obtain ⟨e', hopen, -⟩ := hsurvives {} 0
    rw [h.torn (by decide)] at hopen
    cases hopen
  | complete =>
    refine ((hafter (k := 0) rfl ?_).trans hagrees).trans (by simp [FlushPhase.hasWal])
    rintro w' ⟨⟩
    exact hpending
  | closed =>
    have hfile : w.sync.file = w.file := by rw [WAL.sync, hpending, List.append_nil]
    refine ((hafter (k := 1) rfl ?_).trans ?_).trans (by simp [FlushPhase.hasWal] : e.WalAgrees ↔ _)
    · rintro w' ⟨⟩
      rfl
    · rw [Option.map_some, Option.getD_some, hfile]
      exact hagrees
  | removed =>
    refine (hafter (k := 2) rfl ?_).trans (iff_of_true hempty (by simp [FlushPhase.hasWal]))
    rintro w' ⟨⟩
  | created =>
    refine (hafter (k := 3) rfl ?_).trans (iff_of_true hempty (by simp [FlushPhase.hasWal]))
    rintro w' ⟨⟩
    rfl

/-- A WAL of whole frames agrees with the engine. -/
theorem Engine.Durable.walAgrees (hd : e.Durable K) (hon : e.syncWAL = true) : e.WalAgrees := by
  obtain ⟨w, hw, hj⟩ := hd.journal
  have hreplay := hj.replay
  rw [hd.synced hon w hw, List.append_nil] at hreplay
  refine ⟨e.mem, by rw [Dir.walBytes, hw]; exact hreplay, fun key n hn => ?_⟩
  rw [Engine.get, hn]

/-- A WAL with one pair, and what an earlier crash has left of the next record. -/
def tornDir : Dir :=
  { wal := some (openWAL (frame (encodeWALRecord [97] [1] false) ++ [0, 0, 0])) }

/-- That pair is read, and overwritten behind the torn record. -/
def overTorn : Engine :=
  ((write [97] [2] false).exec (openedEngine {} tornDir [] (({} : Memtable).put [97] [1] false))).2

theorem overTorn_stores : ∃ levels, Stores {[97]} overTorn levels := by
  have hsmall : ∀ v : UInt8, Small {[97]} ⟨[97], [v], false⟩ :=
    fun v => ⟨Finset.mem_singleton_self _, show 5 + 1 + 1 < 2 ^ 32 by decide⟩
  have hreplay : replayWAL replayPut tornDir.walBytes {} =
      .ok (({} : Memtable).put [97] [1] false) := by
    show replayWAL replayPut (frames [encodeWALRecord [97] [1] false] ++ [0, 0, 0]) {} = _
    rw [replayWAL_frames replayPut (by decide) rfl]
    exact replay_records (List.forall_mem_singleton.mpr (hsmall 1)) {}
  have hs : Stores {[97]} (openedEngine {} tornDir [] (({} : Memtable).put [97] [1] false)) [] :=
    (openEngine_stores {} (by decide) rfl .nil (List.forall_mem_nil _) hreplay
      (Run.empty.put (hsmall 1))).2
  obtain ⟨e', levels, hexec, hs', -⟩ := hs.write (hsmall 2)
  have hover : overTorn = e' := congrArg Prod.snd hexec
  exact ⟨levels, hover ▸ hs'⟩

/-- One pair in the memtable: every phase but the first is harmless. Over a torn WAL the phases are not
    in which it is still there: it would be replayed to the older value. -/
theorem flush_crash_safe_onePair :
    (∃ e, runEngine {} [.put [97] [1]] = .ok e ∧ ∀ p : FlushPhase,
      ((∀ i ∈ p.steps (writeSSTable e.mem.nodes).length,
        ∃ d, (e.path flushLocked)[i]? = some d ∧ Survives e d) ↔ p ≠ .writing)) ∧
    overTorn.get [97] = .ok (some [2]) ∧ ∀ p : FlushPhase,
      ((∀ i ∈ p.steps (writeSSTable overTorn.mem.nodes).length,
        ∃ d, (overTorn.path flushLocked)[i]? = some d ∧ Survives overTorn d) ↔
          p = .removed ∨ p = .created) := by
  constructor
  · have heval : ((runEngine {} [.put [97] [1]]).toOption.map fun e =>
        decide (e.syncWAL = true ∧ e.mem.nodes ≠ [])) = some true := by decide +kernel
    obtain ⟨e, levels, hrun, hs, hd, -⟩ :=
      runEngine_stores {} [.put [97] [1]] ⟨by decide, by decide⟩
    rw [hrun] at heval
    obtain ⟨hon, hne⟩ := of_decide_eq_true (Option.some.inj heval)
    refine ⟨e, hrun, fun p => (flush_crash_safe hs hd.synced hon hne p).trans ?_⟩
    exact and_iff_left fun _ => hd.walAgrees hon
  · obtain ⟨levels, hs⟩ := overTorn_stores
    have hget : overTorn.get [97] = .ok (some [2]) := by decide +kernel
    have hold : ((replayWAL replayPut overTorn.dir.walBytes {}).toOption.bind (·.get [97])) =
        some ⟨[97], [1], false⟩ := by decide +kernel
    have hno : ¬overTorn.WalAgrees := by
      rintro ⟨m, hreplay, hagree⟩
      rw [hreplay] at hold
      rw [hagree [97] _ hold] at hget
      cases hget
    have hsynced : overTorn.dir.wal.map WAL.pending = some [] := by decide +kernel
    have hsync : overTorn.Synced := by
      intro _ w hw
      rw [hw] at hsynced
      exact Option.some.inj hsynced
    refine ⟨hget, fun p => (flush_crash_safe hs hsync (by decide +kernel) (by decide +kernel) p).trans ?_⟩
    cases p <;> simp [FlushPhase.hasWal, hno]

/-- **A table that is cut short keeps the engine from opening**, whatever the WAL still holds. Here
    every proper prefix of the table does. -/
theorem torn_table_blocks_open : ∃ e, runEngine {} [.put [97] [1]] = .ok e ∧
    e.get [97] = .ok (some [1]) ∧ ∀ i < (writeSSTable e.mem.nodes).length,
      ∃ d, (e.path flushLocked)[i]? = some d ∧ ¬∃ e', openEngine {} (d.crash 0) = .ok e' := by
  have heval : ((runEngine {} [.put [97] [1]]).toOption.map fun e =>
      decide (e.get [97] = .ok (some [1]) ∧ ∀ i < (writeSSTable e.mem.nodes).length,
        (e.path flushLocked)[i]?.any fun d => (openEngine {} (d.crash 0)).toOption.isNone)) =
          some true := by decide +kernel
  obtain ⟨e, hrun, heval⟩ := Option.map_eq_some_iff.mp heval
  obtain ⟨hget, htorn⟩ := of_decide_eq_true heval
  refine ⟨e, ok_of_toOption hrun, hget, fun i hi => ?_⟩
  have hpath := htorn i hi
  cases hd : (e.path flushLocked)[i]? with
  | none =>
    rw [hd] at hpath
    cases hpath
  | some d =>
    rw [hd] at hpath
    refine ⟨d, rfl, ?_⟩
    rintro ⟨e', hopen⟩
    rw [Option.any_some, hopen] at hpath
    cases hpath

end FlushCrash

end Storage
end DistKV
