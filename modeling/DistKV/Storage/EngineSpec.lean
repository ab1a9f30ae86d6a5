import DistKV.Storage.Engine
import DistKV.Storage.TableFormat

/-!
# What the engine's operations do when no file operation fails

One equation for each operation, with the directories it goes through. `EngineRefines.lean` relates
the engine to its abstract state, a memtable and a list of runs, by means of them.
-/

namespace DistKV
namespace Storage

open SortedRun (Increasing find first)

/-! ## Running -/

section Exec

variable {α β : Type} {e : Engine}

@[simp] theorem exec_pure (a : α) : (pure a : EngineM α).exec e = (.ok a, e) := rfl

@[simp] theorem exec_bind (m : EngineM α) (f : α → EngineM β) : (m >>= f).exec e =
    match m.exec e with
    | (.ok a, e') => (f a).exec e'
    | (.error x, e') => (.error x, e') := by
  show EngineM.exec (ExceptT.bind m f) e = _
  unfold EngineM.exec
  simp only [ExceptT.bind, ExceptT.run, ExceptT.mk, StateT.run, bind, StateT.bind]
  cases h : m e with
  | mk r e' =>
    cases r with
    | ok a => rfl
    | error x => rfl

/-- A step that works. -/
theorem exec_then {m : EngineM α} {f : α → EngineM β} {e' : Engine} {a : α}
    (h : m.exec e = (.ok a, e')) : (m >>= f).exec e = (f a).exec e' := by
  rw [exec_bind, h]

@[simp] theorem exec_get : (get : EngineM Engine).exec e = (.ok e, e) := rfl

@[simp] theorem exec_modify (f : Engine → Engine) :
    (modify f : EngineM PUnit).exec e = (.ok (), f e) := rfl

@[simp] theorem exec_tryCatch (m : EngineM α) (handler : EngineError → EngineM α) :
    (tryCatch m handler).exec e =
      match m.exec e with
      | (.ok a, e') => (.ok a, e')
      | (.error x, e') => (handler x).exec e' := by
  show EngineM.exec (ExceptT.tryCatch m handler) e = _
  unfold EngineM.exec
  simp only [ExceptT.tryCatch, ExceptT.run, ExceptT.mk, StateT.run, bind, StateT.bind]
  cases h : m e with
  | mk r e' =>
    cases r with
    | ok a => rfl
    | error x => rfl

@[simp] theorem exec_ite (c : Prop) [Decidable c] (m m' : EngineM α) :
    (if c then m else m').exec e = if c then m.exec e else m'.exec e := by
  split
  · rfl
  · rfl

end Exec

/-! ## File operations that do not fail -/

/-- The engine after the directory has changed. -/
def Engine.moved (e : Engine) (d : Dir) : Engine := { e with dir := d, trail := e.trail ++ [d] }

/-- Nothing fails, and the WAL is open. -/
structure Calm (e : Engine) (w : WAL) : Prop where
  faults : e.faults = []
  opened : e.opened = true
  wal : e.dir.wal = some w

section Calm

variable {e : Engine} {w : WAL}

theorem nextFault_calm (h : e.faults = []) : nextFault.exec e = (.ok none, e) := by
  simp [nextFault, h]

theorem io_calm (h : e.faults = []) : io.exec e = (.ok (), e) := by
  simp [io, nextFault_calm h]

theorem touch_exec (change : Dir → Dir) : (touch change).exec e = (.ok (), e.moved (change e.dir)) :=
  rfl

theorem walHandle_calm (h : e.dir.wal = some w) : walHandle.exec e = (.ok w, e) := by
  simp [walHandle, h]

theorem walAppend_calm (h : Calm e w) (payload : Bytes) : (walAppend payload).exec e =
    (.ok (), e.moved { e.dir with wal := some (w.append payload) }) := by
  simp [walAppend, walHandle_calm h.wal, io_calm h.faults, touch_exec]

theorem walSync_calm (h : Calm e w) :
    walSync.exec e = (.ok (), e.moved { e.dir with wal := some w.sync }) := by
  simp [walSync, walHandle_calm h.wal, io_calm h.faults, touch_exec, h.opened]

theorem walClose_calm (h : Calm e w) : walClose.exec e =
    (.ok (), { e.moved { e.dir with wal := some w.sync } with opened := false }) := by
  have hio : io.exec { e.moved { e.dir with wal := some w.sync } with opened := false } =
      (.ok (), { e.moved { e.dir with wal := some w.sync } with opened := false }) :=
    io_calm h.faults
  simp [walClose, walSync_calm h, hio]

theorem walRemove_calm (h : e.faults = []) :
    walRemove.exec e = (.ok (), e.moved { e.dir with wal := none }) := by
  simp [walRemove, io_calm h, touch_exec]

theorem walOpen_calm (h : e.faults = []) : walOpen.exec e =
    (.ok (), { e.moved { e.dir with wal := some (openWAL ((e.dir.wal.map WAL.file).getD [])) } with
      opened := true }) := by
  simp [walOpen, io_calm h, touch_exec]

/-- The states of a directory while a table is written. -/
def Dir.partials (d : Dir) (seq : Nat) (bytes : Bytes) : List Dir :=
  (List.range bytes.length).map (d.withTable seq bytes)

/-- The directory with one more table. -/
def Dir.addTable (d : Dir) (seq : Nat) (bytes : Bytes) : Dir :=
  { d with sst := (seq, bytes) :: d.sst }

theorem Dir.withTable_whole {d : Dir} {seq : Nat} (bytes : Bytes) (h : ∀ f ∈ d.sst, f.1 ≠ seq) :
    d.withTable seq bytes bytes.length = d.addTable seq bytes := by
  have hkeep : (d.sst.filter fun f => f.1 ≠ seq) = d.sst :=
    List.filter_eq_self.mpr fun f hf => by simpa using h f hf
  rw [Dir.withTable, hkeep, List.take_length, Dir.addTable]

/-- The engine after a table has been written. -/
def Engine.wrote (e : Engine) (seq : Nat) (es : List KvEntry) : Engine :=
  { e with
    dir := e.dir.addTable seq (writeSSTable es)
    trail := e.trail ++ e.dir.partials seq (writeSSTable es) ++
      [e.dir.addTable seq (writeSSTable es)] }

theorem writeTable_calm (h : e.faults = []) {seq : Nat} (hnew : ∀ f ∈ e.dir.sst, f.1 ≠ seq)
    (es : List KvEntry) : (writeTable seq es).exec e = (.ok (), e.wrote seq es) := by
  simp [writeTable, nextFault_calm h, touch_exec, Engine.moved, Dir.withTable_whole _ hnew,
    Dir.partials, Engine.wrote]

theorem openTable_calm (h : e.faults = []) {es : List KvEntry} (hfits : Fits es) (seq : Nat) :
    (openTable seq).exec (e.wrote seq es) = (.ok (tableOf seq es), e.wrote seq es) := by
  have hlookup : (e.wrote seq es).dir.sst.lookup seq = some (writeSSTable es) := by
    rw [Engine.wrote, Dir.addTable, List.lookup_cons, beq_self_eq_true]
  rw [openTable, exec_then (io_calm (by exact h)), exec_then exec_get, hlookup]
  simp only [openSSTable_writeSSTable hfits, exec_pure]

theorem removeTable_calm (h : e.faults = []) (t : SSTable) : (removeTable t).exec e =
    (.ok (), e.moved { e.dir with sst := e.dir.sst.filter fun f => f.1 ≠ t.seq }) := by
  simp [removeTable, nextFault_calm h, touch_exec]

end Calm

/-! ## Levels -/

/-- A table by its number and its run. -/
abbrev Level := Nat × List KvEntry

def Level.table (l : Level) : SSTable := tableOf l.1 l.2

def Level.file (l : Level) : Nat × Bytes := (l.1, writeSSTable l.2)

/-- The key is one of `K`, and the WAL record of the entry fits its length field. -/
def Small (K : Finset Bytes) (x : KvEntry) : Prop :=
  x.key ∈ K ∧ 5 + x.key.length + x.value.length < 2 ^ 32

/-- Runs that can be levels of an engine with the keys `K`. -/
structure Run (K : Finset Bytes) (run : List KvEntry) : Prop where
  sorted : Increasing KvEntry.key run
  small : ∀ x ∈ run, Small K x

section Levels

variable {K : Finset Bytes} {run : List KvEntry} {levels : List Level}

theorem Run.length_le (h : Run K run) : run.length ≤ K.card := by
  have hnodup : (run.map KvEntry.key).Nodup :=
    List.pairwise_map.mpr (h.sorted.imp fun hlt => ne_of_lt hlt)
  have hsub : (run.map KvEntry.key).toFinset ⊆ K := by
    intro k hk
    obtain ⟨x, hx, rfl⟩ := List.mem_map.mp (List.mem_toFinset.mp hk)
    exact (h.small x hx).1
  calc run.length = (run.map KvEntry.key).toFinset.card := by
        rw [List.toFinset_card_of_nodup hnodup, List.length_map]
    _ ≤ K.card := Finset.card_le_card hsub

theorem sparseIndex_length_le (i off : Nat) (es : List KvEntry) :
    (sparseIndex i off es).length ≤ es.length := by
  have hsub := (sparseIndex_sublist i off es).length_le
  rwa [List.length_map, List.length_map] at hsub

theorem dataBlock_length_le (h : ∀ x ∈ run, Small K x) :
    (dataBlock run).length ≤ run.length * (2 ^ 32 + 4) := by
  induction run with
  | nil => exact Nat.zero_le _
  | cons x run ih =>
    have hx := (h x List.mem_cons_self).2
    have hrest := ih fun y hy => h y (List.mem_cons_of_mem _ hy)
    rw [dataBlock_cons, List.length_append, length_record, List.length_cons, Nat.add_mul]
    omega

theorem Run.fits (h : Run K run) (hroom : K.card < 2 ^ 30) : Fits run := by
  have hlen := Nat.lt_of_le_of_lt h.length_le hroom
  refine ⟨fun e he => ?_, ?_, ?_⟩
  · have hsmall := (h.small e he).2
    omega
  · have hdata := dataBlock_length_le h.small
    have hmul : run.length * (2 ^ 32 + 4) ≤ 2 ^ 30 * (2 ^ 32 + 4) :=
      Nat.mul_le_mul_right _ (Nat.le_of_lt hlen)
    omega
  · have hindex := sparseIndex_length_le 0 0 run
    omega

theorem Run.compact {runs : List (List KvEntry)} (h : ∀ run ∈ runs, Run K run) :
    Run K ((SortedRun.merge KvEntry.key runs).filter fun en => !en.tombstone) := by
  refine ⟨Increasing.filter _ (.merge fun run hrun => (h run hrun).sorted), fun x hx => ?_⟩
  obtain ⟨run, hrun, hmem⟩ := SortedRun.mem_merge (List.mem_of_mem_filter hx)
  exact (h run hrun).small x hmem

/-- The tables answer as the runs do. -/
theorem lookup_levels (hroom : K.card < 2 ^ 30) (h : ∀ l ∈ levels, Run K l.2) (key : Bytes) :
    lookup (levels.map Level.table) key = .ok (first KvEntry.key key (levels.map Prod.snd)) := by
  induction levels with
  | nil => rfl
  | cons l levels ih =>
    have hl := h l List.mem_cons_self
    rw [List.map_cons, lookup, Level.table, get_tableOf (hl.fits hroom) hl.sorted, List.map_cons,
      SortedRun.first_cons]
    cases find KvEntry.key key l.2 with
    | some e => rfl
    | none => exact ih fun l' hl' => h l' (List.mem_cons_of_mem _ hl')

theorem mergeTables_calm {e : Engine} (hf : e.faults = []) (hroom : K.card < 2 ^ 30)
    (h : ∀ l ∈ levels, Run K l.2) : (mergeTables (levels.map Level.table)).exec e =
      (.ok (SortedRun.merge KvEntry.key (levels.map Prod.snd)), e) := by
  induction levels with
  | nil => rfl
  | cons l levels ih =>
    have hl := h l List.mem_cons_self
    rw [List.map_cons, mergeTables, exec_then (ih fun l' hl' => h l' (List.mem_cons_of_mem _ hl')),
      exec_then (io_calm hf), Level.table, all_tableOf (hl.fits hroom)]
    rfl

/-- The directories `os.Remove` goes through, one table after the other. -/
def removals (wal : Option WAL) (kept : List (Nat × Bytes)) : List Level → List Dir
  | [] => []
  | _ :: levels => { sst := kept ++ levels.map Level.file, wal := wal } :: removals wal kept levels

theorem removeTables_calm {e : Engine} {kept : List (Nat × Bytes)} (hf : e.faults = [])
    (hsst : e.dir.sst = kept ++ levels.map Level.file)
    (hnewest : levels.Pairwise fun a b => b.1 < a.1)
    (hkept : ∀ f ∈ kept, ∀ l ∈ levels, f.1 ≠ l.1) :
    ((levels.map Level.table).forM removeTable).exec e =
      (.ok (), { e with dir := { e.dir with sst := kept }
                        trail := e.trail ++ removals e.dir.wal kept levels }) := by
  induction levels generalizing e with
  | nil =>
    rw [List.map_nil, List.append_nil] at hsst
    rw [removals, List.append_nil, ← hsst]
    rfl
  | cons l levels ih =>
    obtain ⟨hl, hnewest⟩ := List.pairwise_cons.mp hnewest
    have hfilter : (e.dir.sst.filter fun f => f.1 ≠ (Level.table l).seq) =
        kept ++ levels.map Level.file := by
      have hrest : ∀ f ∈ kept ++ levels.map Level.file, decide (f.1 ≠ l.1) = true := by
        intro f hmem
        rw [decide_eq_true_eq]
        rcases List.mem_append.mp hmem with hmem | hmem
        · exact hkept f hmem l List.mem_cons_self
        · obtain ⟨l', hl', rfl⟩ := List.mem_map.mp hmem
          exact ne_of_lt (hl l' hl')
      obtain ⟨hk, ht⟩ := List.forall_mem_append.mp hrest
      have hself : decide ((Level.file l).1 ≠ l.1) = false := decide_eq_false fun hne => hne rfl
      rw [hsst, List.map_cons, List.filter_append]
      show kept.filter (fun f => decide (f.1 ≠ l.1)) ++
        (Level.file l :: levels.map Level.file).filter (fun f => decide (f.1 ≠ l.1)) = _
      rw [List.filter_cons, hself, List.filter_eq_self.mpr hk, List.filter_eq_self.mpr ht]
      rfl
    show (removeTable (Level.table l) >>= fun _ =>
      (levels.map Level.table).forM removeTable).exec e = _
    rw [exec_then (removeTable_calm hf _), hfilter,
      ih (by exact hf) rfl hnewest fun f hmem l' hl' => hkept f hmem l' (List.mem_cons_of_mem _ hl')]
    simp only [Engine.moved, removals, List.append_assoc, List.cons_append, List.nil_append]

end Levels

end Storage
end DistKV
