import DistKV.Storage.EngineFaults
import DistKV.Server.StateMachine

/-!
# What an error of the state machine leaves behind

`apply` and `restore` note a command or a table only after the engine has worked, so an error never
changes `lastSeq`. The engine is another matter. `Engine.write` reports the error of a flush after the
entry is in the WAL and in the memtable, and `Reset` has dropped the contents before its first
operation that can fail. So an error may leave a command carried out that is not noted as such, or a
part of a snapshot (`error_atomic_iff`, `apply_flush_fails`).

`Sound` is what holds between two calls, whichever of their file operations failed (`Sound.run`). A
call on an engine without a WAL handle panics, and returns no error.
-/

namespace DistKV
namespace Server

open Storage

/-- Every read and the table of the clients are as before. -/
structure Unchanged (sm sm' : StateMachine) : Prop where
  get : ∀ key, sm'.get key = sm.get key
  lastSeq : sm'.lastSeq = sm.lastSeq

inductive RestoreError where
  /-- The bytes are not those of a snapshot. -/
  | decode
  | engine (e : EngineError)
  deriving DecidableEq, Repr

/-- The pairs are those of a map and fit into the engine. -/
structure SnapshotState.Fits (K : Finset Bytes) (snap : SnapshotState) : Prop where
  small : ∀ p ∈ snap.data, Small K ⟨p.1, p.2, false⟩
  unique : (snap.data.map Prod.fst).Nodup

namespace StateMachine

/-- `restore` from the bytes, with the decoder that reads them. -/
def restoreBytes (decode : Bytes → Option SnapshotState) (sm : StateMachine) (snap : Bytes) :
    Except RestoreError Unit × StateMachine :=
  match decode snap with
  | none => (.error .decode, sm)
  | some st => let r := sm.restore st; (r.1.mapError .engine, r.2)

/-- Between two calls the engine answers from well-formed tables. -/
def Sound (K : Finset Bytes) (sm : StateMachine) : Prop := ∃ levels, Answers K sm.engine levels

/-- When an error of `apply` changes nothing: there is no error or no write, the record does not
    reach the WAL, the flush works or is not due, or the write makes no difference. -/
def SafeApply (sm : StateMachine) (c : Command) : Prop :=
  sm.duplicate c = true ∨ c.op.known = false ∨ sm.engine.dir.wal = none ∨ ¬sm.engine.Logs ∨
    sm.engine.Flushes c.entry ∨ sm.get c.key = .ok c.entry.live

/-- When an error of `restore` changes nothing: everything behind the removal of the tables works, or
    the pairs that are loaded before the error are the contents as they were. -/
def SafeRestore (sm : StateMachine) (snap : SnapshotState) : Prop :=
  sm.engine.dir.wal = none ∨
    (sm.engine.Rolls ∧
      Storage.Quiet (sm.engine.faults.drop (sm.engine.tables.length + 4)) (snap.data.length + 1)) ∨
    ∀ key, sm.get key = .ok ((snap.data.take sm.engine.loaded).lookup key)

variable {K : Finset Bytes} {sm : StateMachine} {levels : List Level} {c : Command}
  {snap : SnapshotState} {e' : Engine}

/-! ## `apply` -/

theorem execute_write (engine : Engine) (hop : c.op.known = true) :
    execute engine c =
      (((write c.entry.key c.entry.value c.entry.tombstone).exec engine).1.mapError .engine,
        ((write c.entry.key c.entry.value c.entry.tombstone).exec engine).2) := by
  cases hc : c.op with
  | put => simp only [execute, Command.entry, hc]
  | delete => simp only [execute, Command.entry, hc]
  | unknown name =>
    rw [hc] at hop
    cases hop

/-- An error of the engine is passed on, and nothing is noted. -/
theorem apply_error {x : EngineError} (hop : c.op.known = true) (hnew : sm.duplicate c = false)
    (hexec : (write c.entry.key c.entry.value c.entry.tombstone).exec sm.engine = (.error x, e')) :
    sm.apply c = (.error (.engine x), { sm with engine := e' }) := by
  rw [apply, if_neg (by rw [hnew]; exact Bool.false_ne_true), execute_write _ hop, hexec]
  rfl

theorem apply_ok {u : Unit} (hop : c.op.known = true) (hnew : sm.duplicate c = false)
    (hexec : (write c.entry.key c.entry.value c.entry.tombstone).exec sm.engine = (.ok u, e')) :
    sm.apply c = (.ok (), { engine := e', lastSeq := sm.noted c }) := by
  rw [apply, if_neg (by rw [hnew]; exact Bool.false_ne_true), execute_write _ hop, hexec]
  rfl

/-- A retry, an unknown operation and an engine without a handle change nothing at all. -/
theorem apply_idle (h : sm.duplicate c = true ∨ c.op.known = false ∨ sm.engine.dir.wal = none) :
    (sm.apply c).2 = sm := by
  rcases h with hdup | hop | hwal
  · rw [apply_duplicate hdup]
  · exact apply_unknown hop
  · cases hdup : sm.duplicate c with
    | true => rw [apply_duplicate hdup]
    | false =>
    cases hop : c.op.known with
    | false => exact apply_unknown hop
    | true => rw [apply_error hop hdup (write_nilWal hwal _ _ _)]

/-- Everything else is a write on an engine with a handle. -/
theorem not_idle (h : ¬(sm.duplicate c = true ∨ c.op.known = false ∨ sm.engine.dir.wal = none)) :
    sm.duplicate c = false ∧ c.op.known = true ∧ sm.engine.dir.wal.isSome = true := by
  simp only [not_or] at h
  obtain ⟨hdup, hop, hwal⟩ := h
  exact ⟨Bool.eq_false_iff.mpr hdup, (Bool.not_eq_false _).mp hop, Option.isSome_iff_ne_none.mpr hwal⟩

/-- The reads decide whether an engine that answers otherwise is a change. -/
theorem unchanged_iff {f : Contents} (h : Answers K sm.engine levels) (h' : Answering K f e') :
    Unchanged sm { sm with engine := e' } ↔ f = view sm.engine.mem levels := by
  obtain ⟨levels', hanswers, rfl⟩ := h'
  constructor
  · intro hsame
    funext key
    have hget := hsame.get key
    rw [get, get, hanswers.get, h.get] at hget
    exact Except.ok.inj hget
  · intro hview
    refine ⟨fun key => ?_, rfl⟩
    rw [get, get, hanswers.get, h.get, hview]

/-- **An error of `apply` changes nothing, or the command was carried out.** -/
theorem apply_unchanged_iff (h : Answers K sm.engine levels) (hfit : Small K c.entry) :
    (∀ x, (sm.apply c).1 = .error x → x ≠ .engine .nilWal → Unchanged sm (sm.apply c).2) ↔
      sm.SafeApply c := by
  rw [SafeApply, ← or_assoc, ← or_assoc, or_assoc (b := c.op.known = false)]
  by_cases hidle : sm.duplicate c = true ∨ c.op.known = false ∨ sm.engine.dir.wal = none
  · refine iff_of_true (fun x _ _ => ?_) (Or.inl hidle)
    rw [apply_idle hidle]
    exact ⟨fun _ => rfl, rfl⟩
  obtain ⟨hdup, hop, hwal⟩ := not_idle hidle
  rw [or_iff_right hidle]
  rcases write_cases h hwal hfit with ⟨hlogs, e', hexec, hsame⟩ | ⟨hlogs, n, hends⟩
  · -- the record has not reached the WAL, and the memtable was not touched
    rw [apply_error hop hdup hexec]
    refine iff_of_true (fun x _ _ => ?_) (Or.inl hlogs)
    exact (unchanged_iff h (h.answering_same hsame)).mpr rfl
  rw [or_iff_right (not_not_intro hlogs)]
  by_cases hflush : sm.engine.Flushes c.entry
  · obtain ⟨u, e', hexec, -, -⟩ := hends.works hflush
    rw [apply_ok hop hdup hexec]
    exact iff_of_true (fun x hx => by cases hx) (Or.inl hflush)
  · -- the flush has failed behind the write
    obtain ⟨e', hexec, hanswers⟩ := hends.fails hflush
    rw [apply_error hop hdup hexec, or_iff_right hflush, get, h.get, Except.ok.injEq]
    have hiff := unchanged_iff h hanswers
    rw [Function.update_eq_self_iff, c.entry_key] at hiff
    constructor
    · intro hunchanged
      exact (hiff.mp (hunchanged _ rfl fun habs => by cases habs)).symm
    · intro hlive x _ _
      exact hiff.mpr hlive.symm

/-! ## `restore` -/

theorem restore_error {x : EngineError} (hexec : (reset snap.data).exec sm.engine = (.error x, e')) :
    sm.restore snap = (.error x, { sm with engine := e' }) := by
  rw [restore, hexec]

theorem restore_ok {u : Unit} (hexec : (reset snap.data).exec sm.engine = (.ok u, e')) :
    sm.restore snap = (.ok (), { engine := e', lastSeq := snap.lastSeq }) := by
  rw [restore, hexec]

/-- **An error of `restore` leaves the pairs that were loaded.** -/
theorem restore_unchanged_iff (h : Answers K sm.engine levels) (hfit : snap.Fits K) :
    (∀ x, (sm.restore snap).1 = .error x → x ≠ .nilWal → Unchanged sm (sm.restore snap).2) ↔
      sm.SafeRestore snap := by
  cases hwal : sm.engine.dir.wal with
  | none =>
    obtain ⟨e', hexec, -⟩ := reset_nilWal hwal snap.data
    rw [restore_error hexec]
    exact iff_of_true (fun x hx hpanic => absurd (Except.error.inj hx).symm hpanic) (Or.inl hwal)
  | some w =>
  have hends := reset_ends h (by rw [hwal]; rfl) hfit.small hfit.unique
  have hsome : sm.engine.dir.wal ≠ none := by
    rw [hwal]
    exact Option.some_ne_none w
  rw [SafeRestore, or_iff_right hsome]
  by_cases hall : sm.engine.Rolls ∧
      Storage.Quiet (sm.engine.faults.drop (sm.engine.tables.length + 4)) (snap.data.length + 1)
  · obtain ⟨u, e', hexec, -, -⟩ := hends.works hall
    rw [restore_ok hexec]
    exact iff_of_true (fun x hx => by cases hx) (Or.inl hall)
  · obtain ⟨e', hexec, hanswers⟩ := hends.fails hall
    rw [restore_error hexec, or_iff_right hall]
    have hiff := unchanged_iff h hanswers
    constructor
    · intro hunchanged key
      rw [get, h.get, ← hiff.mp (hunchanged _ rfl fun habs => by cases habs)]
    · intro hsame x _ _
      refine hiff.mpr (funext fun key => ?_)
      have hkey := hsame key
      rw [get, h.get] at hkey
      exact (Except.ok.inj hkey).symm

/-! ## Runs -/

/-- A call, from the Raft log or from a snapshot. -/
inductive Call where
  | apply (c : Command)
  | restore (snap : SnapshotState)

def Call.Fits (K : Finset Bytes) : Call → Prop
  | .apply c => Small K c.entry
  | .restore snap => snap.Fits K

/-- One call, with the outcome of its file operations. -/
def call (sm : StateMachine) (faults : List (Option Nat)) : Call → StateMachine
  | .apply c => (apply { sm with engine := { sm.engine with faults := faults } } c).2
  | .restore snap => (restore { sm with engine := { sm.engine with faults := faults } } snap).2

/-- Calls one after the other, each with faults of its own. -/
def calls (sm : StateMachine) (cs : List (List (Option Nat) × Call)) : StateMachine :=
  cs.foldl (fun sm p => sm.call p.1 p.2) sm

theorem Sound.apply (h : sm.Sound K) (hfit : Small K c.entry) : (sm.apply c).2.Sound K := by
  by_cases hidle : sm.duplicate c = true ∨ c.op.known = false ∨ sm.engine.dir.wal = none
  · rw [apply_idle hidle]
    exact h
  obtain ⟨levels, h⟩ := h
  obtain ⟨hdup, hop, hwal⟩ := not_idle hidle
  rcases write_cases h hwal hfit with ⟨-, e', hexec, hsame⟩ | ⟨-, n, hends⟩
  · rw [apply_error hop hdup hexec]
    exact ⟨levels, h.same hsame⟩
  by_cases hflush : sm.engine.Flushes c.entry
  · obtain ⟨u, e', hexec, -, levels', hanswers, -⟩ := hends.works hflush
    rw [apply_ok hop hdup hexec]
    exact ⟨levels', hanswers⟩
  · obtain ⟨e', hexec, levels', hanswers, -⟩ := hends.fails hflush
    rw [apply_error hop hdup hexec]
    exact ⟨levels', hanswers⟩

theorem Sound.restore (h : sm.Sound K) (hfit : snap.Fits K) : (sm.restore snap).2.Sound K := by
  obtain ⟨levels, h⟩ := h
  cases hwal : sm.engine.dir.wal with
  | none =>
    obtain ⟨e', hexec, htables, hmem⟩ := reset_nilWal hwal snap.data
    rw [restore_error hexec]
    refine ⟨[], h.room, htables, List.forall_mem_nil _, ?_⟩
    show Run K e'.mem.nodes
    rw [hmem]
    exact ⟨List.Pairwise.nil, List.forall_mem_nil _⟩
  | some w =>
  have hends := reset_ends h (by rw [hwal]; rfl) hfit.small hfit.unique
  by_cases hall : sm.engine.Rolls ∧
      Storage.Quiet (sm.engine.faults.drop (sm.engine.tables.length + 4)) (snap.data.length + 1)
  · obtain ⟨u, e', hexec, -, levels', hanswers, -⟩ := hends.works hall
    rw [restore_ok hexec]
    exact ⟨levels', hanswers⟩
  · obtain ⟨e', hexec, levels', hanswers, -⟩ := hends.fails hall
    rw [restore_error hexec]
    exact ⟨levels', hanswers⟩

/-- The outcome of the file operations to come is no part of the tables. -/
theorem Sound.faults (h : sm.Sound K) (faults : List (Option Nat)) :
    Sound K { sm with engine := { sm.engine with faults := faults } } := by
  obtain ⟨levels, h⟩ := h
  exact ⟨levels, h.room, h.tables, h.runs, h.mem⟩

theorem Sound.call (h : sm.Sound K) (faults : List (Option Nat)) {op : Call} (hfit : op.Fits K) :
    (sm.call faults op).Sound K := by
  cases op with
  | apply c => exact (h.faults faults).apply hfit
  | restore snap => exact (h.faults faults).restore hfit

/-- **Calls keep the engine sound, whatever fails in them.** -/
theorem Sound.run (h : sm.Sound K) {cs : List (List (Option Nat) × Call)}
    (hfit : ∀ p ∈ cs, p.2.Fits K) : (sm.calls cs).Sound K := by
  induction cs generalizing sm with
  | nil => exact h
  | cons p cs ih =>
    obtain ⟨hp, hcs⟩ := List.forall_mem_cons.mp hfit
    exact ih (h.call p.1 hp) hcs

/-! ## Errors -/

/-- **When an error leaves everything as it was.** For every state that calls lead to, whatever
    fails, and for bytes that may be no snapshot at all. -/
theorem error_atomic_iff (h : sm.Sound K) (decode : Bytes → Option SnapshotState) :
    (∀ c : Command, Small K c.entry →
      ((∀ x, (sm.apply c).1 = .error x → x ≠ .engine .nilWal → Unchanged sm (sm.apply c).2) ↔
        sm.SafeApply c)) ∧
    ∀ bytes : Bytes, (∀ st, decode bytes = some st → st.Fits K) →
      ((∀ x, (sm.restoreBytes decode bytes).1 = .error x → x ≠ .engine .nilWal →
        Unchanged sm (sm.restoreBytes decode bytes).2) ↔
      ∀ st, decode bytes = some st → sm.SafeRestore st) := by
  obtain ⟨levels, h⟩ := h
  refine ⟨fun c hfit => apply_unchanged_iff h hfit, fun bytes hdecode => ?_⟩
  cases hbytes : decode bytes with
  | none =>
    rw [restoreBytes, hbytes]
    exact iff_of_true (fun _ _ _ => ⟨fun _ => rfl, rfl⟩) fun st hst => by cases hst
  | some st =>
    have hiff := restore_unchanged_iff h (hdecode st hbytes)
    have hone : (∀ st', some st = some st' → sm.SafeRestore st') ↔ sm.SafeRestore st :=
      ⟨fun hsafe => hsafe st rfl, fun hsafe st' hst => Option.some.inj hst ▸ hsafe⟩
    rw [hone, ← hiff, restoreBytes, hbytes]
    show (∀ x, (sm.restore st).1.mapError RestoreError.engine = .error x → _ → _) ↔ _
    cases hr : (sm.restore st).1 with
    | ok u => exact iff_of_true (fun x hx => by cases hx) fun x hx => by cases hx
    | error y =>
      constructor
      · intro hunchanged x hx hpanic
        rw [Except.error.inj hx] at hunchanged
        exact hunchanged _ rfl fun habs => hpanic (RestoreError.engine.inj habs)
      · intro hunchanged x hx hpanic
        refine hunchanged y rfl fun habs => hpanic ?_
        rw [← Except.error.inj hx, habs]

/-- A new replica, whose file operations end as `faults` says. -/
def fresh (flushSize : Nat) (faults : List (Option Nat)) : StateMachine :=
  { engine := { dir := { wal := some (openWAL []) }, flushSize := flushSize, syncWAL := true
                faults := faults } }

theorem fresh_sound (flushSize : Nat) (faults : List (Option Nat)) :
    (fresh flushSize faults).Sound {[1], [2]} :=
  ⟨[], by decide, rfl, List.forall_mem_nil _, List.Pairwise.nil, List.forall_mem_nil _⟩

/-- A replica that holds one pair. -/
def onePair (faults : List (Option Nat)) : StateMachine :=
  let sm := ((fresh 100 []).apply ⟨.put, [1], [7], [65], 1⟩).2
  { sm with engine := { sm.engine with faults := faults } }

theorem onePair_sound (faults : List (Option Nat)) : (onePair faults).Sound {[1], [2]} :=
  ((fresh_sound 100 []).apply ⟨by decide, by decide⟩).faults faults

theorem onePair_get (faults : List (Option Nat)) (key : Bytes) :
    (onePair faults).get key = .ok (List.lookup key [([1], [7])]) := by
  by_cases hkey : key = [1]
  · subst hkey
    rfl
  · have hmem : (onePair faults).engine.mem.get key = none := by
      show SortedRun.find KvEntry.key key [⟨[1], [7], false⟩] = none
      simp [SortedRun.find, Ne.symm hkey]
    rw [get, Engine.get, hmem, List.lookup_cons, beq_false_of_ne hkey]
    rfl

/-- The types of a `snapshotState`, as `gob` describes them ahead of the first value. -/
def snapshotTypes : Bytes :=
  [50, 255, 131, 3, 1, 1, 13, 115, 110, 97, 112, 115, 104, 111, 116, 83, 116, 97, 116, 101, 1, 255,
   132, 0, 1, 2, 1, 4, 68, 97, 116, 97, 1, 255, 134, 0, 1, 7, 76, 97, 115, 116, 83, 101, 113, 1,
   255, 136, 0, 0, 0, 34, 255, 133, 4, 1, 1, 18, 109, 97, 112, 91, 115, 116, 114, 105, 110, 103, 93,
   91, 93, 117, 105, 110, 116, 56, 1, 255, 134, 0, 1, 12, 1, 10, 0, 0, 33, 255, 135, 4, 1, 1, 17,
   109, 97, 112, 91, 115, 116, 114, 105, 110, 103, 93, 117, 105, 110, 116, 54, 52, 1, 255, 136, 0,
   1, 12, 1, 6, 0, 0]

/-- The `gob` of a snapshot with two pairs and no clients. -/
def twoPairs : Bytes :=
  snapshotTypes ++ [15, 255, 132, 1, 2, 1, 1, 1, 7, 1, 2, 1, 8, 1, 0, 0]

def decodeTwoPairs (bytes : Bytes) : Option SnapshotState :=
  if bytes = twoPairs then some ⟨[([1], [7]), ([2], [8])], fun _ => 0⟩ else none

/-- A second write whose WAL record fails, and a reset that fails behind the one pair the replica and
    the snapshot have in common. -/
theorem error_atomic_iff_onePair :
    Unchanged (onePair [some 0]) ((onePair [some 0]).apply ⟨.put, [2], [8], [65], 2⟩).2 ∧
    Unchanged (onePair [none, none, none, none, none, some 0])
      ((onePair [none, none, none, none, none, some 0]).restoreBytes decodeTwoPairs twoPairs).2 := by
  have hfits : ∀ st, decodeTwoPairs twoPairs = some st → st.Fits {[1], [2]} := by
    intro st hst
    obtain rfl : (⟨[([1], [7]), ([2], [8])], fun _ => 0⟩ : SnapshotState) = st := Option.some.inj hst
    refine ⟨?_, by decide⟩
    simp only [List.forall_mem_cons]
    exact ⟨⟨by decide, by decide⟩, ⟨by decide, by decide⟩, List.forall_mem_nil _⟩
  constructor
  · refine ((error_atomic_iff (onePair_sound [some 0]) decodeTwoPairs).1
      ⟨.put, [2], [8], [65], 2⟩ ⟨by decide, by decide⟩).mpr ?_ (.engine .io) rfl (by decide)
    exact Or.inr (Or.inr (Or.inr (Or.inl fun hlogs => absurd hlogs.1 (by decide))))
  · refine ((error_atomic_iff (onePair_sound _) decodeTwoPairs).2 twoPairs hfits).mpr
      (fun st hst => ?_) (.engine .io) rfl (by decide)
    obtain rfl : (⟨[([1], [7]), ([2], [8])], fun _ => 0⟩ : SnapshotState) = st := Option.some.inj hst
    exact Or.inr (Or.inr (onePair_get _))

/-- The first write of a replica, and the table it is flushed to cannot be written: the error tells
    of a command that was carried out, and the table of the clients does not know it. -/
theorem apply_flush_fails : ∃ sm : StateMachine, ∃ c : Command, sm.Sound {[1], [2]} ∧
    (sm.apply c).1 = .error (.engine .io) ∧ sm.get c.key = .ok none ∧
    (sm.apply c).2.get c.key = .ok (some c.value) ∧ (sm.apply c).2.lastSeq c.clientID < c.seq :=
  ⟨fresh 1 [none, none, some 0], ⟨.put, [1], [7], [65], 1⟩, fresh_sound _ _, rfl, rfl, rfl, by decide⟩

end StateMachine

end Server
end DistKV
