import DistKV.Lib.Overwrite
import DistKV.Server.Dedup
import DistKV.Storage.LongValue

/-!
# What the state machine is for

A map from keys to values, and the table of the retries. A command that is carried out is one write to
the map and one to the table (`Kv.apply`); a snapshot is the pair itself. `StateMachine.Holds` says that
a state machine on an engine in good order is such a pair, and the lemmas below that `apply`,
`snapshot` and `restore` go along with it. What is proved of runs of `Kv` is so proved of the engine.
-/

namespace DistKV
namespace Server

open Storage

structure Kv where
  map : Contents := fun _ => none
  last : Bytes → Nat := fun _ => 0

namespace Kv

/-- Is the command carried out? -/
def carries (last : Bytes → Nat) (c : Command) : Bool :=
  !decide (c.clientID ≠ [] ∧ c.seq > 0 ∧ last c.clientID ≥ c.seq) && c.op.known

/-- The write of a command. -/
def write? (last : Bytes → Nat) (c : Command) : Option (Bytes × Option Bytes) :=
  if carries last c then some (c.key, c.entry.live) else none

/-- The table after a command. -/
def note (last : Bytes → Nat) (c : Command) : Bytes → Nat :=
  if carries last c ∧ c.clientID ≠ [] then Function.update last c.clientID c.seq else last

def apply (s : Kv) (c : Command) : Kv :=
  { map := Overwrite.put s.map (write? s.last c), last := note s.last c }

def run (s : Kv) (cs : List Command) : Kv := cs.foldl apply s

/-- A command that is not carried out changes nothing. -/
theorem apply_idle {s : Kv} {c : Command} (h : carries s.last c = false) : s.apply c = s := by
  simp only [apply, write?, note, h, Overwrite.put, Bool.false_eq_true, if_false, false_and]

end Kv

/-- The state machine has the map in its engine, and the table. -/
structure StateMachine.Holds (K : Finset Bytes) (sm : StateMachine) (s : Kv) : Prop where
  stored : ∃ levels, Stores K sm.engine levels ∧ view sm.engine.mem levels = s.map
  table : sm.lastSeq = s.last

/-- The snapshot has the pairs of the map, and the table. -/
structure SnapshotState.Saves (K : Finset Bytes) (snap : SnapshotState) (s : Kv) : Prop where
  unique : (snap.data.map Prod.fst).Nodup
  small : ∀ p ∈ snap.data, Small K ⟨p.1, p.2, false⟩
  pairs : (fun key => snap.data.lookup key) = s.map
  table : snap.lastSeq = s.last

/-- The commands of a run. -/
def Event.command? : Event → Option Command
  | .apply c => some c
  | .transfer _ => none

theorem filterMap_apply (cs : List Command) : (cs.map Event.apply).filterMap Event.command? = cs := by
  rw [List.filterMap_map]
  exact List.filterMap_some

namespace StateMachine

variable {K : Finset Bytes} {sm : StateMachine} {s : Kv} {c : Command} {engine : Engine}
  {levels : List Level} {snap : SnapshotState} {e : Event} {events : List Event}

theorem Holds.executes (h : sm.Holds K s) : sm.executes c = Kv.carries s.last c := by
  rw [StateMachine.executes, duplicate, Kv.carries, h.table]

theorem Holds.get (h : sm.Holds K s) (key : Bytes) : sm.get key = .ok (s.map key) := by
  obtain ⟨levels, hs, hv⟩ := h.stored
  rw [StateMachine.get, hs.get, hv]

/-- An engine without a table holds its own contents. -/
theorem Holds.opened (h : Stores K engine levels) :
    Holds K { engine := engine } { map := view engine.mem levels } :=
  ⟨⟨levels, h, rfl⟩, rfl⟩

theorem Holds.fresh (hroom : K.card < 2 ^ 30) : Holds K { engine := freshEngine } {} :=
  .opened (freshEngine_stores hroom)

/-- **A command.** -/
theorem Holds.apply (h : sm.Holds K s) (hfit : Small K c.entry) :
    (sm.apply c).2.Holds K (s.apply c) := by
  have hexec := h.executes (c := c)
  cases hc : Kv.carries s.last c with
  | false =>
    -- a retry or an operation that is refused: nothing changes
    have hsame : (sm.apply c).2 = sm := by
      rw [hc, StateMachine.executes, Bool.and_eq_false_iff] at hexec
      rcases hexec with hdup | hop
      · rw [apply_duplicate (by simpa using hdup)]
      · exact apply_unknown hop
    rw [hsame, Kv.apply_idle hc]
    exact h
  | true =>
    rw [hc, StateMachine.executes, Bool.and_eq_true] at hexec
    obtain ⟨levels, hs, hv⟩ := h.stored
    obtain ⟨engine, levels', happly, hs', hv'⟩ :=
      apply_known hs hfit hexec.2 (by simpa using hexec.1)
    rw [happly]
    refine ⟨⟨levels', hs', ?_⟩, ?_⟩
    · rw [hv', hv, Kv.apply, Kv.write?, if_pos hc, Overwrite.put]
    · simp only [Kv.apply, Kv.note, hc, true_and, noted, h.table]

/-- **A snapshot of the machine is one of the pair.** -/
theorem Holds.snapshot (h : sm.Holds K s) :
    ∃ snap, sm.snapshot = (.ok snap, sm) ∧ snap.Saves K s := by
  obtain ⟨levels, hs, hv⟩ := h.stored
  obtain ⟨entries, hsnap, hunique, hsmall, hlookup⟩ := hs.snapshotEntries
  refine ⟨⟨entries, sm.lastSeq⟩, ?_, hunique, hsmall, ?_, h.table⟩
  · simp only [StateMachine.snapshot, hsnap]
  · rw [← hv]
    exact funext hlookup

/-- **And restoring it, into any engine in good order, gives the pair back.** -/
theorem Holds.restore (h : snap.Saves K s) (hs : Stores K engine levels) : ∃ sm',
    StateMachine.restore { engine := engine } snap = (.ok (), sm') ∧ sm'.Holds K s := by
  obtain ⟨engine', hreset, hs', -, hv⟩ := hs.reset h.small h.unique
  refine ⟨⟨engine', snap.lastSeq⟩, ?_, ⟨[], hs', hv.trans h.pairs⟩, h.table⟩
  simp only [StateMachine.restore, hreset]

/-- An event of a run; the pair does not notice that it has moved. -/
theorem Holds.step (h : sm.Holds K s) (hfit : e.Fits K) :
    (sm.step e).Holds K (s.run e.command?.toList) := by
  cases e with
  | apply c => exact h.apply hfit
  | transfer target =>
    obtain ⟨levels₀, htarget⟩ := hfit
    obtain ⟨snap, hsnap, hsaves⟩ := h.snapshot
    obtain ⟨sm', hrestore, hholds⟩ := Holds.restore hsaves htarget
    simp only [StateMachine.step, hsnap, hrestore]
    exact hholds

/-- **A whole run is the run of its commands.** -/
theorem Holds.run (h : sm.Holds K s) (hfits : ∀ e ∈ events, e.Fits K) :
    (sm.run events).Holds K (s.run (events.filterMap Event.command?)) := by
  induction events generalizing sm s with
  | nil => exact h
  | cons e events ih =>
    have hrest := ih (h.step (hfits e List.mem_cons_self)) fun e' he' =>
      hfits e' (List.mem_cons_of_mem _ he')
    cases e with
    | apply c => exact hrest
    | transfer target => exact hrest

end StateMachine

/-! ## A value that does not fit

The pair of `Storage.LongValue` is answered differently by an engine that took it as a command and by
one that was loaded from a snapshot. -/

section Long

variable {filler : Bytes}

def putCommand (value : Bytes) : Command := ⟨.put, [1], value, [], 0⟩

theorem freshEngine_get (key : Bytes) : freshEngine.get key = .ok none := rfl

theorem apply_long (h : filler.length = 2 ^ 32 - 10) : ∃ e, LongValue filler e ∧
    StateMachine.apply { engine := freshEngine } (putCommand (record (hiddenEntry filler))) =
      (.ok (), { engine := e }) := by
  obtain ⟨e, hput, hlong⟩ := put_longValue (e := freshEngine) (w := openWAL []) h ⟨rfl, rfl, rfl⟩ rfl
    rfl rfl rfl (by decide)
  refine ⟨e, hlong, ?_⟩
  rw [StateMachine.apply, if_neg (by simp [StateMachine.duplicate, putCommand]),
    StateMachine.execute]
  simp only [putCommand, hput]
  rfl

theorem snapshot_long {e : Engine} (h : LongValue filler e) :
    StateMachine.snapshot { engine := e } =
      (.ok ⟨[([0], filler), ([1], [])], fun _ => 0⟩, { engine := e }) := by
  simp only [StateMachine.snapshot, h.snapshotEntries]

/-- The snapshot is loaded into a new engine as two pairs. -/
theorem restore_long (h : filler.length = 2 ^ 32 - 10) : ∃ e,
    StateMachine.restore { engine := freshEngine } ⟨[([0], filler), ([1], [])], fun _ => 0⟩ =
      (.ok (), { engine := e }) ∧ e.get [1] = .ok (some []) := by
  have hroom : ({[0], [1]} : Finset Bytes).card < 2 ^ 30 := by decide
  have hsmall : ∀ p ∈ [(([0] : Bytes), filler), ([1], [])],
      Small {[0], [1]} ⟨p.1, p.2, false⟩ := by
    intro p hp
    simp only [List.mem_cons, List.not_mem_nil, or_false] at hp
    rcases hp with rfl | rfl
    · refine ⟨show ([0] : Bytes) ∈ ({[0], [1]} : Finset Bytes) by decide, ?_⟩
      show 5 + 1 + filler.length < 2 ^ 32
      omega
    · exact ⟨by decide, by decide⟩
  obtain ⟨e, hreset, hs, -, hv⟩ := (freshEngine_stores hroom).reset hsmall
    (show [([0] : Bytes), [1]].Nodup by decide)
  refine ⟨e, ?_, ?_⟩
  · simp only [StateMachine.restore, hreset]
  · rw [hs.get, hv]
    rfl

end Long

end Server
end DistKV
