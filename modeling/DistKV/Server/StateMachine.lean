import DistKV.Storage.EngineRefines

/-!
# `server/statemachine.go` — commands on the engine

A command is carried out on the engine unless the table `lastSeq` tells that it is a retry. A Go map
that is only indexed is a function; a missing client has the number zero. The snapshot is the value
that is serialised, not its bytes.
-/

namespace DistKV
namespace Server

open Storage

/-- `Command.Op`; every text but two is refused. -/
inductive CommandOp where
  | put
  | delete
  | unknown (name : String)
  deriving DecidableEq, Repr

def CommandOp.known : CommandOp → Bool
  | put => true
  | delete => true
  | unknown _ => false

structure Command where
  op : CommandOp
  key : Bytes
  value : Bytes := []
  clientID : Bytes
  seq : Nat
  deriving DecidableEq, Repr

inductive ApplyError where
  | engine (e : EngineError)
  | unknownOp (name : String)
  deriving DecidableEq, Repr

def ApplyError.message (path : Nat → String) : ApplyError → String
  | .engine e => e.message path
  | .unknownOp name => "unknown op " ++ name.quote

structure StateMachine where
  engine : Engine
  /-- The highest applied number of each client, as the source says. -/
  lastSeq : Bytes → Nat := fun _ => 0

structure SnapshotState where
  data : List (Bytes × Bytes)
  lastSeq : Bytes → Nat

namespace StateMachine

/-- The test for a retry. -/
def duplicate (sm : StateMachine) (c : Command) : Bool :=
  decide (c.clientID ≠ [] ∧ c.seq > 0 ∧ sm.lastSeq c.clientID ≥ c.seq)

/-- The `switch` over the operation. -/
def execute (engine : Engine) (c : Command) : Except ApplyError Unit × Engine :=
  match c.op with
  | .put => let r := (write c.key c.value false).exec engine; (r.1.mapError .engine, r.2)
  | .delete => let r := (write c.key [] true).exec engine; (r.1.mapError .engine, r.2)
  | .unknown name => (.error (.unknownOp name), engine)

def apply (sm : StateMachine) (c : Command) : Except ApplyError Unit × StateMachine :=
  if sm.duplicate c then (.ok (), sm)
  else
    match execute sm.engine c with
    | (.error e, engine) => (.error e, { sm with engine := engine })
    | (.ok _, engine) =>
      (.ok (), { engine := engine
                 lastSeq := if c.clientID ≠ [] then Function.update sm.lastSeq c.clientID c.seq
                   else sm.lastSeq })

def get (sm : StateMachine) (key : Bytes) : Except EngineError (Option Bytes) := sm.engine.get key

def snapshot (sm : StateMachine) : Except EngineError SnapshotState × StateMachine :=
  match snapshotEntries.exec sm.engine with
  | (.error e, engine) => (.error e, { sm with engine := engine })
  | (.ok data, engine) => (.ok { data := data, lastSeq := sm.lastSeq }, { sm with engine := engine })

def restore (sm : StateMachine) (snap : SnapshotState) : Except EngineError Unit × StateMachine :=
  match (reset snap.data).exec sm.engine with
  | (.error e, engine) => (.error e, { sm with engine := engine })
  | (.ok _, engine) => (.ok (), { engine := engine, lastSeq := snap.lastSeq })

end StateMachine

/-! ## Runs -/

/-- What a replica goes through: commands, and a snapshot that is restored into the replica that
    goes on, whose engine was `target`. -/
inductive Event where
  | apply (c : Command)
  | transfer (target : Engine)

namespace StateMachine

def step (sm : StateMachine) : Event → StateMachine
  | .apply c => (sm.apply c).2
  | .transfer target =>
    match sm.snapshot with
    | (.error _, sm) => sm
    | (.ok snap, _) => (restore { engine := target } snap).2

def run (sm : StateMachine) (events : List Event) : StateMachine := events.foldl step sm

/-- Does the command reach the engine? -/
def executes (sm : StateMachine) (c : Command) : Bool :=
  !sm.duplicate c && c.op.known

/-- How many of the commands with `p` reach the engine. -/
def executions (p : Command → Bool) : StateMachine → List Event → Nat
  | _, [] => 0
  | sm, .apply c :: events =>
    (if p c && sm.executes c then 1 else 0) + executions p (sm.step (.apply c)) events
  | sm, .transfer target :: events => executions p (sm.step (.transfer target)) events

end StateMachine

/-! ## On an engine that does not fail -/

/-- What the command writes. -/
def Command.entry (c : Command) : KvEntry :=
  match c.op with
  | .put => ⟨c.key, c.value, false⟩
  | _ => ⟨c.key, [], true⟩

theorem Command.entry_key (c : Command) : c.entry.key = c.key := by
  unfold Command.entry
  split
  · rfl
  · rfl

/-- The entries fit, and a snapshot goes to an engine in good order. -/
def Event.Fits (K : Finset Bytes) : Event → Prop
  | .apply c => Small K c.entry
  | .transfer target => ∃ levels, Stores K target levels

namespace StateMachine

variable {K : Finset Bytes} {sm : StateMachine} {levels : List Level} {c : Command}

/-- The table after a command that was carried out. -/
def noted (sm : StateMachine) (c : Command) : Bytes → Nat :=
  if c.clientID ≠ [] then Function.update sm.lastSeq c.clientID c.seq else sm.lastSeq

theorem execute_known (h : Stores K sm.engine levels) (hfit : Small K c.entry)
    (hop : c.op.known = true) : ∃ engine levels', execute sm.engine c = (.ok (), engine) ∧
      Stores K engine levels' ∧ view engine.mem levels' =
        Function.update (view sm.engine.mem levels) c.key c.entry.live := by
  obtain ⟨engine, levels', hexec, hs, -, hv⟩ := h.write hfit
  refine ⟨engine, levels', ?_, hs, ?_⟩
  · cases hc : c.op with
    | put =>
      simp only [Command.entry, hc] at hexec
      simp only [execute, hc, hexec]
      rfl
    | delete =>
      simp only [Command.entry, hc] at hexec
      simp only [execute, hc, hexec]
      rfl
    | unknown name =>
      rw [hc] at hop
      cases hop
  · rw [hv, c.entry_key]

theorem apply_duplicate (h : sm.duplicate c = true) : sm.apply c = (.ok (), sm) := by
  rw [apply, if_pos h]

/-- **A command that is no retry is carried out and noted.** -/
theorem apply_known (h : Stores K sm.engine levels) (hfit : Small K c.entry)
    (hop : c.op.known = true) (hnew : sm.duplicate c = false) :
    ∃ engine levels', sm.apply c = (.ok (), { engine := engine, lastSeq := sm.noted c }) ∧
      Stores K engine levels' ∧ view engine.mem levels' =
        Function.update (view sm.engine.mem levels) c.key c.entry.live := by
  obtain ⟨engine, levels', hexec, hs⟩ := execute_known h hfit hop
  refine ⟨engine, levels', ?_, hs⟩
  rw [apply, if_neg (by rw [hnew]; exact Bool.false_ne_true), hexec, noted]

theorem apply_unknown (hop : c.op.known = false) : (sm.apply c).2 = sm := by
  rw [apply]
  split
  · rfl
  · cases hc : c.op with
    | put =>
      rw [hc] at hop
      cases hop
    | delete =>
      rw [hc] at hop
      cases hop
    | unknown name => simp only [execute, hc]

/-- **A snapshot carries the contents and the table to another replica.** -/
theorem step_transfer (h : Stores K sm.engine levels) {target : Engine} {levels₀ : List Level}
    (htarget : Stores K target levels₀) :
    ∃ engine, sm.step (.transfer target) = { engine := engine, lastSeq := sm.lastSeq } ∧
      Stores K engine [] ∧ view engine.mem [] = view sm.engine.mem levels := by
  obtain ⟨entries, hsnap, hunique, hsmall, hlookup⟩ := h.snapshotEntries
  obtain ⟨engine, hreset, hs, -, hv⟩ := htarget.reset hsmall hunique
  refine ⟨engine, ?_, hs, hv.trans (funext hlookup)⟩
  simp only [step, snapshot, hsnap, restore, hreset]

end StateMachine

end Server
end DistKV
