import DistKV.Server.KvSpec

/-!
# Rebuilding the state from the log

A server that comes up restores its last snapshot, if it has one, and applies the log from the entry
behind it; without one it starts with an empty table over whatever its engine has kept. The engine's
WAL is not synced, so that may be anything from before. Old commands are carried out a second
time over newer data, and a snapshot may be taken in the middle of it: neither the state nor the
snapshot need ever have been the state of a prefix of the log.

The table is one, though: `New` starts it anew or takes it from the snapshot, so which commands are
carried out is decided as it was the first time. And the map differs from that of the prefix only at
keys that a command still to be applied again will write (`Follows`). Once the server has
come to where it was before, there is no such command (`rebuild_converges`).
-/

namespace DistKV
namespace Server

open Storage

/-- A server, as far as its state machine goes. -/
structure Replica where
  sm : StateMachine
  applied : Nat := 0
  /-- The latest snapshot handed to the Raft node, with its index. -/
  saved : Option (Nat × SnapshotState) := none
  /-- The highest index ever applied, by any process of this server. -/
  highest : Nat := 0
  /-- The keys of the commands that ever reached the engine. -/
  written : List Bytes := []

inductive Life where
  /-- `applyLoop` gets the next committed entry. -/
  | apply
  /-- It takes a snapshot. -/
  | save
  /-- The process ends in any way, and `New` opens `engine`. -/
  | restart (engine : Engine)

namespace Replica

def applyEntry (r : Replica) (e : LogEntry) : Replica :=
  let r' := { r with applied := r.applied + 1, highest := max r.highest (r.applied + 1) }
  match e.command with
  | none => r'
  | some c =>
    { r' with
      sm := (r.sm.apply c).2
      written := if r.sm.executes c then c.key :: r.written else r.written }

def step (log : List LogEntry) (r : Replica) : Life → Replica
  | .apply =>
    match log[r.applied]? with
    | none => r
    | some e => r.applyEntry e
  | .save =>
    match r.sm.snapshot with
    | (.error _, sm) => { r with sm := sm }
    | (.ok snap, sm) => { r with sm := sm, saved := some (r.applied, snap) }
  | .restart engine =>
    match r.saved with
    | none => { r with sm := { engine := engine }, applied := 0 }
    | some (index, snap) =>
      if index > 0 then
        { r with sm := (StateMachine.restore { engine := engine } snap).2, applied := index }
      else { r with sm := { engine := engine }, applied := 0 }

def run (log : List LogEntry) (r : Replica) (lives : List Life) : Replica := lives.foldl (step log) r

end Replica

/-- A new server. -/
def newReplica : Replica := { sm := { engine := freshEngine } }

/-- The commands of a log, applied once and in order to an empty state machine. -/
def appliedOnce (log : List LogEntry) : StateMachine :=
  StateMachine.run { engine := freshEngine } ((commands log).map .apply)

/-- The engine that `New` finds has only keys that were written. -/
def Life.Keeps (r : Replica) : Life → Prop
  | .restart engine => ∀ key, engine.get key ≠ .ok none → key ∈ r.written
  | _ => True

/-- Every restart of the run is one such. -/
def Keeping (log : List LogEntry) (r : Replica) : List Life → Prop
  | [] => True
  | a :: lives => a.Keeps r ∧ Keeping log (r.step log a) lives

/-- The engine that `New` opens is in good order. -/
def Life.Fits (K : Finset Bytes) : Life → Prop
  | .restart engine => ∃ levels, Stores K engine levels
  | _ => True

/-! ## The prefixes of the log -/

section Prefix

variable {log : List LogEntry} {e : LogEntry} {i : Nat}

/-- The pair after the first `i` entries. -/
def prefixKv (log : List LogEntry) (i : Nat) : Kv := Kv.run {} (commands (log.take i))

/-- The write at a position of the log. -/
def writeAt (log : List LogEntry) (i : Nat) : Option (Bytes × Option Bytes) :=
  log[i]?.bind fun e => e.command.bind fun c => Kv.write? (prefixKv log i).last c

theorem prefixKv_succ (h : log[i]? = some e) :
    prefixKv log (i + 1) = (prefixKv log i).run e.command.toList := by
  rw [prefixKv, List.take_add_one, h, prefixKv, commands, List.filterMap_append, Kv.run,
    List.foldl_append]
  cases hc : e.command with
  | none => simp [hc, commands, Kv.run]
  | some c => simp [hc, commands, Kv.run]

end Prefix

/-! ## The invariant -/

/-- The table is that of the prefix, and the map is, but for what is to be written again. -/
structure Follows (log : List LogEntry) (i h : Nat) (s : Kv) : Prop where
  last : s.last = (prefixKv log i).last
  ahead : Overwrite.Ahead (writeAt log) i h s.map (prefixKv log i).map

section Follows

variable {log : List LogEntry} {e : LogEntry} {i h h' : Nat} {s : Kv}

theorem Follows.mono (hf : Follows log i h s) (hle : h ≤ h') : Follows log i h' s :=
  ⟨hf.last, hf.ahead.mono hle⟩

/-- **An entry is applied**, for the first time or again. -/
theorem Follows.next (hf : Follows log i h s) (he : log[i]? = some e) :
    Follows log (i + 1) h (s.run e.command.toList) := by
  have hput := hf.ahead.put
  have hsucc := prefixKv_succ he
  cases hc : e.command with
  | none =>
    have hw : writeAt log i = none := by rw [writeAt, he, Option.bind_some, hc, Option.bind_none]
    rw [hc] at hsucc
    rw [hw] at hput
    refine ⟨?_, ?_⟩
    · rw [hsucc]
      exact hf.last
    · rw [hsucc]
      exact hput
  | some c =>
    have hw : writeAt log i = Kv.write? s.last c := by
      rw [writeAt, he, Option.bind_some, hc, Option.bind_some, hf.last]
    rw [hc] at hsucc
    rw [hw] at hput
    refine ⟨?_, ?_⟩
    · rw [hsucc]
      show Kv.note s.last c = Kv.note (prefixKv log i).last c
      rw [hf.last]
    · rw [hsucc]
      show Overwrite.Ahead _ _ _ (Overwrite.put s.map _) (Overwrite.put (prefixKv log i).map _)
      rw [← hf.last]
      exact hput

end Follows

namespace Replica

structure Inv (K : Finset Bytes) (log : List LogEntry) (r : Replica) : Prop where
  le : r.applied ≤ r.highest
  state : ∃ s, r.sm.Holds K s ∧ Follows log r.applied r.highest s
  saved : ∀ i snap, r.saved = some (i, snap) →
    i ≤ r.highest ∧ ∃ s, snap.Saves K s ∧ Follows log i r.highest s
  written : ∀ key ∈ r.written, Overwrite.Touched (writeAt log) 0 r.highest key

section Steps

variable {K : Finset Bytes} {log : List LogEntry} {r : Replica} {e : LogEntry} {engine : Engine}
  {levels : List Level} {a : Life} {lives : List Life}

theorem Inv.start (hroom : K.card < 2 ^ 30) : newReplica.Inv K log :=
  ⟨le_rfl, ⟨{}, .fresh hroom, rfl, fun _ hk => absurd rfl hk⟩, fun _ _ hs => (by cases hs),
    fun _ hk => (by cases hk)⟩

theorem Inv.applyEntry (h : r.Inv K log) (hfit : ∀ c ∈ commands log, Small K c.entry)
    (he : log[r.applied]? = some e) : (r.applyEntry e).Inv K log := by
  obtain ⟨s, hholds, hfollows⟩ := h.state
  have hle : r.highest ≤ max r.highest (r.applied + 1) := le_max_left _ _
  have hnext := (hfollows.next he).mono hle
  have hsaved : ∀ i snap, r.saved = some (i, snap) → i ≤ max r.highest (r.applied + 1) ∧
      ∃ s, snap.Saves K s ∧ Follows log i (max r.highest (r.applied + 1)) s := by
    intro i snap hs
    obtain ⟨hi, s', hsaves, hf⟩ := h.saved i snap hs
    exact ⟨hi.trans hle, s', hsaves, hf.mono hle⟩
  have hold : ∀ key ∈ r.written,
      Overwrite.Touched (writeAt log) 0 (max r.highest (r.applied + 1)) key :=
    fun key hk => (h.written key hk).mono hle
  unfold Replica.applyEntry
  cases hc : e.command with
  | none =>
    rw [hc] at hnext
    exact ⟨le_max_right _ _, ⟨s, hholds, hnext⟩, hsaved, hold⟩
  | some c =>
    rw [hc] at hnext
    have hmem : c ∈ commands log :=
      List.mem_filterMap.mpr ⟨e, List.mem_of_getElem? he, hc⟩
    refine ⟨le_max_right _ _, ⟨_, hholds.apply (hfit c hmem), hnext⟩, hsaved, ?_⟩
    intro key hk
    dsimp only at hk
    split at hk
    next hexec =>
      rcases List.mem_cons.mp hk with rfl | hk
      · -- the command that was carried out is the write of its position
        refine ⟨r.applied, Nat.zero_le _, lt_of_lt_of_le (Nat.lt_succ_self _) (le_max_right _ _),
          c.entry.live, ?_⟩
        rw [writeAt, he, Option.bind_some, hc, Option.bind_some, ← hfollows.last, Kv.write?,
          if_pos (by rw [← hholds.executes]; exact hexec)]
      · exact hold key hk
    next => exact hold key hk

theorem Inv.save (h : r.Inv K log) : (r.step log .save).Inv K log := by
  obtain ⟨s, hholds, hfollows⟩ := h.state
  obtain ⟨snap, hsnap, hsaves⟩ := hholds.snapshot
  simp only [Replica.step, hsnap]
  refine ⟨h.le, ⟨s, hholds, hfollows⟩, ?_, h.written⟩
  rintro i snap' ⟨⟩
  exact ⟨h.le, s, hsaves, hfollows⟩

/-- Without a snapshot the keys of the engine are all to be written again. -/
theorem Inv.reopened (h : r.Inv K log) (hs : Stores K engine levels)
    (hkeep : ∀ key, engine.get key ≠ .ok none → key ∈ r.written) :
    Inv K log { r with sm := { engine := engine }, applied := 0 } := by
  refine ⟨Nat.zero_le _, ⟨_, .opened hs, rfl, ?_⟩, h.saved, h.written⟩
  intro key hne
  refine h.written key (hkeep key fun hget => hne ?_)
  rw [hs.get] at hget
  exact Except.ok.inj hget

theorem Inv.restart (h : r.Inv K log) (hs : Stores K engine levels)
    (hkeep : ∀ key, engine.get key ≠ .ok none → key ∈ r.written) :
    (r.step log (.restart engine)).Inv K log := by
  simp only [Replica.step]
  split
  next => exact h.reopened hs hkeep
  next i snap hsaved =>
    split
    · -- the snapshot was taken where the state followed the log, and what came later was noted
      obtain ⟨hi, s, hsaves, hfollows⟩ := h.saved i snap hsaved
      obtain ⟨sm', hrestore, hholds⟩ := StateMachine.Holds.restore hsaves hs
      rw [hrestore]
      exact ⟨hi, ⟨s, hholds, hfollows⟩, h.saved, h.written⟩
    · exact h.reopened hs hkeep

theorem Inv.step (h : r.Inv K log) (hfit : ∀ c ∈ commands log, Small K c.entry)
    (ha : a.Fits K) (hkeep : a.Keeps r) : (r.step log a).Inv K log := by
  cases a with
  | apply =>
    unfold Replica.step
    cases he : log[r.applied]? with
    | none => exact h
    | some e => exact h.applyEntry hfit he
  | save => exact h.save
  | restart engine =>
    obtain ⟨levels, hs⟩ := ha
    exact h.restart hs hkeep

theorem Inv.run (h : r.Inv K log) (hfit : ∀ c ∈ commands log, Small K c.entry)
    (ha : ∀ a ∈ lives, a.Fits K) (hkeep : Keeping log r lives) : (r.run log lives).Inv K log := by
  induction lives generalizing r with
  | nil => exact h
  | cons a lives ih =>
    exact ih (h.step hfit (ha a List.mem_cons_self) hkeep.1)
      (fun a' ha' => ha a' (List.mem_cons_of_mem _ ha')) hkeep.2

end Steps

end Replica

/-! ## The result -/

section Converges

variable {K : Finset Bytes} {log : List LogEntry} {lives : List Life} {r : Replica}

theorem appliedOnce_holds (hroom : K.card < 2 ^ 30) (hfit : ∀ c ∈ commands log, Small K c.entry)
    (i : Nat) : (appliedOnce (log.take i)).Holds K (prefixKv log i) := by
  have hfits : ∀ e ∈ (commands (log.take i)).map Event.apply, e.Fits K := by
    intro e he
    obtain ⟨c, hc, rfl⟩ := List.mem_map.mp he
    exact hfit c ((List.take_sublist i log).filterMap _ |>.mem hc)
  have hrun := (StateMachine.Holds.fresh hroom).run hfits
  rw [filterMap_apply] at hrun
  exact hrun

/-- **A server that has come to where it was before has the state of the log's prefix**, however often
    it has gone down and whatever its engine kept. -/
theorem rebuild_converges (hroom : K.card < 2 ^ 30) (hfit : ∀ c ∈ commands log, Small K c.entry)
    (hengines : ∀ a ∈ lives, a.Fits K) (hkeep : Keeping log newReplica lives)
    (hr : newReplica.run log lives = r) (hcaught : r.highest ≤ r.applied) :
    r.sm.lastSeq = (appliedOnce (log.take r.applied)).lastSeq ∧
    ∀ key, r.sm.get key = (appliedOnce (log.take r.applied)).get key := by
  have hinv := (Replica.Inv.start hroom).run hfit hengines hkeep
  rw [hr] at hinv
  obtain ⟨s, hholds, hfollows⟩ := hinv.state
  have honce := appliedOnce_holds hroom hfit r.applied
  have hmap : s.map = (prefixKv log r.applied).map := hfollows.ahead.eq hcaught
  refine ⟨?_, fun key => ?_⟩
  · rw [hholds.table, hfollows.last, honce.table]
  · rw [hholds.get, honce.get, hmap]

/-- An engine that has kept the last of the writes only. -/
def keptEngine : Engine := ((write [2] [20] false).exec freshEngine).2

/-- Down after all of the log, and down again in the middle of the replay, behind a snapshot. -/
def twoCrashes : List Life :=
  [.apply, .apply, .apply, .apply, .restart keptEngine, .apply, .apply, .save, .apply,
    .restart freshEngine, .apply, .apply]

theorem keptEngine_stores (hroom : K.card < 2 ^ 30) (hmem : [2] ∈ K) :
    (∃ levels, Stores K keptEngine levels) ∧ ∀ key, keptEngine.get key ≠ .ok none → key = [2] := by
  have hsmall : Small K ⟨[2], [20], false⟩ := ⟨hmem, show 5 + 1 + 1 < 2 ^ 32 by decide⟩
  obtain ⟨e, levels, hexec, hs, -, hv⟩ := (freshEngine_stores hroom).write hsmall
  have hkept : keptEngine = e := by
    rw [keptEngine]
    exact congrArg Prod.snd hexec
  rw [hkept]
  refine ⟨⟨levels, hs⟩, fun key hget => ?_⟩
  by_contra hne
  rw [hs.get, hv, Function.update_of_ne hne] at hget
  exact hget rfl

theorem rebuild_converges_twoCrashes :
    (newReplica.run inOrder twoCrashes).sm.lastSeq = (appliedOnce (inOrder.take 4)).lastSeq ∧
    ∀ key, (newReplica.run inOrder twoCrashes).sm.get key =
      (appliedOnce (inOrder.take 4)).get key := by
  have hroom : ({[1], [2]} : Finset Bytes).card < 2 ^ 30 := by decide
  have hfit : ∀ c ∈ commands inOrder, Small {[1], [2]} c.entry := by
    intro c hc
    simp only [inOrder, commands, List.filterMap_cons, List.filterMap_nil, List.mem_cons,
      List.not_mem_nil, or_false] at hc
    rcases hc with rfl | rfl | rfl
    · exact ⟨by decide, by decide⟩
    · exact ⟨by decide, by decide⟩
    · exact ⟨by decide, by decide⟩
  obtain ⟨hkept, honly⟩ := keptEngine_stores hroom (by decide)
  have hengines : ∀ a ∈ twoCrashes, a.Fits {[1], [2]} := by
    intro a ha
    simp only [twoCrashes, List.mem_cons, List.not_mem_nil, or_false] at ha
    rcases ha with rfl | rfl | rfl | rfl | rfl | rfl | rfl | rfl | rfl | rfl | rfl | rfl
    all_goals first | trivial | exact hkept | exact ⟨[], freshEngine_stores hroom⟩
  have hkeep : Keeping inOrder newReplica twoCrashes := by
    refine ⟨trivial, trivial, trivial, trivial, fun key hget => ?_, trivial, trivial, trivial, trivial,
      fun key hget => absurd (freshEngine_get key) hget, trivial, trivial, trivial⟩
    rw [honly key hget]
    decide +kernel
  have happlied : (newReplica.run inOrder twoCrashes).applied = 4 := by decide +kernel
  have h := rebuild_converges hroom hfit hengines hkeep rfl (by decide +kernel)
  rw [happlied] at h
  exact h

end Converges

/-! ## A value that does not fit -/

section Long

variable {filler : Bytes}

/-- The command, a snapshot, and a restart over an empty engine. -/
def longLives : List Life := [.apply, .save, .restart freshEngine]

theorem run_long (h : filler.length = 2 ^ 32 - 10) : ∃ r,
    newReplica.run [⟨1, some (putCommand (record (hiddenEntry filler)))⟩] longLives = r ∧
    r.applied = 1 ∧ r.highest = 1 ∧ r.sm.get [1] = .ok (some []) := by
  obtain ⟨e, hlong, happly⟩ := apply_long h
  obtain ⟨e', hrestore, hget⟩ := restore_long h
  refine ⟨_, rfl, ?_⟩
  simp only [Replica.run, longLives, List.foldl_cons, List.foldl_nil, newReplica, Replica.step,
    Replica.applyEntry, List.getElem?_cons_zero, happly, snapshot_long hlong, hrestore]
  exact ⟨rfl, rfl, hget⟩

theorem appliedOnce_long (h : filler.length = 2 ^ 32 - 10) :
    (appliedOnce [⟨1, some (putCommand (record (hiddenEntry filler)))⟩]).get [1] = .ok none := by
  obtain ⟨e, hlong, happly⟩ := apply_long h
  show (StateMachine.apply { engine := freshEngine } _).2.get [1] = _
  rw [happly]
  exact hlong.get [1]

theorem rebuilt_long {value : Bytes} (h : filler.length = 2 ^ 32 - 10)
    (hvalue : value = record (hiddenEntry filler)) : ∃ r,
    newReplica.run [⟨1, some (putCommand value)⟩] longLives = r ∧
    Keeping [⟨1, some (putCommand value)⟩] newReplica longLives ∧ r.highest ≤ r.applied ∧
    r.sm.get [1] ≠ (appliedOnce ([⟨1, some (putCommand value)⟩].take r.applied)).get [1] := by
  subst hvalue
  obtain ⟨r, hr, happlied, hhighest, hget⟩ := run_long h
  refine ⟨r, hr, ⟨trivial, trivial, fun key hne => absurd (freshEngine_get key) hne, trivial⟩, ?_,
    ?_⟩
  · rw [happlied, hhighest]
  · rw [happlied, hget, List.take_one, List.head?_cons, Option.toList_some, appliedOnce_long h]
    intro heq
    cases heq

/-- **A value of four gigabytes is read differently after the rebuild**: not at all by the engine that
    took it, and as an empty value by the one that was loaded from the snapshot. -/
theorem long_value_rebuilt : ∃ value : Bytes, ∃ r,
    newReplica.run [⟨1, some (putCommand value)⟩] longLives = r ∧
    Keeping [⟨1, some (putCommand value)⟩] newReplica longLives ∧ r.highest ≤ r.applied ∧
    r.sm.get [1] ≠ (appliedOnce ([⟨1, some (putCommand value)⟩].take r.applied)).get [1] := by
  have hlen : (List.replicate (2 ^ 32 - 10) (0 : UInt8)).length = 2 ^ 32 - 10 := List.length_replicate
  exact ⟨_, rebuilt_long hlen rfl⟩

end Long

end Server
end DistKV
