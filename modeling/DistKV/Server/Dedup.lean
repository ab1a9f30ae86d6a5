import DistKV.Lib.HighWater
import DistKV.Server.StateMachine

/-!
# Retries: at most once, and whether at all

`lastSeq` is a table of the kind of `HighWater`, with the commands of unnamed clients left out. The
test for a retry looks at positive numbers only, but every number is noted, zero as well. So a
command numbered zero forgets what its client has done before (`zero_runs_twice`), and the table is
sound exactly for sequences in which none follows a positive number (`at_most_once`).

A client takes its numbers one by one, and its concurrent calls race to the log. If a later number
wins, the earlier command is taken for a retry: the call is answered like any other and the command
is never carried out (`overtaken_call_lost`, `acknowledged_executed`).
-/

namespace DistKV
namespace Server

open Storage

/-! ## The table as a high-water mark -/

/-- The client and the number of a command that is looked up in the table. -/
def Event.request? : Event → Option (Bytes × Nat)
  | .apply c => if c.clientID ≠ [] ∧ c.op.known = true then some (c.clientID, c.seq) else none
  | .transfer _ => none

namespace StateMachine

variable {K : Finset Bytes} {sm : StateMachine} {c : Command} {e : Event} {events : List Event}

theorem not_duplicate_iff (hname : c.clientID ≠ []) :
    (!sm.duplicate c) = HighWater.admits sm.lastSeq (c.clientID, c.seq) := by
  rw [duplicate, HighWater.admits, ← decide_not]
  refine decide_eq_decide.mpr ?_
  constructor
  · intro h
    by_cases hzero : c.seq = 0
    · exact .inl hzero
    · exact .inr (Nat.lt_of_not_le fun hle => h ⟨hname, Nat.pos_of_ne_zero hzero, hle⟩)
  · rintro (hzero | hlt) ⟨-, hpos, hle⟩
    · exact absurd hzero (Nat.ne_of_gt hpos)
    · exact absurd hle (Nat.not_le.mpr hlt)

/-- The table after one event. -/
def served (t : Bytes → Nat) (e : Event) : Bytes → Nat :=
  match e.request? with
  | none => t
  | some r => HighWater.serve t r

/-- **One event.** The engine stays in good order, and the table takes note of the request. -/
theorem step_sound (h : ∃ levels, Stores K sm.engine levels) (hfit : e.Fits K) :
    (∃ levels, Stores K (sm.step e).engine levels) ∧ (sm.step e).lastSeq = served sm.lastSeq e := by
  obtain ⟨levels, h⟩ := h
  cases e with
  | transfer target =>
    obtain ⟨levels₀, htarget⟩ := hfit
    obtain ⟨engine, hstep, hs, -⟩ := step_transfer h htarget
    rw [hstep]
    exact ⟨⟨_, hs⟩, rfl⟩
  | apply c =>
    rw [step, served, Event.request?]
    by_cases hop : c.op.known = true
    · by_cases hname : c.clientID ≠ []
      · rw [if_pos ⟨hname, hop⟩]
        show _ ∧ _ = if HighWater.admits _ _ = true then _ else _
        rw [← not_duplicate_iff hname]
        cases hdup : sm.duplicate c with
        | true =>
          rw [apply_duplicate hdup]
          exact ⟨⟨levels, h⟩, rfl⟩
        | false =>
          obtain ⟨engine, levels', happly, hs, -⟩ := apply_known h hfit hop hdup
          rw [happly]
          exact ⟨⟨levels', hs⟩, if_pos hname⟩
      · have hnew : sm.duplicate c = false := decide_eq_false fun hd => hname hd.1
        obtain ⟨engine, levels', happly, hs, -⟩ := apply_known h hfit hop hnew
        rw [happly, if_neg fun hd => hname hd.1]
        exact ⟨⟨levels', hs⟩, if_neg hname⟩
    · rw [apply_unknown (Bool.eq_false_iff.mpr hop), if_neg fun hd => hop hd.2]
      exact ⟨⟨levels, h⟩, rfl⟩

/-- **The table never falls exactly if it rises as a high-water mark.** -/
theorem rising_iff_lastSeq (sm : StateMachine) (h : ∃ levels, Stores K sm.engine levels)
    (hfit : ∀ e ∈ events, e.Fits K) :
    (∀ i < events.length, ∀ c, (sm.run (events.take i)).lastSeq c ≤
      (sm.run (events.take (i + 1))).lastSeq c) ↔
      HighWater.Rising sm.lastSeq (events.filterMap Event.request?) := by
  induction events generalizing sm with
  | nil => exact ⟨fun _ => trivial, fun _ i hi => absurd hi (Nat.not_lt_zero i)⟩
  | cons e events ih =>
    obtain ⟨hstores, htable⟩ := step_sound h (hfit e List.mem_cons_self)
    have hrest := ih _ hstores fun e' he' => hfit e' (List.mem_cons_of_mem _ he')
    have hsplit : (∀ i < (e :: events).length, ∀ c, (sm.run ((e :: events).take i)).lastSeq c ≤
        (sm.run ((e :: events).take (i + 1))).lastSeq c) ↔
        (∀ c, sm.lastSeq c ≤ (sm.step e).lastSeq c) ∧
          ∀ i < events.length, ∀ c, ((sm.step e).run (events.take i)).lastSeq c ≤
            ((sm.step e).run (events.take (i + 1))).lastSeq c := by
      constructor
      · intro hall
        exact ⟨hall 0 (Nat.succ_pos _), fun i hi => hall (i + 1) (Nat.succ_lt_succ hi)⟩
      · rintro ⟨hhead, htail⟩ i hi
        cases i with
        | zero => exact hhead
        | succ i => exact htail i (Nat.lt_of_succ_lt_succ hi)
    rw [hsplit, hrest, htable, served, List.filterMap_cons]
    cases e.request? with
    | none => exact ⟨fun hr => hr.2, fun hr => ⟨fun _ => le_rfl, hr⟩⟩
    | some r => exact Iff.rfl

/-- **Executions are admissions**, for a test `p` that tells the request `r` from the others. -/
theorem executions_eq (sm : StateMachine) (h : ∃ levels, Stores K sm.engine levels)
    (hfit : ∀ e ∈ events, e.Fits K)
    {p : Command → Bool} {r : Bytes × Nat}
    (hp : ∀ c, Event.apply c ∈ events → c.op.known = true →
      (p c = true ↔ (Event.apply c).request? = some r)) :
    executions p sm events = HighWater.admissions r sm.lastSeq (events.filterMap Event.request?) := by
  induction events generalizing sm with
  | nil => rfl
  | cons e events ih =>
    obtain ⟨hstores, htable⟩ := step_sound h (hfit e List.mem_cons_self)
    have hrest := ih _ hstores (fun e' he' => hfit e' (List.mem_cons_of_mem _ he'))
      fun c hc => hp c (List.mem_cons_of_mem _ hc)
    rw [htable, served] at hrest
    cases e with
    | transfer target => exact hrest
    | apply c =>
      have hpc := hp c List.mem_cons_self
      rw [executions, hrest, List.filterMap_cons]
      cases hreq : (Event.apply c).request? with
      | none =>
        -- unnamed, or refused by the `switch`: it is not the one that is counted
        have hno : (p c && sm.executes c) = false := by
          rw [Bool.and_eq_false_iff]
          by_cases hop : c.op.known = true
          · refine .inl (Bool.eq_false_iff.mpr fun hpt => ?_)
            rw [hreq] at hpc
            cases (hpc hop).mp hpt
          · exact .inr (by rw [executes, Bool.eq_false_iff.mpr hop, Bool.and_false])
        rw [hno]
        exact Nat.zero_add _
      | some r' =>
        rw [Event.request?] at hreq
        split at hreq
        · next hnamed =>
          obtain ⟨hname, hop⟩ := hnamed
          cases hreq
          have hexec : sm.executes c = HighWater.admits sm.lastSeq (c.clientID, c.seq) := by
            rw [executes, hop, Bool.and_true, not_duplicate_iff hname]
          have hpr : p c = true ↔ (c.clientID, c.seq) = r := by
            rw [hpc hop, Event.request?, if_pos ⟨hname, hop⟩, Option.some.injEq]
          show _ = (if _ then 1 else 0) + _
          congr 1
          rw [hexec]
          refine if_congr ?_ rfl rfl
          rw [Bool.and_eq_true, hpr]
        · cases hreq

end StateMachine

/-- A newly opened engine, as `New` asks for it. -/
def freshEngine : Engine :=
  { dir := { wal := some (openWAL []) }, flushSize := 4194304, syncWAL := false }

theorem freshEngine_stores {K : Finset Bytes} (hroom : K.card < 2 ^ 30) :
    Stores K freshEngine [] :=
  ⟨hroom, rfl, rfl, ⟨_, rfl⟩, rfl, rfl, .nil, by simp, by simp, .empty⟩

/-! ## At most once -/

section AtMostOnce

variable {K : Finset Bytes} {engine : Engine} {levels : List Level} {events : List Event}

/-- **Commands run at most once, and the table never falls, exactly if no command numbered zero
    comes after a positive number of the same client.** -/
theorem at_most_once (h : Stores K engine levels) (hfit : ∀ e ∈ events, e.Fits K) :
    ((∀ i < events.length, ∀ c, (StateMachine.run { engine := engine } (events.take i)).lastSeq c ≤
        (StateMachine.run { engine := engine } (events.take (i + 1))).lastSeq c) ∧
      ∀ (name : Bytes) (s : Nat), name ≠ [] → 0 < s →
        StateMachine.executions (fun c => c.clientID = name ∧ c.seq = s) { engine := engine }
          events ≤ 1) ↔
    (events.filterMap Event.request?).Pairwise HighWater.NoReset := by
  have hrising := StateMachine.rising_iff_lastSeq { engine := engine } ⟨levels, h⟩ hfit
  rw [hrising, HighWater.rising_iff]
  refine ⟨fun hall => hall.1, fun hres => ⟨hres, fun name s hname hs => ?_⟩⟩
  rw [StateMachine.executions_eq (r := (name, s)) _ ⟨levels, h⟩ hfit fun c _ hop => ?_]
  · exact HighWater.admissions_le_one hres hs
  · rw [decide_eq_true_eq, Event.request?]
    constructor
    · rintro ⟨rfl, rfl⟩
      rw [if_pos ⟨hname, hop⟩]
    · intro hreq
      split at hreq
      · cases hreq
        exact ⟨rfl, rfl⟩
      · cases hreq

/-- A put of the client `c`. -/
def numbered (s : Nat) : Event := .apply ⟨.put, [107], [1], [99], s⟩

/-- A retry after the state has moved to another replica. -/
theorem at_most_once_retry :
    StateMachine.executions (fun c => c.clientID = [99] ∧ c.seq = 1) { engine := freshEngine }
      [numbered 0, numbered 1, .transfer freshEngine, numbered 1, numbered 2] ≤ 1 := by
  have hroom : ({[107]} : Finset Bytes).card < 2 ^ 30 := by decide
  refine ((at_most_once (freshEngine_stores hroom) fun e he => ?_).mpr (by decide)).2 [99] 1
    (by decide) (by decide)
  have hput : ∀ s, (numbered s).Fits {[107]} := fun s =>
    ⟨Finset.mem_singleton_self _, show 5 + 1 + 1 < 2 ^ 32 by decide⟩
  simp only [List.mem_cons, List.not_mem_nil, or_false] at he
  rcases he with rfl | rfl | rfl | rfl | rfl
  · exact hput 0
  · exact hput 1
  · exact ⟨[], freshEngine_stores hroom⟩
  · exact hput 1
  · exact hput 2

/-- **A command numbered zero makes the table fall, and a retry runs a second time.** -/
theorem zero_runs_twice :
    (StateMachine.run { engine := freshEngine } [numbered 1]).lastSeq [99] = 1 ∧
    (StateMachine.run { engine := freshEngine } [numbered 1, numbered 0]).lastSeq [99] = 0 ∧
    StateMachine.executions (fun c => c.clientID = [99] ∧ c.seq = 1) { engine := freshEngine }
      [numbered 1, numbered 0, numbered 1] = 2 := by
  decide +kernel

end AtMostOnce

/-! ## `client.go` and the answer to a call -/

/-- A client has one counter for all its calls. -/
structure Client where
  id : Bytes
  seq : Nat := 0
  deriving DecidableEq, Repr

inductive KvRequest where
  | put (key value : Bytes)
  | delete (key : Bytes)
  deriving DecidableEq, Repr

/-- The command a call carries, with the number `seq.Add(1)` gives it. -/
def Client.issue (cl : Client) : KvRequest → Command
  | .put key value => { op := .put, key := key, value := value, clientID := cl.id, seq := cl.seq + 1 }
  | .delete key => { op := .delete, key := key, clientID := cl.id, seq := cl.seq + 1 }

/-- The commands of some calls, in the order in which they take their numbers. -/
def Client.issued (cl : Client) : List KvRequest → List Command
  | [] => []
  | r :: rs => cl.issue r :: Client.issued { cl with seq := cl.seq + 1 } rs

/-- A committed entry; a leader's no-op has no command. -/
structure LogEntry where
  term : Nat
  command : Option Command
  deriving DecidableEq, Repr

/-- The commands of a log, in its order. -/
def commands (log : List LogEntry) : List Command := log.filterMap LogEntry.command

structure WaitResult where
  term : Nat
  err : Except ApplyError Unit
  deriving DecidableEq

/-- What `applyLoop` tells the waiter at position `i` of the log. -/
def waitResult (sm : StateMachine) (log : List LogEntry) (i : Nat) : Option WaitResult :=
  log[i]?.map fun e =>
    { term := e.term
      err := match e.command with
        | none => .ok ()
        | some c => ((sm.run ((commands (log.take i)).map .apply)).apply c).1 }

inductive RpcError where
  | notLeader
  | internal (e : ApplyError)
  deriving DecidableEq, Repr

/-- The end of `propose` when the waiter gets an answer. -/
def proposeResult (term : Nat) (res : WaitResult) : Except RpcError Unit :=
  if res.term ≠ term then .error .notLeader
  else
    match res.err with
    | .error e => .error (.internal e)
    | .ok _ => .ok ()

/-- One proposal of a call: where the leader put its entry, and in which term. -/
structure Attempt where
  index : Nat
  term : Nat
  deriving DecidableEq, Repr

/-- `try` goes from server to server until one of them answers without an error. -/
def returnsNil (sm : StateMachine) (log : List LogEntry) (attempts : List Attempt) : Bool :=
  attempts.any fun a => (waitResult sm log a.index).any fun res =>
    decide (proposeResult a.term res = .ok ())

section Acknowledged

variable {K : Finset Bytes} {engine : Engine} {levels : List Level} {cl : Client}
  {rs : List KvRequest} {c c' : Command} {cs : List Command} {log : List LogEntry}

theorem issue_fields (cl : Client) (r : KvRequest) :
    (cl.issue r).clientID = cl.id ∧ (cl.issue r).seq = cl.seq + 1 ∧ (cl.issue r).op.known = true := by
  cases r with
  | put key value => exact ⟨rfl, rfl, rfl⟩
  | delete key => exact ⟨rfl, rfl, rfl⟩

theorem issued_fields (h : c ∈ cl.issued rs) :
    c.clientID = cl.id ∧ cl.seq < c.seq ∧ c.op.known = true := by
  induction rs generalizing cl with
  | nil => cases h
  | cons r rs ih =>
    rcases List.mem_cons.mp h with rfl | h
    · obtain ⟨hid, hseq, hop⟩ := issue_fields cl r
      exact ⟨hid, by rw [hseq]; exact Nat.lt_succ_self _, hop⟩
    · obtain ⟨hid, hseq, hop⟩ := ih h
      exact ⟨hid, Nat.lt_of_succ_lt hseq, hop⟩

/-- A number belongs to one call. -/
theorem issued_injective (h : c ∈ cl.issued rs) (h' : c' ∈ cl.issued rs) (hseq : c.seq = c'.seq) :
    c = c' := by
  induction rs generalizing cl with
  | nil => cases h
  | cons r rs ih =>
    have hhead := (issue_fields cl r).2.1
    rcases List.mem_cons.mp h with rfl | h
    · rcases List.mem_cons.mp h' with rfl | h'
      · rfl
      · have hlt : cl.seq + 1 < c'.seq := (issued_fields h').2.1
        omega
    · rcases List.mem_cons.mp h' with rfl | h'
      · have hlt : cl.seq + 1 < c.seq := (issued_fields h).2.1
        omega
      · exact ih h h'

/-- The commands of the client before the first copy of `c`, and their requests. -/
theorem takeWhile_requests (hname : cl.id ≠ []) (hcs : ∀ c' ∈ cs, c'.clientID = cl.id →
    c' ∈ cl.issued rs) (hc : c ∈ cl.issued rs) :
    (∀ r ∈ ((cs.map Event.apply).filterMap Event.request?).takeWhile (· ≠ (cl.id, c.seq)),
      r.1 = cl.id → r.2 < c.seq) ↔
      ∀ c' ∈ cs.takeWhile (· ≠ c), c'.clientID = cl.id → c'.seq < c.seq := by
  induction cs with
  | nil => simp
  | cons x cs ih =>
    have hrest := ih fun c' hc' => hcs c' (List.mem_cons_of_mem _ hc')
    rw [List.map_cons, List.filterMap_cons]
    by_cases hx : x = c
    · subst hx
      obtain ⟨hid, -, hop⟩ := issued_fields hc
      have hreq : (Event.apply x).request? = some (cl.id, x.seq) := by
        rw [Event.request?, hid, if_pos ⟨hname, hop⟩]
      rw [hreq]
      simp
    · have htake : (x :: cs).takeWhile (· ≠ c) = x :: cs.takeWhile (· ≠ c) := by
        rw [List.takeWhile_cons, if_pos (by simpa using hx)]
      rw [htake, List.forall_mem_cons]
      by_cases hid : x.clientID = cl.id
      · have hmem := hcs x List.mem_cons_self hid
        have hne : x.seq ≠ c.seq := fun hseq => hx (issued_injective hmem hc hseq)
        have hreq : (Event.apply x).request? = some (cl.id, x.seq) := by
          rw [Event.request?, hid, if_pos ⟨hname, (issued_fields hmem).2.2⟩]
        rw [hreq, List.takeWhile_cons, if_pos (by simpa using hne), List.forall_mem_cons, hrest]
        exact ⟨fun h => ⟨fun _ => h.1 rfl, h.2⟩, fun h => ⟨fun _ => h.1 hid, h.2⟩⟩
      · rw [← hrest]
        cases hreq : (Event.apply x).request? with
        | none => exact ⟨fun h => ⟨fun h' => absurd h' hid, h⟩, fun h => h.2⟩
        | some r =>
          have hr : r.1 = x.clientID := by
            rw [Event.request?] at hreq
            split at hreq
            · cases hreq
              rfl
            · cases hreq
          have hne : r ≠ (cl.id, c.seq) := fun heq => hid (by rw [← hr, heq])
          rw [List.takeWhile_cons, if_pos (by simpa using hne), List.forall_mem_cons]
          exact ⟨fun h => ⟨fun h' => absurd h' hid, h.2⟩,
            fun h => ⟨fun h' => absurd (hr.symm.trans h') hid, h.2⟩⟩

/-- The entry of an attempt that was answered without an error. -/
theorem returnsNil_entry {sm : StateMachine} {attempts : List Attempt}
    (h : returnsNil sm log attempts = true) :
    ∃ a ∈ attempts, ∃ e, log[a.index]? = some e ∧ e.term = a.term := by
  obtain ⟨a, ha, hres⟩ := List.any_eq_true.mp h
  refine ⟨a, ha, ?_⟩
  cases he : log[a.index]? with
  | none =>
    rw [waitResult, he] at hres
    cases hres
  | some e =>
    rw [waitResult, he, Option.map_some, Option.any_some, decide_eq_true_eq, proposeResult] at hres
    refine ⟨e, rfl, ?_⟩
    by_contra hne
    rw [if_pos hne] at hres
    cases hres

/-- **When an acknowledged call has been carried out.** The log holds commands of the client's calls,
    in any order and with any copies; an entry with the index and the term of a proposal is that
    proposal's. A call that has returned without an error was carried out exactly once if and only
    if no later number of the client comes before its first copy in the log. -/
theorem acknowledged_executed (h : Stores K engine levels)
    (hfit : ∀ c ∈ commands log, Small K c.entry) (hname : cl.id ≠ [])
    (hlog : ∀ c ∈ commands log, c.clientID = cl.id → c ∈ cl.issued rs) (hc : c ∈ cl.issued rs)
    {attempts : List Attempt}
    (hown : ∀ a ∈ attempts, ∀ e, log[a.index]? = some e → e.term = a.term → e.command = some c)
    (hnil : returnsNil { engine := engine } log attempts = true) :
    StateMachine.executions (fun c' => c' = c) { engine := engine } ((commands log).map .apply) = 1 ↔
      ∀ c' ∈ (commands log).takeWhile (· ≠ c), c'.clientID = cl.id → c'.seq < c.seq := by
  obtain ⟨hid, hseq, hop⟩ := issued_fields hc
  have hpos : 0 < c.seq := Nat.lt_of_le_of_lt (Nat.zero_le _) hseq
  have hrequest : ∀ c' : Command, c'.clientID = cl.id → c'.op.known = true →
      (Event.apply c').request? = some (cl.id, c'.seq) := by
    intro c' hid' hop'
    rw [Event.request?, hid', if_pos ⟨hname, hop'⟩]
  have hmem : c ∈ commands log := by
    obtain ⟨a, ha, e, he, hterm⟩ := returnsNil_entry hnil
    exact List.mem_filterMap.mpr ⟨e, List.mem_of_getElem? he, hown a ha e he hterm⟩
  have hfits : ∀ e ∈ (commands log).map Event.apply, e.Fits K := by
    intro e he
    obtain ⟨c', hc', rfl⟩ := List.mem_map.mp he
    exact hfit c' hc'
  have hcount := StateMachine.executions_eq (r := (cl.id, c.seq))
    (p := fun c' => c' = c) { engine := engine } ⟨levels, h⟩ hfits fun c' hc' hop' => ?_
  · rw [hcount, ← takeWhile_requests hname hlog hc]
    refine HighWater.admissions_eq_one (fun r hr hrid => ?_) hpos ?_ hpos
    · -- the numbers of the client start at one
      obtain ⟨e, he, hreq⟩ := List.mem_filterMap.mp hr
      obtain ⟨c', hc', rfl⟩ := List.mem_map.mp he
      rw [Event.request?] at hreq
      split at hreq
      · cases hreq
        exact Nat.lt_of_le_of_lt (Nat.zero_le _) (issued_fields (hlog c' hc' hrid)).2.1
      · cases hreq
    · exact List.mem_filterMap.mpr ⟨_, List.mem_map_of_mem hmem, hrequest c hid hop⟩
  · rw [decide_eq_true_eq]
    obtain ⟨c'', hc'', heq⟩ := List.mem_map.mp hc'
    cases heq
    constructor
    · rintro rfl
      exact hrequest _ hid hop
    · intro hreq
      rw [Event.request?] at hreq
      split at hreq
      · have hpair := Option.some.inj hreq
        exact issued_injective (hlog c' hc'' (congrArg Prod.fst hpair)) hc (congrArg Prod.snd hpair)
      · cases hreq

/-- Two puts of one client that are in flight together. -/
def twoPuts : List KvRequest := [.put [1] [10], .put [2] [20]]

def firstPut : Command := ⟨.put, [1], [10], [99], 1⟩

def secondPut : Command := ⟨.put, [2], [20], [99], 2⟩

/-- The numbers arrive in order, the first one twice. -/
def inOrder : List LogEntry :=
  [⟨1, none⟩, ⟨1, some firstPut⟩, ⟨1, some firstPut⟩, ⟨1, some secondPut⟩]

theorem acknowledged_executed_inOrder : StateMachine.executions (fun c' => c' = firstPut)
    { engine := freshEngine } ((commands inOrder).map .apply) = 1 := by
  have hroom : ({[1], [2]} : Finset Bytes).card < 2 ^ 30 := by decide
  have hfit : ∀ c ∈ commands inOrder, Small {[1], [2]} c.entry := by
    intro c hc
    simp only [inOrder, commands, List.filterMap_cons, List.filterMap_nil, List.mem_cons,
      List.not_mem_nil, or_false] at hc
    rcases hc with rfl | rfl | rfl
    · exact ⟨by decide, by decide⟩
    · exact ⟨by decide, by decide⟩
    · exact ⟨by decide, by decide⟩
  have hlog : ∀ c ∈ commands inOrder, c.clientID = ({ id := [99] } : Client).id →
      c ∈ Client.issued { id := [99] } twoPuts := by decide
  have hown : ∀ a ∈ [(⟨1, 1⟩ : Attempt)], ∀ e, inOrder[a.index]? = some e → e.term = a.term →
      e.command = some firstPut := by
    intro a ha e he _
    rw [List.mem_singleton.mp ha] at he
    cases he
    rfl
  exact (acknowledged_executed (freshEngine_stores hroom) hfit (by decide) hlog (by decide) hown
    (by decide +kernel)).mpr (by decide)

/-- The second number reaches the log first. -/
def overtaken : List LogEntry := [⟨1, none⟩, ⟨1, some secondPut⟩, ⟨1, some firstPut⟩]

/-- **An overtaken call is lost.** Both calls return without an error, and the first command is never
    carried out. -/
theorem overtaken_call_lost : Client.issued { id := [99] } twoPuts = [firstPut, secondPut] ∧
    returnsNil { engine := freshEngine } overtaken [⟨2, 1⟩] = true ∧
    returnsNil { engine := freshEngine } overtaken [⟨1, 1⟩] = true ∧
    StateMachine.executions (fun c' => c' = firstPut) { engine := freshEngine }
      ((commands overtaken).map .apply) = 0 ∧
    (StateMachine.run { engine := freshEngine } ((commands overtaken).map .apply)).get [1] =
      .ok none := by
  decide +kernel

end Acknowledged

end Server
end DistKV
