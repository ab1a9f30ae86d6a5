import DistKV.Raft.Origin
import DistKV.Server.Waiters

/-!
# Acknowledged writes

A client's write returns without an error when the message of the index its proposal got has the
proposal's term. The message was made of an entry that the node held below its `commitIndex`
(`Fed`), and index and term determine an entry, so it is the entry the call has appended: the slot in
the waiter table may have belonged to other calls in between, the index may have been proposed again
in later terms, and file operations may have failed (`write_acknowledged_for_itself`).
-/

namespace DistKV
namespace Server

open Raft
open Run (IsRun)

section Run

variable {cfg : Config} {σ : Nat → Servers} {α : Nat → Option ServiceAction}

/-! ## Messages come from the log -/

/-- Before time `t` the applier of node `i` came upon `e` in the log, below its `commitIndex`. -/
def Collected (cfg : Config) (σ : Nat → Servers) (α : Nat → Option ServiceAction) (t i : Nat)
    (e : Entry) : Prop :=
  ∃ c < t, ∃ faults, raftActions cfg σ α c = some (.run (.collect i) faults) ∧
    e.index ≤ ((σ c).cluster.node i).commitIndex ∧
    ((σ c).cluster.node i).store.entryAt e.index = some e

/-- The message is a snapshot or made of such an entry. -/
def Fed (cfg : Config) (σ : Nat → Servers) (α : Nat → Option ServiceAction) (t i : Nat)
    (m : ApplyMsg) : Prop :=
  (∃ data index term, m = .snapshot data index term) ∨ ∃ e, m = message e ∧ Collected cfg σ α t i e

theorem Fed.mono {t t' i : Nat} {m : ApplyMsg} (h : Fed cfg σ α t i m) (htt : t ≤ t') :
    Fed cfg σ α t' i m := by
  rcases h with hsnap | ⟨e, hm, c, hc, rest⟩
  · exact .inl hsnap
  · exact .inr ⟨e, hm, c, Nat.lt_of_lt_of_le hc htt, rest⟩

theorem fed_run (hrun : IsRun (Servers.step cfg) (Servers.init cfg) σ α) (t i : Nat) :
    Carries (Fed cfg σ α t i) ((σ t).cluster.procs i) := by
  have hcluster := cluster_run hrun
  have hchain := (chainRule cfg).run hcluster fun _ _ _ _ _ _ _ _ _ => trivial
  induction t with
  | zero =>
    rw [hrun.start]
    exact Carries.start i
  | succ t ih =>
    have hmono : ∀ m, Fed cfg σ α t i m → Fed cfg σ α (t + 1) i m :=
      fun _ hm => hm.mono (Nat.le_succ t)
    cases hact : raftActions cfg σ α t with
    | none =>
      have hidle : (σ (t + 1)).cluster = (σ t).cluster := hcluster.idle t hact
      rw [hidle]
      exact ⟨fun m hm => hmono m (ih.sent m hm), fun m hm => hmono m (ih.batch m hm), ih.installs⟩
    | some act =>
      refine ih.step (hcluster.next t act hact) (fun _ => hmono)
        (fun data index term => .inl ⟨data, index, term, rfl⟩) fun faults n eff action exec m hm => ?_
      subst action
      rw [collectLoop_messages (Node.exec_collect exec).1, pendingEntries_withFaults] at hm
      obtain ⟨e, he, rfl⟩ := List.mem_map.mp hm
      obtain ⟨index, hle, hat⟩ := visits_held he
      have hindex : e.index = index := entryAt_index ((hchain t).node i).2.chain hat
      subst hindex
      exact .inr ⟨e, rfl, t, Nat.lt_succ_self t, faults, hact, hle, hat⟩

/-! ## What a call has written and been told -/

/-- The entry of a client's command. -/
def commandEntry (command : Bytes) (index term : Nat) : Entry :=
  { term := term, index := index, data := command }

/-- Before time `t` call `k` appended its command to the log of node `i`, at the end of it. -/
def Wrote (σ : Nat → Servers) (α : Nat → Option ServiceAction) (command : Bytes)
    (i k t index term : Nat) : Prop :=
  ∃ j < t, ∃ faults, α j = some (.propose k faults) ∧
    index = ((σ j).cluster.node i).store.lastIndex + 1 ∧
    commandEntry command index term ∈ ((σ (j + 1)).cluster.node i).store.log

/-- Before time `t` the loop of server `i` took a message of `index` that made this answer; a command
    was passed to the state machine, with the outcome the answer has. -/
def Delivered (σ : Nat → Servers) (α : Nat → Option ServiceAction) (i t index : Nat) (ans : Answer) :
    Prop :=
  ∃ j < t, ∃ failed msg, α j = some (.consume i failed) ∧
    ((σ j).cluster.procs i).applyCh[((σ j).servers i).consumed]? = some msg ∧ Tells index ans msg ∧
    ∀ data index term, msg = .command data index term → ans.failed = failed

/-- Where the handler of a write may stand. -/
def Backed (σ : Nat → Servers) (α : Nat → Option ServiceAction) (command : Bytes) (i k t : Nat) :
    Stage → Prop
  | .entered cc => cc = none
  | .proposed cc index term => cc = none ∧ Wrote σ α command i k t index term
  | .waiting cc index term => cc = none ∧ Wrote σ α command i k t index term
  | .answered cc index term ans =>
    cc = none ∧ Wrote σ α command i k t index term ∧ Delivered σ α i t index ans
  | .returned (.ok .done) => ∃ index term, Wrote σ α command i k t index term ∧
    Delivered σ α i t index { term := term }
  | _ => True

variable {command : Bytes} {i k t t' index term : Nat}

theorem Wrote.mono (h : Wrote σ α command i k t index term) (htt : t ≤ t') :
    Wrote σ α command i k t' index term := by
  obtain ⟨j, hj, rest⟩ := h
  exact ⟨j, Nat.lt_of_lt_of_le hj htt, rest⟩

theorem Delivered.mono {ans : Answer} (h : Delivered σ α i t index ans) (htt : t ≤ t') :
    Delivered σ α i t' index ans := by
  obtain ⟨j, hj, rest⟩ := h
  exact ⟨j, Nat.lt_of_lt_of_le hj htt, rest⟩

theorem Backed.mono {stage : Stage} (h : Backed σ α command i k t stage) (htt : t ≤ t') :
    Backed σ α command i k t' stage := by
  cases stage with
  | proposed cc index term => exact ⟨h.1, h.2.mono htt⟩
  | waiting cc index term => exact ⟨h.1, h.2.mono htt⟩
  | answered cc index term ans => exact ⟨h.1, h.2.1.mono htt, h.2.2.mono htt⟩
  | returned out =>
    cases out with
    | error err => trivial
    | ok r =>
      cases r with
      | done =>
        obtain ⟨index, term, hwrote, htold⟩ := h
        exact ⟨index, term, hwrote.mono htt, htold.mono htt⟩
      | looked n => trivial
  | _ => exact h

/-- A command that gets a place in the log is there, whichever file operations fail. -/
theorem propose_ok {n : Node} {r : Nat × Nat} (h : (n.propose command).2 = .ok r) :
    r.1 = n.store.lastIndex + 1 ∧ commandEntry command r.1 r.2 ∈ (n.propose command).1.store.log := by
  rw [Node.propose] at h ⊢
  split at h
  · cases h
  next hl =>
  rw [if_neg hl]
  simp only [Node.appendEntryLocked] at h ⊢
  split at h
  · next hok =>
    obtain rfl := Except.ok.inj h
    refine ⟨rfl, ?_⟩
    rw [if_pos hok]
    show _ ∈ (n.store.appendEntries [_]).1.log
    rw [(appendEntries_ok hok).1]
    exact List.mem_append_right _ List.mem_cons_self
  · cases h

theorem propose_wrote {c : Cluster} {s : Servers} {faults : List Bool}
    (hstep : s.cluster.step cfg (.run (s.proposal i faults (.write command) none).1 faults) = some c)
    (hout : (s.proposal i faults (.write command) none).2 = .ok (index, term)) :
    index = (s.cluster.node i).store.lastIndex + 1 ∧
      commandEntry command index term ∈ (c.node i).store.log := by
  obtain ⟨j, n, eff, ho, rfl⟩ := step_run hstep
  obtain ⟨op, hres, -, hex⟩ := outcome_some ho
  cases resolve_cases hres with
  | propose =>
    have hlock := Node.exec_unlocked hex
    simp only [Node.exec, hlock, Bool.false_eq_true, if_false] at hex
    obtain ⟨rfl, -⟩ := Prod.mk.inj (Option.some.inj hex)
    rw [node_finishSection, if_pos rfl]
    exact propose_ok hout

/-- The answer that comes with a command says whether the state machine failed. -/
theorem consume_answer {s s' : Servers} {failed : Bool} {call call' : RpcCall} {data : Bytes}
    {cc cc' : Option ConfChange} {index' term' key keyTerm : Nat} {ans : Answer}
    (hs : s.consume i failed = some s') (hk : s.calls[k]? = some call)
    (hk' : s'.calls[k]? = some call') (before : call.stage = .waiting cc index term)
    (after : call'.stage = .answered cc' index' term' ans)
    (next : (s.cluster.procs i).applyCh[(s.servers i).consumed]? = some (.command data key keyTerm)) :
    ans.failed = failed := by
  obtain ⟨msg, hmsg, rfl⟩ := Option.map_eq_some_iff.mp hs
  obtain rfl := Option.some.inj (next.symm.trans hmsg)
  obtain ⟨call₀, hk₀, rfl | ⟨-, cc₀, index₀, term₀, -, rfl⟩⟩ := wake_calls hk'
  · obtain rfl := Option.some.inj (hk.symm.trans hk₀)
    rw [before] at after
    cases after
  · obtain ⟨-, -, -, rfl⟩ := Stage.answered.inj after
    rfl

theorem backed_run (hrun : IsRun (Servers.step cfg) (Servers.init cfg) σ α) (t k : Nat)
    (call : RpcCall) (hk : (σ t).calls[k]? = some call) (hrpc : call.rpc = .write command) :
    Backed σ α command call.server k t call.stage := by
  induction t generalizing call with
  | zero =>
    rw [hrun.start] at hk
    cases hk
  | succ t ih =>
    cases ha : α t with
    | none =>
      rw [hrun.idle t ha] at hk
      exact (ih call hk hrpc).mono (Nat.le_succ t)
    | some a =>
      have hs := hrun.next t a ha
      rcases step_calls hs hk with ⟨call₀, hk₀, hmove⟩ | ⟨i, rpc, -, -, -, -, rfl⟩
      swap
      · subst hrpc
        rfl
      have hold : call₀.rpc = .write command → Backed σ α command call₀.server k t call₀.stage :=
        ih call₀ hk₀
      cases hmove with
      | stay => exact (hold hrpc).mono (Nat.le_succ t)
      | place cc index term faults action stage out step =>
        have hnone := hold hrpc
        rw [stage] at hnone
        obtain rfl : cc = none := hnone
        have hrpc₀ : call₀.rpc = .write command := hrpc
        rw [hrpc₀] at out step
        obtain ⟨hindex, hmem⟩ := propose_wrote step out
        exact ⟨rfl, t, Nat.lt_succ_self t, faults, by rw [ha, action], hindex, hmem⟩
      | register cc index term action stage =>
        have hwrote := hold hrpc
        rw [stage] at hwrote
        exact ⟨hwrote.1, hwrote.2.mono (Nat.le_succ t)⟩
      | answer cc index term i key failed msg ans action stage waiter next tells =>
        have hwrote := hold hrpc
        rw [stage] at hwrote
        -- the table names the call for the index it waits for
        obtain ⟨call', cc', term', hk', hserver, hstage'⟩ := registered_run hrun t i key k waiter
        obtain rfl := Option.some.inj (hk₀.symm.trans hk')
        rw [stage] at hstage'
        obtain ⟨rfl, rfl, rfl⟩ := Stage.waiting.inj hstage'
        subst action hserver
        refine ⟨hwrote.1, hwrote.2.mono (Nat.le_succ t), t, Nat.lt_succ_self t, failed, msg, ha, next,
          tells, ?_⟩
        rintro data key keyTerm rfl
        exact consume_answer hs hk₀ hk stage rfl next
      | done cc index term ans action stage right worked last =>
        have htold := hold hrpc
        rw [stage] at htold
        obtain ⟨-, hwrote, htold⟩ := htold
        obtain ⟨ansTerm, ansFailed⟩ := ans
        obtain rfl : ansTerm = term := right
        obtain rfl : ansFailed = false := worked
        exact ⟨index, ansTerm, hwrote.mono (Nat.le_succ t), htold.mono (Nat.le_succ t)⟩
      | second cc index term ans action stage right first =>
        have htold := hold hrpc
        rw [stage] at htold
        cases htold.1
      | _ => trivial

/-- The entry of a write that has returned was found below `commitIndex` and taken from `applyCh`. -/
theorem write_collected (hrun : IsRun (Servers.step cfg) (Servers.init cfg) σ α)
    (fixed : ∀ k act, raftActions cfg σ α k = some act → ¬act.Reconfigures (σ k).cluster)
    {call : RpcCall} (hk : (σ t).calls[k]? = some call) (hrpc : call.rpc = .write command)
    (hret : call.stage = .returned (.ok .done)) :
    ∃ index term, Wrote σ α command call.server k t index term ∧
      Collected cfg σ α t call.server (commandEntry command index term) ∧
      ∃ j < t, α j = some (.consume call.server false) ∧
        ((σ j).cluster.procs call.server).applyCh[((σ j).servers call.server).consumed]? =
          some (.command command index term) := by
  have hbacked := backed_run hrun t k call hk hrpc
  rw [hret] at hbacked
  obtain ⟨index, term, hwrote, c, hc, failed, msg, hconsume, hnext, htells, hfailed⟩ := hbacked
  -- the message was made of an entry with this index and term
  have hfed := (fed_run hrun c call.server).sent msg (List.mem_of_getElem? hnext)
  rcases hfed with ⟨data, i, term', rfl⟩ | ⟨x, rfl, l, hl, faults', hcollect, hle, hat⟩
  · cases htells
  have hx : x.index = index ∧ x.term = term := by
    unfold message at htells
    split at htells
    · exact ⟨htells.1, (congrArg Answer.term htells.2).symm⟩
    · exact ⟨htells.1, htells.2.symm⟩
  obtain ⟨j, hj, faults, hact, hindex, hmem⟩ := hwrote
  obtain rfl := entry_unique (cluster_run hrun) fixed (mem_of_entryAt hat) hmem hx.1 hx.2
  obtain rfl : false = failed := hfailed _ _ _ rfl
  exact ⟨index, term, ⟨j, hj, faults, hact, hindex, hmem⟩,
    ⟨l, Nat.lt_trans hl hc, faults', hcollect, hle, hat⟩, c, hc, hconsume, hnext⟩

end Run

/-! ## The theorem -/

/-- **A write is acknowledged only for itself.** In every run with fixed voters, whatever fails: if a
    call that writes `command` has returned without an error, then there is an entry, with its command,
    that this call appended at the end of the leader's log; the applier of its server came upon this
    very entry at its index, below `commitIndex`; and the loop of the server took it from `applyCh` and
    passed the command to the state machine, which did not fail. No log has another entry with its
    index and term, at any time; and without storage failures no node ever has another entry at
    the index below its `commitIndex`. -/
theorem write_acknowledged_for_itself (cfg : Config) (σ : Nat → Servers)
    (α : Nat → Option ServiceAction) (hrun : IsRun (Servers.step cfg) (Servers.init cfg) σ α)
    (fixed : ∀ k act, raftActions cfg σ α k = some act → ¬act.Reconfigures (σ k).cluster) (t k : Nat)
    (call : RpcCall) (command : Bytes) (hk : (σ t).calls[k]? = some call)
    (hrpc : call.rpc = .write command) (hret : call.stage = .returned (.ok .done)) :
    ∃ e : Entry, e.type = .normal ∧ e.data = command ∧
      (∃ j < t, ∃ faults, α j = some (.propose k faults) ∧
        e.index = ((σ j).cluster.node call.server).store.lastIndex + 1 ∧
        e ∈ ((σ (j + 1)).cluster.node call.server).store.log) ∧
      (∃ j < t, ∃ faults, raftActions cfg σ α j = some (.run (.collect call.server) faults) ∧
        e.index ≤ ((σ j).cluster.node call.server).commitIndex ∧
        ((σ j).cluster.node call.server).store.entryAt e.index = some e) ∧
      (∃ j < t, α j = some (.consume call.server false) ∧
        ((σ j).cluster.procs call.server).applyCh[((σ j).servers call.server).consumed]? =
          some (.command command e.index e.term)) ∧
      (∀ j b x, x ∈ ((σ j).cluster.node b).store.log → x.index = e.index → x.term = e.term →
        x = e) ∧
      ((∀ k act, raftActions cfg σ α k = some act → act.FaultFree) →
        ∀ j b x, e.index ≤ ((σ j).cluster.node b).commitIndex →
          ((σ j).cluster.node b).store.entryAt e.index = some x → x = e) := by
  have hcluster := cluster_run hrun
  obtain ⟨index, term, ⟨j, hj, faults, hact, hindex, hmem⟩, ⟨l, hl, faults', hcollect, hle, hat⟩,
    htook⟩ := write_collected hrun fixed hk hrpc hret
  refine ⟨commandEntry command index term, rfl, rfl, ⟨j, hj, faults, hact, hindex, hmem⟩,
    ⟨l, hl, faults', hcollect, hle, hat⟩, htook,
    fun _ _ _ hx hi ht => entry_unique hcluster fixed hx hmem hi ht, ?_⟩
  intro free j b x hcommit hentry
  exact (committed_agree hcluster free (overlapping_fixed hcluster fixed) j l b call.server index
    hcommit hle).entry x _ hentry hat

/-- After `firstTerm` a client writes; the entry is committed with node 2, and the call returns. -/
def writeSeven : List ServiceAction :=
  firstTerm.map .raft ++ [.call 1 (.write [7]), .propose 0 [], .register 0] ++ commitSecond 4 2 ++
    [.consume 1 false, .consume 1 false, .resume 0]

theorem write_acknowledged_for_itself_seven :
    (serviceAt addressed writeSeven 19).calls.map (·.stage) = [.returned (.ok .done)] ∧
    ∃ e : Entry, e.data = [7] ∧ ∃ j < 19, writeSeven[j]? = some (.consume 1 false) ∧
      ((serviceAt addressed writeSeven j).cluster.procs 1).applyCh[((serviceAt addressed writeSeven
        j).servers 1).consumed]? = some (.command [7] e.index e.term) := by
  have hreturned : (serviceAt addressed writeSeven 19).calls =
      [⟨1, .write [7], .returned (.ok .done), []⟩] := by decide +kernel
  have hrun : IsRun (Servers.step addressed) (Servers.init addressed)
      (serviceAt addressed writeSeven) (fun k => writeSeven[k]?) :=
    isRun_serviceAt (by decide +kernel)
  have hquiet : ∀ k < 19, ∀ act ∈ raftActions addressed (serviceAt addressed writeSeven)
      (fun k => writeSeven[k]?) k, ∀ p ∈ act.section?, p.1.proposesConfChange = false := by
    decide +kernel
  have hfixed : ∀ k act, raftActions addressed (serviceAt addressed writeSeven)
      (fun k => writeSeven[k]?) k = some act →
      ¬act.Reconfigures (serviceAt addressed writeSeven k).cluster := by
    intro k act hact
    obtain ⟨a, ha, -⟩ := Option.bind_eq_some_iff.mp hact
    exact Action.not_reconfigures (hquiet k (List.getElem?_eq_some_iff.mp ha).1 act hact) _
  obtain ⟨e, -, hdata, -, -, ⟨j, hj, hact, hmsg⟩, -⟩ := write_acknowledged_for_itself addressed _ _
    hrun hfixed 19 0 _ [7] (by rw [hreturned]; rfl) rfl rfl
  exact ⟨by rw [hreturned]; rfl, e, hdata, j, hj, hact, hmsg⟩

end Server
end DistKV
