import DistKV.Raft.Section
import DistKV.Server.Service

/-!
# What a step of the service does

One statement for each part of the state: the raft layer takes one step or none, so that the clusters
along a run of the service are a run of the cluster (`cluster_run`); the loop of a server is idle,
takes one message or starts afresh (`step_loop`); a call stays where it is or makes one of the moves
of a handler (`step_calls`). What is proved about the servers is proved from these.
-/

namespace DistKV
namespace Server

open Raft
open Run (IsRun)

/-! ## What a process hands over -/

/-- What a step of the raft layer does to the batch of process `j` and to what it has sent. -/
inductive Sends (cfg : Config) (c : Cluster) (act : Action) (c' : Cluster) (j : Nat) : Prop
  | same (alive : ∀ during faults point keep, act ≠ .restart j during faults point keep)
      (batch : (c'.procs j).batch = (c.procs j).batch)
      (applyCh : (c'.procs j).applyCh = (c.procs j).applyCh)
      (start : (c'.procs j).startIndex = (c.procs j).startIndex)
      (rests : ∀ faults, act ≠ .run (.collect j) faults)
  | collect (faults : List Bool) (n : Node) (eff : Effect)
      (action : act = .run (.collect j) faults) (sent : (c.procs j).batch = [])
      (exec : ((c.node j).withFaults faults).exec .collect = some (n, eff)) (node : c'.node j = n)
      (batch : (c'.procs j).batch = eff.collected)
      (applyCh : (c'.procs j).applyCh = (c.procs j).applyCh)
      (start : (c'.procs j).startIndex = (c.procs j).startIndex)
  | emit (m : ApplyMsg) (rest : List ApplyMsg) (action : act = .emit j)
      (held : (c.procs j).batch = m :: rest) (batch : (c'.procs j).batch = rest)
      (applyCh : (c'.procs j).applyCh = (c.procs j).applyCh ++ [m])
      (start : (c'.procs j).startIndex = (c.procs j).startIndex)
  | install (k : Nat) (q : Nat × Response × ApplyMsg) (action : act = .emitInstall j k)
      (held : (c.procs j).installs[k]? = some q)
      (batch : (c'.procs j).batch = (c.procs j).batch)
      (applyCh : (c'.procs j).applyCh = (c.procs j).applyCh ++ [q.2.2])
      (start : (c'.procs j).startIndex = (c.procs j).startIndex)
  | restart (during : Option Event) (faults : List Bool) (point keep : Nat) (store : DiskStorage)
      (action : act = .restart j during faults point keep)
      (proc : c'.procs j = Process.start cfg j store)

section Raft

variable {cfg : Config} {c c' : Cluster} {act : Action}

theorem cluster_sends (hs : c.step cfg act = some c') (j : Nat) : Sends cfg c act c' j := by
  cases act with
  | run e faults =>
    obtain ⟨i, n, eff, ho, rfl⟩ := step_run hs
    obtain ⟨op, hres, -, hex⟩ := outcome_some ho
    have hproc : (c.finishSection e i n eff).procs j =
        if j = i then (c.procs i).next e n eff else c.procs j := by
      rw [procs_finishSection, Function.update_apply]
    by_cases hj : j = i
    swap
    · rw [if_neg hj] at hproc
      refine .same (by simp) (by rw [hproc]) (by rw [hproc]) (by rw [hproc]) fun _ heq => ?_
      obtain ⟨rfl, -⟩ := Action.run.inj heq
      cases resolve_cases hres
      exact hj rfl
    subst hj
    rw [if_pos rfl] at hproc
    cases resolve_cases hres with
    | collect _ sent =>
      refine .collect faults n eff rfl sent hex ?_ (by rw [hproc]; rfl) (by rw [hproc]; rfl)
        (by rw [hproc]; rfl)
      rw [node_finishSection, if_pos rfl]
    | _ =>
      exact .same (by simp) (by rw [hproc]; rfl) (by rw [hproc]; rfl) (by rw [hproc]; rfl) (by simp)
  | restart i during faults point keep =>
    obtain ⟨-, files, store, -, -, rfl⟩ := step_restart hs
    by_cases hj : j = i
    · subst hj
      refine .restart during faults point keep store rfl ?_
      simp only [Cluster.restarted, Function.update_self]
    · have hproc : (c.restarted cfg i store).procs j = c.procs j := Function.update_of_ne hj _ _
      refine .same (fun _ _ _ _ heq => ?_) (by rw [hproc]) (by rw [hproc]) (by rw [hproc]) (by simp)
      cases heq
      exact hj rfl
  | emit i =>
    simp only [Cluster.step] at hs
    split at hs
    · cases hs
    next m rest hbatch =>
    obtain rfl := Option.some.inj hs
    by_cases hj : j = i
    · subst hj
      have hproc : ∀ p, (c.setProc j p).procs j = p := fun p => Function.update_self ..
      refine .emit m rest rfl hbatch ?_ ?_ ?_ <;> rw [hproc]
    · have hproc : ∀ p, (c.setProc i p).procs j = c.procs j := fun p => Function.update_of_ne hj _ _
      refine .same (by simp) ?_ ?_ ?_ (by simp) <;> rw [hproc]
  | emitInstall i k =>
    obtain ⟨q, hq, rfl⟩ := Option.map_eq_some_iff.mp hs
    by_cases hj : j = i
    · subst hj
      have hproc : ∀ p, (c.setProc j p).procs j = p := fun p => Function.update_self ..
      refine .install k q rfl hq ?_ ?_ ?_ <;> simp only [hproc]
    · have hproc : ∀ p, (c.setProc i p).procs j = c.procs j := fun p => Function.update_of_ne hj _ _
      refine .same (by simp) ?_ ?_ ?_ (by simp) <;> simp only [hproc]
  | _ =>
    have hp := silent_procs hs rfl (by simp) (by simp) (by simp)
    exact .same (by simp) (by rw [hp]) (by rw [hp]) (by rw [hp]) (by simp)

end Raft

/-! ## The raft layer of a service step -/

/-- The step the raft layer takes in an action of the service. -/
def Servers.raftAction (cfg : Config) (s : Servers) : ServiceAction → Option Action
  | .raft act => some act
  | .propose k faults =>
    s.calls[k]?.bind fun call =>
      match call.stage with
      | .entered cc => some (.run (s.proposal call.server faults call.rpc cc).1 faults)
      | _ => none
  | .ask k =>
    s.calls[k]?.bind fun call =>
      if call.stage = .asking ∧ (s.cluster.step cfg (.readIndex call.server)).isSome then
        some (.readIndex call.server)
      else none
  | _ => none

section Service

variable {cfg : Config} {s s' : Servers} {a : ServiceAction}

/-- The waiter table is all a woken call touches in its server. -/
theorem Servers.wake_spec (i index : Nat) (answer : Answer) :
    (s.wake i index answer).cluster = s.cluster ∧
    (s.wake i index answer).verdicts = s.verdicts ∧
    ∀ j, ((s.wake i index answer).servers j).consumed = (s.servers j).consumed ∧
      ((s.wake i index answer).servers j).applied = (s.servers j).applied ∧
      ((s.wake i index answer).servers j).addrs = (s.servers j).addrs := by
  unfold Servers.wake
  simp only
  split
  · exact ⟨rfl, rfl, fun j => ⟨rfl, rfl, rfl⟩⟩
  · refine ⟨rfl, rfl, fun j => ?_⟩
    simp only [Servers.setServer, Function.update_apply]
    split
    · next hj => subst hj; exact ⟨rfl, rfl, rfl⟩
    · exact ⟨rfl, rfl, rfl⟩

/-- What a message does to the addresses of the transport. -/
def learn (addrs : Nat → Option Bytes) : ApplyMsg → Nat → Option Bytes
  | .confChange cc _ _ => onConfChangeApplied addrs cc
  | _ => addrs

/-- What a message does to `applied`; a snapshot that cannot be restored is skipped. -/
def reach (applied : Nat) (failed : Bool) : ApplyMsg → Nat
  | .snapshot _ index _ => if failed then applied else index
  | .confChange _ index _ => index
  | .command _ index _ => index

/-- What one round of the loop does. -/
theorem Servers.consume_spec {i : Nat} {failed : Bool} (h : s.consume i failed = some s') :
    ∃ msg, (s.cluster.procs i).applyCh[(s.servers i).consumed]? = some msg ∧
      s'.cluster = s.cluster ∧ s'.verdicts = s.verdicts ∧
      (s'.servers i).consumed = (s.servers i).consumed + 1 ∧
      (s'.servers i).applied = reach (s.servers i).applied failed msg ∧
      (s'.servers i).addrs = learn (s.servers i).addrs msg ∧
      ∀ j, j ≠ i → (s'.servers j).consumed = (s.servers j).consumed ∧
        (s'.servers j).applied = (s.servers j).applied ∧
        (s'.servers j).addrs = (s.servers j).addrs := by
  obtain ⟨msg, hmsg, rfl⟩ := Option.map_eq_some_iff.mp h
  refine ⟨msg, hmsg, ?_⟩
  have hself : ∀ st, (s.setServer i st).servers i = st := fun st => Function.update_self ..
  have hother : ∀ st j, j ≠ i → (s.setServer i st).servers j = s.servers j :=
    fun st j hj => Function.update_of_ne hj _ _
  cases msg with
  | snapshot data index term =>
    refine ⟨rfl, rfl, ?_, ?_, ?_, fun j hj => ?_⟩
    · simp only [hself]
      split <;> rfl
    · simp only [hself, reach]
      split <;> rfl
    · simp only [hself, learn]
      split <;> rfl
    · simp only [hother _ j hj, and_self]
  | confChange cc index term =>
    obtain ⟨hcluster, hverdicts, hserver⟩ := Servers.wake_spec (s := s.setServer i
      { s.servers i with
        consumed := (s.servers i).consumed + 1, applied := index
        addrs := onConfChangeApplied (s.servers i).addrs cc }) i index { term := term }
    refine ⟨hcluster, hverdicts, ?_, ?_, ?_, fun j hj => ?_⟩
    · rw [(hserver i).1, hself]
    · rw [(hserver i).2.1, hself]; rfl
    · rw [(hserver i).2.2, hself]; rfl
    · rw [(hserver j).1, (hserver j).2.1, (hserver j).2.2, hother _ j hj]
      exact ⟨rfl, rfl, rfl⟩
  | command data index term =>
    obtain ⟨hcluster, hverdicts, hserver⟩ := Servers.wake_spec (s := s.setServer i
      { s.servers i with consumed := (s.servers i).consumed + 1, applied := index }) i index
      { term := term, failed := failed }
    refine ⟨hcluster, hverdicts, ?_, ?_, ?_, fun j hj => ?_⟩
    · rw [(hserver i).1, hself]
    · rw [(hserver i).2.1, hself]; rfl
    · rw [(hserver i).2.2, hself]; rfl
    · rw [(hserver j).1, (hserver j).2.1, (hserver j).2.2, hother _ j hj]
      exact ⟨rfl, rfl, rfl⟩

/-- A proposal that is made. -/
theorem Servers.propose_spec {k : Nat} {faults : List Bool} (h : s.propose cfg k faults = some s') :
    ∃ call cc, s.calls[k]? = some call ∧ call.stage = .entered cc ∧
      s.cluster.step cfg (.run (s.proposal call.server faults call.rpc cc).1 faults) =
        some s'.cluster ∧
      s'.servers = s.servers ∧ s'.verdicts = s.verdicts ∧
      ((∃ err, s'.calls = (s.setStage k (.returned (.error err))).calls) ∨
        ∃ index term, (s.proposal call.server faults call.rpc cc).2 = .ok (index, term) ∧
          s'.calls = s.calls.set k (call.place cc index term)) := by
  obtain ⟨call, hk, h⟩ := Option.bind_eq_some_iff.mp h
  cases hstage : call.stage with
  | entered cc =>
    simp only [hstage] at h
    obtain ⟨c, hc, rfl⟩ := Option.map_eq_some_iff.mp h
    refine ⟨call, cc, hk, hstage, ?_⟩
    cases hout : (s.proposal call.server faults call.rpc cc).2 with
    | error err => exact ⟨hc, rfl, rfl, .inl ⟨_, rfl⟩⟩
    | ok r => exact ⟨hc, rfl, rfl, .inr ⟨r.1, r.2, rfl, rfl⟩⟩
  | _ => simp only [hstage] at h; cases h

theorem Servers.ask_spec {k : Nat} (h : s.ask cfg k = some s') :
    ∃ call, s.calls[k]? = some call ∧ call.stage = .asking ∧ s'.servers = s.servers ∧
      s'.verdicts = s.verdicts ∧
      ((s.cluster.step cfg (.readIndex call.server) = some s'.cluster ∧
          s'.calls = (s.setStage k (.reading s.cluster.reads.length)).calls) ∨
        (s.cluster.step cfg (.readIndex call.server) = none ∧ s'.cluster = s.cluster ∧
          ∃ err, s'.calls = (s.setStage k (.returned (.error err))).calls)) := by
  obtain ⟨call, hk, h⟩ := Option.bind_eq_some_iff.mp h
  cases hstage : call.stage with
  | asking =>
    simp only [hstage] at h
    refine ⟨call, hk, hstage, ?_⟩
    cases hc : s.cluster.step cfg (.readIndex call.server) with
    | none =>
      simp only [hc] at h
      obtain rfl := Option.some.inj h
      exact ⟨rfl, rfl, .inr ⟨rfl, rfl, _, rfl⟩⟩
    | some c =>
      simp only [hc] at h
      obtain rfl := Option.some.inj h
      exact ⟨rfl, rfl, .inl ⟨rfl, rfl⟩⟩
  | _ => simp only [hstage] at h; cases h

/-- The other handlers move one call and perhaps take it out of the waiter table. -/
structure Quiet (s s' : Servers) : Prop where
  cluster : s'.cluster = s.cluster
  verdicts : s'.verdicts = s.verdicts
  consumed : ∀ j, (s'.servers j).consumed = (s.servers j).consumed
  applied : ∀ j, (s'.servers j).applied = (s.servers j).applied
  addrs : ∀ j, (s'.servers j).addrs = (s.servers j).addrs

theorem Quiet.stage (k : Nat) (stage : Stage) : Quiet s (s.setStage k stage) :=
  ⟨rfl, rfl, fun _ => rfl, fun _ => rfl, fun _ => rfl⟩

theorem Quiet.waiters (k i : Nat) (stage : Stage) (waiters : Nat → Option Nat) :
    Quiet s ((s.setServer i { s.servers i with waiters := waiters }).setStage k stage) := by
  have hserver : ∀ j, ((s.setServer i { s.servers i with waiters := waiters }).servers j).consumed =
        (s.servers j).consumed ∧
      ((s.setServer i { s.servers i with waiters := waiters }).servers j).applied =
        (s.servers j).applied ∧
      ((s.setServer i { s.servers i with waiters := waiters }).servers j).addrs =
        (s.servers j).addrs := by
    intro j
    simp only [Servers.setServer, Function.update_apply]
    split
    · next hj => subst hj; exact ⟨rfl, rfl, rfl⟩
    · exact ⟨rfl, rfl, rfl⟩
  exact ⟨rfl, rfl, fun j => (hserver j).1, fun j => (hserver j).2.1, fun j => (hserver j).2.2⟩

/-! ## Calls -/

/-- The message answers the waiter of `index`. -/
def Tells (index : Nat) (answer : Answer) : ApplyMsg → Prop
  | .command _ i term => i = index ∧ answer.term = term
  | .confChange _ i term => i = index ∧ answer = { term := term }
  | .snapshot _ _ _ => False

/-- What happens to call `k` in a step. -/
inductive Moves (cfg : Config) (s : Servers) (a : ServiceAction) (s' : Servers) (k : Nat)
    (call : RpcCall) : RpcCall → Prop
  | stay : Moves cfg s a s' k call call
  | fail (err : CallError) : Moves cfg s a s' k call { call with stage := .returned (.error err) }
  | place (cc : Option ConfChange) (index term : Nat) (faults : List Bool)
      (action : a = .propose k faults) (stage : call.stage = .entered cc)
      (out : (s.proposal call.server faults call.rpc cc).2 = .ok (index, term))
      (step : s.cluster.step cfg (.run (s.proposal call.server faults call.rpc cc).1 faults) =
        some s'.cluster) : Moves cfg s a s' k call (call.place cc index term)
  | register (cc : Option ConfChange) (index term : Nat) (action : a = .register k)
      (stage : call.stage = .proposed cc index term) :
      Moves cfg s a s' k call { call with stage := .waiting cc index term }
  | answer (cc : Option ConfChange) (index term i key : Nat) (failed : Bool) (msg : ApplyMsg)
      (ans : Answer) (action : a = .consume i failed) (stage : call.stage = .waiting cc index term)
      (waiter : (s.servers i).waiters key = some k)
      (next : (s.cluster.procs i).applyCh[(s.servers i).consumed]? = some msg)
      (tells : Tells key ans msg) :
      Moves cfg s a s' k call { call with stage := .answered cc index term ans }
  | done (cc : Option ConfChange) (index term : Nat) (ans : Answer) (action : a = .resume k)
      (stage : call.stage = .answered cc index term ans) (right : ans.term = term)
      (worked : ans.failed = false) (last : ∀ x ∈ cc, x.type = .leaveJoint) :
      Moves cfg s a s' k call { call with stage := .returned (.ok .done) }
  | second (cc : ConfChange) (index term : Nat) (ans : Answer) (action : a = .resume k)
      (stage : call.stage = .answered (some cc) index term ans) (right : ans.term = term)
      (first : cc.type ≠ .leaveJoint) :
      Moves cfg s a s' k call { call with stage := .entered (some { type := .leaveJoint }) }
  | ask (action : a = .ask k) (stage : call.stage = .asking)
      (step : s.cluster.step cfg (.readIndex call.server) = some s'.cluster) :
      Moves cfg s a s' k call { call with stage := .reading s.cluster.reads.length }
  | read (r index : Nat) (rd : Read) (action : a = .readDone k) (stage : call.stage = .reading r)
      (held : s.cluster.reads[r]? = some rd) (status : rd.status = .returned index) :
      Moves cfg s a s' k call { call with stage := .lagging index }
  | look (readIdx : Nat) (action : a = .look k) (stage : call.stage = .lagging readIdx)
      (enough : readIdx ≤ (s.servers call.server).applied) :
      Moves cfg s a s' k call
        { call with stage := .returned (.ok (.looked (s.servers call.server).consumed)) }

theorem setStage_calls {k j : Nat} {stage : Stage} {call' : RpcCall}
    (h : (s.setStage k stage).calls[j]? = some call') :
    ∃ call, s.calls[j]? = some call ∧ (call' = call ∨ j = k ∧ call' = { call with stage := stage }) := by
  rw [Servers.setStage, List.getElem?_modify] at h
  obtain ⟨call, hj, rfl⟩ := Option.map_eq_some_iff.mp h
  refine ⟨call, hj, ?_⟩
  split
  · next hk => exact .inr ⟨hk.symm, rfl⟩
  · exact .inl rfl

/-- A handler that moves call `k` and nothing else. -/
theorem moves_setStage {k j : Nat} {stage : Stage} {call call' : RpcCall}
    (hk : s.calls[k]? = some call) (h : (s.setStage k stage).calls[j]? = some call')
    (hmove : Moves cfg s a s' k call { call with stage := stage }) :
    ∃ call, s.calls[j]? = some call ∧ Moves cfg s a s' j call call' := by
  obtain ⟨call₀, hj, rfl | ⟨rfl, rfl⟩⟩ := setStage_calls h
  · exact ⟨call', hj, .stay⟩
  · rw [hk, Option.some.injEq] at hj
    subst hj
    exact ⟨call, hk, hmove⟩

/-- The call a message wakes. -/
theorem wake_calls {s₀ : Servers} {i key k : Nat} {ans : Answer} {call' : RpcCall}
    (h : (s₀.wake i key ans).calls[k]? = some call') :
    ∃ call, s₀.calls[k]? = some call ∧ (call' = call ∨
      (s₀.servers i).waiters key = some k ∧ ∃ cc index term, call.stage = .waiting cc index term ∧
        call' = { call with stage := .answered cc index term ans }) := by
  unfold Servers.wake at h
  simp only at h
  split at h
  · exact ⟨call', h, .inl rfl⟩
  next k₀ hk₀ =>
  rw [List.getElem?_modify] at h
  obtain ⟨call, hk, rfl⟩ := Option.map_eq_some_iff.mp h
  refine ⟨call, hk, ?_⟩
  split
  swap
  · exact .inl rfl
  next heq =>
  subst heq
  rw [RpcCall.receive]
  split
  · next cc index term hstage => exact .inr ⟨hk₀, cc, index, term, hstage, rfl⟩
  · exact .inl rfl

theorem consume_calls {i k : Nat} {failed : Bool} {call' : RpcCall}
    (hs : s.consume i failed = some s') (h : s'.calls[k]? = some call') :
    ∃ call, s.calls[k]? = some call ∧ Moves cfg s (.consume i failed) s' k call call' := by
  obtain ⟨msg, hmsg, rfl⟩ := Option.map_eq_some_iff.mp hs
  have hwake : ∀ st key ans, ((s.setServer i st).wake i key ans).calls[k]? = some call' →
      st.waiters = (s.servers i).waiters → Tells key ans msg →
      ∃ call, s.calls[k]? = some call ∧ ∀ s', Moves cfg s (.consume i failed) s' k call call' := by
    intro st key ans h hst htells
    obtain ⟨call, hk, rfl | ⟨hw, cc, index, term, hstage, rfl⟩⟩ := wake_calls h
    · exact ⟨call', hk, fun _ => .stay⟩
    · have hself : (s.setServer i st).servers i = st := Function.update_self ..
      rw [hself, hst] at hw
      exact ⟨call, hk, fun _ => .answer cc index term i key failed msg ans rfl hstage hw hmsg htells⟩
  cases msg with
  | snapshot data index term => exact ⟨call', h, .stay⟩
  | confChange cc index term =>
    obtain ⟨call, hk, hmove⟩ := hwake _ _ _ h rfl ⟨rfl, rfl⟩
    exact ⟨call, hk, hmove _⟩
  | command data index term =>
    obtain ⟨call, hk, hmove⟩ := hwake _ _ _ h rfl ⟨rfl, rfl⟩
    exact ⟨call, hk, hmove _⟩

theorem resume_calls {k j : Nat} {call' : RpcCall} (hs : s.resume k = some s')
    (h : s'.calls[j]? = some call') :
    ∃ call, s.calls[j]? = some call ∧ Moves cfg s (.resume k) s' j call call' := by
  obtain ⟨call, hk, hs⟩ := Option.bind_eq_some_iff.mp hs
  cases hstage : call.stage with
  | answered cc index term ans =>
    simp only [hstage] at hs
    obtain rfl := Option.some.inj hs
    refine moves_setStage hk h ?_
    unfold Servers.afterAnswer
    split
    · exact .fail _
    next hterm =>
    split
    · exact .fail _
    next hfailed =>
    have hright := Decidable.not_not.mp hterm
    cases cc with
    | none => exact .done none index term ans rfl hstage hright (by simpa using hfailed) (by simp)
    | some x =>
      simp only
      split
      · next hleave =>
        refine .done (some x) index term ans rfl hstage hright (by simpa using hfailed) fun y hy => ?_
        rw [← Option.some.inj hy]
        exact hleave
      · next hleave => exact .second x index term ans rfl hstage hright hleave
  | _ => simp only [hstage] at hs; cases hs

theorem giveUp_calls {k j : Nat} {deadline : Bool} {call' : RpcCall}
    (hs : s.giveUp k deadline = some s') (h : s'.calls[j]? = some call') :
    ∃ call, s.calls[j]? = some call ∧ Moves cfg s (.giveUp k deadline) s' j call call' := by
  obtain ⟨call, hk, hs⟩ := Option.bind_eq_some_iff.mp hs
  cases hstage : call.stage with
  | waiting cc index term =>
    simp only [hstage] at hs
    obtain rfl := Option.some.inj hs
    exact moves_setStage hk h (.fail _)
  | answered cc index term ans =>
    simp only [hstage] at hs
    obtain rfl := Option.some.inj hs
    exact moves_setStage hk h (.fail _)
  | lagging readIdx =>
    simp only [hstage] at hs
    obtain rfl := Option.some.inj hs
    refine moves_setStage hk h ?_
    split <;> exact .fail _
  | _ => simp only [hstage] at hs; cases hs

/-- The change a call asks for. -/
def Rpc.change? : Rpc → Option ConfChange
  | .addMember id raftAddr => some { type := .addNode, nodeId := id, context := raftAddr }
  | .removeMember id => some { type := .removeNode, nodeId := id }
  | _ => none

/-- Where a handler begins. -/
theorem enter_cases (s : Servers) (i : Nat) (rpc : Rpc) :
    s.enter i rpc = .entered rpc.change? ∨ (s.enter i rpc = .asking ∧ rpc.change? = none) ∨
      ∃ err, s.enter i rpc = .returned (.error err) := by
  cases rpc with
  | write command => exact .inl rfl
  | get key => exact .inr (.inl ⟨rfl, rfl⟩)
  | addMember id raftAddr =>
    simp only [Servers.enter]
    split
    · exact .inr (.inr ⟨_, rfl⟩)
    · exact .inl rfl
  | removeMember id =>
    simp only [Servers.enter]
    split
    · exact .inr (.inr ⟨_, rfl⟩)
    split
    · exact .inr (.inr ⟨_, rfl⟩)
    split
    · exact .inr (.inr ⟨_, rfl⟩)
    · exact .inl rfl

/-- Every call of the next state was there, or has just come in. -/
theorem step_calls (hs : s.step cfg a = some s') {k : Nat} {call' : RpcCall}
    (h : s'.calls[k]? = some call') :
    (∃ call, s.calls[k]? = some call ∧ Moves cfg s a s' k call call') ∨
    (∃ i rpc, a = .call i rpc ∧ i ≠ 0 ∧ s.calls[k]? = none ∧ s'.cluster = s.cluster ∧
      call' = { server := i, rpc := rpc, stage := s.enter i rpc }) := by
  cases a with
  | raft act =>
    refine .inl ?_
    simp only [Servers.step] at hs
    split at hs
    · cases hs
    obtain ⟨c, -, rfl⟩ := Option.map_eq_some_iff.mp hs
    unfold Servers.follow at h
    split at h
    · rw [List.getElem?_map] at h
      obtain ⟨call, hk, rfl⟩ := Option.map_eq_some_iff.mp h
      refine ⟨call, hk, ?_⟩
      unfold RpcCall.lose
      split
      · exact .stay
      split
      · exact .fail _
      · exact .stay
    · exact ⟨call', h, .stay⟩
    · exact ⟨call', h, .stay⟩
  | call i rpc =>
    simp only [Servers.step] at hs
    split at hs
    · cases hs
    next hi =>
    obtain rfl := Option.some.inj hs
    rcases Nat.lt_trichotomy k s.calls.length with hlt | heq | hgt
    · rw [List.getElem?_append_left hlt] at h
      exact .inl ⟨call', h, .stay⟩
    · subst heq
      rw [List.getElem?_concat_length, Option.some.injEq] at h
      exact .inr ⟨i, rpc, rfl, hi, List.getElem?_eq_none (Nat.le_refl _), rfl, h.symm⟩
    · rw [List.getElem?_eq_none (by rw [List.length_append]; exact hgt)] at h
      cases h
  | propose k₀ faults =>
    refine .inl ?_
    obtain ⟨call, cc, hk, hstage, hstep, -, -, hcalls⟩ := Servers.propose_spec hs
    rcases hcalls with ⟨err, hcalls⟩ | ⟨index, term, hout, hcalls⟩
    · rw [hcalls] at h
      exact moves_setStage hk h (.fail _)
    · rw [hcalls, List.getElem?_set] at h
      split at h
      swap
      · exact ⟨call', h, .stay⟩
      next heq =>
      subst heq
      split at h
      · rw [← Option.some.inj h]
        exact ⟨call, hk, .place cc index term faults rfl hstage hout hstep⟩
      · cases h
  | register k₀ =>
    refine .inl ?_
    obtain ⟨call, hk, hs⟩ := Option.bind_eq_some_iff.mp hs
    cases hstage : call.stage with
    | proposed cc index term =>
      simp only [hstage] at hs
      obtain rfl := Option.some.inj hs
      exact moves_setStage hk h (.register cc index term rfl hstage)
    | _ => simp only [hstage] at hs; cases hs
  | consume i failed => exact .inl (consume_calls hs h)
  | resume k₀ => exact .inl (resume_calls hs h)
  | giveUp k₀ deadline => exact .inl (giveUp_calls hs h)
  | ask k₀ =>
    refine .inl ?_
    obtain ⟨call, hk, hstage, -, -, ⟨hstep, hcalls⟩ | ⟨-, -, err, hcalls⟩⟩ := Servers.ask_spec hs
    · rw [hcalls] at h
      exact moves_setStage hk h (.ask rfl hstage hstep)
    · rw [hcalls] at h
      exact moves_setStage hk h (.fail _)
  | readDone k₀ =>
    refine .inl ?_
    obtain ⟨call, hk, hs⟩ := Option.bind_eq_some_iff.mp hs
    cases hstage : call.stage with
    | reading r =>
      simp only [hstage] at hs
      obtain ⟨rd, hr, hs⟩ := Option.bind_eq_some_iff.mp hs
      cases hstatus : rd.status with
      | pending => simp only [hstatus] at hs; cases hs
      | failed =>
        simp only [hstatus] at hs
        obtain rfl := Option.some.inj hs
        exact moves_setStage hk h (.fail _)
      | returned index =>
        simp only [hstatus] at hs
        obtain rfl := Option.some.inj hs
        exact moves_setStage hk h (.read r index rd rfl hstage hr hstatus)
    | _ => simp only [hstage] at hs; cases hs
  | look k₀ =>
    refine .inl ?_
    obtain ⟨call, hk, hs⟩ := Option.bind_eq_some_iff.mp hs
    cases hstage : call.stage with
    | lagging readIdx =>
      simp only [hstage] at hs
      split at hs
      · next henough =>
        obtain rfl := Option.some.inj hs
        exact moves_setStage hk h (.look readIdx rfl hstage henough)
      · cases hs
    | _ => simp only [hstage] at hs; cases hs

/-! ## The parts of the state -/

/-- The handlers that leave the raft layer alone. -/
theorem step_quiet (hs : s.step cfg a = some s') (hraft : ∀ act, a ≠ .raft act)
    (hpropose : ∀ k faults, a ≠ .propose k faults) (hconsume : ∀ i failed, a ≠ .consume i failed)
    (hask : ∀ k, a ≠ .ask k) : Quiet s s' := by
  cases a with
  | raft act => exact absurd rfl (hraft act)
  | propose k faults => exact absurd rfl (hpropose k faults)
  | consume i failed => exact absurd rfl (hconsume i failed)
  | ask k => exact absurd rfl (hask k)
  | call i rpc =>
    simp only [Servers.step] at hs
    split at hs
    · cases hs
    · obtain rfl := Option.some.inj hs
      exact ⟨rfl, rfl, fun _ => rfl, fun _ => rfl, fun _ => rfl⟩
  | register k =>
    obtain ⟨call, -, hs⟩ := Option.bind_eq_some_iff.mp hs
    split at hs
    · obtain rfl := Option.some.inj hs
      exact Quiet.waiters ..
    · cases hs
  | resume k =>
    obtain ⟨call, -, hs⟩ := Option.bind_eq_some_iff.mp hs
    split at hs
    · obtain rfl := Option.some.inj hs
      exact Quiet.waiters ..
    · cases hs
  | giveUp k deadline =>
    obtain ⟨call, -, hs⟩ := Option.bind_eq_some_iff.mp hs
    simp only at hs
    split at hs
    · obtain rfl := Option.some.inj hs
      exact Quiet.waiters ..
    · obtain rfl := Option.some.inj hs
      exact Quiet.waiters ..
    · obtain rfl := Option.some.inj hs
      exact Quiet.stage ..
    · cases hs
  | readDone k =>
    obtain ⟨call, -, hs⟩ := Option.bind_eq_some_iff.mp hs
    split at hs
    · obtain ⟨rd, -, hs⟩ := Option.bind_eq_some_iff.mp hs
      split at hs
      · obtain rfl := Option.some.inj hs
        exact Quiet.stage ..
      · obtain rfl := Option.some.inj hs
        exact Quiet.stage ..
      · cases hs
    · cases hs
  | look k =>
    obtain ⟨call, -, hs⟩ := Option.bind_eq_some_iff.mp hs
    split at hs
    · simp only at hs
      split at hs
      · obtain rfl := Option.some.inj hs
        exact Quiet.stage ..
      · cases hs
    · cases hs

theorem step_raft {act : Action} (hs : s.step cfg (.raft act) = some s') :
    ∃ c, isProposal act = false ∧ s.cluster.step cfg act = some c ∧ s' = s.follow cfg act c := by
  simp only [Servers.step] at hs
  split at hs
  · cases hs
  next hp =>
  obtain ⟨c, hc, rfl⟩ := Option.map_eq_some_iff.mp hs
  exact ⟨c, by simpa using hp, hc, rfl⟩

theorem follow_cluster (cfg : Config) (s : Servers) (act : Action) (c : Cluster) :
    (s.follow cfg act c).cluster = c := by
  unfold Servers.follow
  split <;> rfl

/-- Only proposals and reads reach the raft layer through a handler. -/
theorem raftAction_cases {act : Action} (h : s.raftAction cfg a = some act) :
    a = .raft act ∨ isProposal act = true ∨ ∃ i, act = .readIndex i := by
  cases a with
  | raft act' => exact .inl (congrArg _ (Option.some.inj h))
  | propose k faults =>
    obtain ⟨call, -, h⟩ := Option.bind_eq_some_iff.mp h
    split at h
    · next cc _ =>
      obtain rfl := Option.some.inj h
      cases cc <;> exact .inr (.inl rfl)
    · cases h
  | ask k =>
    obtain ⟨call, -, h⟩ := Option.bind_eq_some_iff.mp h
    split at h
    · exact .inr (.inr ⟨_, (Option.some.inj h).symm⟩)
    · cases h
  | _ => cases h

/-- The raft layer takes the step of `raftAction`, or none. -/
theorem step_cluster (hs : s.step cfg a = some s') :
    (s.raftAction cfg a = none ∧ s'.cluster = s.cluster) ∨
    ∃ act, s.raftAction cfg a = some act ∧ s.cluster.step cfg act = some s'.cluster := by
  cases a with
  | raft act =>
    obtain ⟨c, -, hc, rfl⟩ := step_raft hs
    exact .inr ⟨act, rfl, by rw [follow_cluster]; exact hc⟩
  | propose k faults =>
    obtain ⟨call, cc, hk, hstage, hstep, -⟩ := Servers.propose_spec hs
    refine .inr ⟨_, ?_, hstep⟩
    simp only [Servers.raftAction, hk, hstage, Option.bind_some]
  | ask k =>
    obtain ⟨call, hk, hstage, -, -, ⟨hstep, -⟩ | ⟨hnone, hsame, -⟩⟩ := Servers.ask_spec hs
    · refine .inr ⟨_, ?_, hstep⟩
      simp only [Servers.raftAction, hk, hstage, hstep, Option.bind_some, Option.isSome_some,
        and_self, if_true]
    · refine .inl ⟨?_, hsame⟩
      simp [Servers.raftAction, hk, hnone]
  | consume i failed =>
    obtain ⟨msg, -, hsame, -⟩ := Servers.consume_spec hs
    exact .inl ⟨rfl, hsame⟩
  | _ => exact .inl ⟨rfl, (step_quiet hs (by simp) (by simp) (by simp) (by simp)).cluster⟩

/-- **The clusters along a run of the service are a run of the cluster.** -/
theorem cluster_run {σ : Nat → Servers} {α : Nat → Option ServiceAction}
    (hrun : IsRun (Servers.step cfg) (Servers.init cfg) σ α) :
    IsRun (Cluster.step cfg) (Cluster.init cfg) (fun k => (σ k).cluster)
      (fun k => (α k).bind ((σ k).raftAction cfg)) where
  start := by rw [hrun.start]; rfl
  idle k hk := by
    cases ha : α k with
    | none => rw [hrun.idle k ha]
    | some a =>
      rw [ha, Option.bind_some] at hk
      rcases step_cluster (hrun.next k a ha) with ⟨-, hsame⟩ | ⟨act, hact, -⟩
      · exact hsame
      · rw [hk] at hact
        cases hact
  next k act hk := by
    obtain ⟨a, ha, hact⟩ := Option.bind_eq_some_iff.mp hk
    rcases step_cluster (hrun.next k a ha) with ⟨hnone, -⟩ | ⟨act', hact', hstep⟩
    · rw [hact] at hnone
      cases hnone
    · rw [hact, Option.some.injEq] at hact'
      subst hact'
      exact hstep

/-- What a step does to the loop of server `j` and to the messages it takes. -/
inductive LoopStep (cfg : Config) (s : Servers) (a : ServiceAction) (s' : Servers) (j : Nat) : Prop
  | idle (consumed : (s'.servers j).consumed = (s.servers j).consumed)
      (applied : (s'.servers j).applied = (s.servers j).applied)
      (addrs : (s'.servers j).addrs = (s.servers j).addrs)
      (sent : (s.cluster.procs j).applyCh <+: (s'.cluster.procs j).applyCh)
      (start : (s'.cluster.procs j).startIndex = (s.cluster.procs j).startIndex)
  | took (msg : ApplyMsg) (failed : Bool) (action : a = .consume j failed)
      (next : (s.cluster.procs j).applyCh[(s.servers j).consumed]? = some msg)
      (consumed : (s'.servers j).consumed = (s.servers j).consumed + 1)
      (applied : (s'.servers j).applied = reach (s.servers j).applied failed msg)
      (addrs : (s'.servers j).addrs = learn (s.servers j).addrs msg)
      (cluster : s'.cluster = s.cluster)
  | started (during : Option Event) (faults : List Bool) (point keep : Nat)
      (action : a = .raft (.restart j during faults point keep))
      (server : s'.servers j = .new cfg (s'.cluster.procs j).startIndex)
      (sent : (s'.cluster.procs j).applyCh = [])

/-- A process that goes on only adds to what it has sent. -/
theorem Sends.grows {c c' : Cluster} {act : Action} {j : Nat} (h : Sends cfg c act c' j)
    (halive : ∀ during faults point keep, act ≠ .restart j during faults point keep) :
    (c.procs j).applyCh <+: (c'.procs j).applyCh ∧
      (c'.procs j).startIndex = (c.procs j).startIndex := by
  cases h with
  | same _ _ applyCh start _ => exact ⟨by rw [applyCh], start⟩
  | collect _ _ _ _ _ _ _ _ applyCh start => exact ⟨by rw [applyCh], start⟩
  | emit m _ _ _ _ applyCh start => exact ⟨by rw [applyCh]; exact List.prefix_append _ _, start⟩
  | install _ q _ _ _ applyCh start =>
    exact ⟨by rw [applyCh]; exact List.prefix_append _ _, start⟩
  | restart during faults point keep _ action =>
    exact absurd action (halive during faults point keep)

theorem step_loop (hs : s.step cfg a = some s') (j : Nat) : LoopStep cfg s a s' j := by
  have hgrows : ∀ act, s.cluster.step cfg act = some s'.cluster →
      (∀ during faults point keep, act ≠ .restart j during faults point keep) →
      (s.cluster.procs j).applyCh <+: (s'.cluster.procs j).applyCh ∧
        (s'.cluster.procs j).startIndex = (s.cluster.procs j).startIndex :=
    fun act hact halive => (cluster_sends hact j).grows halive
  have hidle : s'.servers j = s.servers j → (∃ act, s.cluster.step cfg act = some s'.cluster ∧
      ∀ during faults point keep, act ≠ .restart j during faults point keep) →
      LoopStep cfg s a s' j := by
    rintro hserver ⟨act, hact, halive⟩
    obtain ⟨hsent, hstart⟩ := hgrows act hact halive
    exact .idle (by rw [hserver]) (by rw [hserver]) (by rw [hserver]) hsent hstart
  cases a with
  | raft act =>
    obtain ⟨c, -, hc, rfl⟩ := step_raft hs
    rw [← follow_cluster cfg s act c] at hc
    cases act with
    | restart i during faults point keep =>
      by_cases hj : j = i
      · subst hj
        refine .started during faults point keep rfl (Function.update_self ..) ?_
        obtain ⟨-, _, store, -, -, heq⟩ := step_restart hc
        rw [heq, Cluster.restarted]
        simp only [Function.update_self]
        rfl
      · refine hidle (Function.update_of_ne hj _ _) ⟨_, hc, fun _ _ _ _ heq => ?_⟩
        cases heq
        exact hj rfl
    | run e faults =>
      refine hidle ?_ ⟨_, hc, by simp⟩
      cases e <;> rfl
    | _ => exact hidle rfl ⟨_, hc, by simp⟩
  | propose k faults =>
    obtain ⟨call, cc, -, -, hstep, hservers, -⟩ := Servers.propose_spec hs
    exact hidle (by rw [hservers]) ⟨_, hstep, by simp⟩
  | ask k =>
    obtain ⟨call, -, -, hservers, -, ⟨hstep, -⟩ | ⟨-, hsame, -⟩⟩ := Servers.ask_spec hs
    · exact hidle (by rw [hservers]) ⟨_, hstep, by simp⟩
    · exact .idle (by rw [hservers]) (by rw [hservers]) (by rw [hservers]) (by rw [hsame])
        (by rw [hsame])
  | consume i failed =>
    obtain ⟨msg, hmsg, hsame, -, hconsumed, happlied, haddrs, hother⟩ := Servers.consume_spec hs
    by_cases hj : j = i
    · subst hj
      exact .took msg failed rfl hmsg hconsumed happlied haddrs hsame
    · obtain ⟨h1, h2, h3⟩ := hother j hj
      exact .idle h1 h2 h3 (by rw [hsame]) (by rw [hsame])
  | _ =>
    have hq := step_quiet hs (by simp) (by simp) (by simp) (by simp)
    exact .idle (hq.consumed j) (hq.applied j) (hq.addrs j) (by rw [hq.cluster]) (by rw [hq.cluster])

/-- What a step does to the verdicts of process `j`. -/
theorem step_verdicts (hs : s.step cfg a = some s') (j : Nat) :
    (s'.verdicts j = s.verdicts j ∧ (∀ faults, a ≠ .raft (.run (.collect j) faults)) ∧
      ∀ during faults point keep, a ≠ .raft (.restart j during faults point keep)) ∨
    (∃ faults, a = .raft (.run (.collect j) faults) ∧
      s'.verdicts j = s.verdicts j ++ verdicts (s.cluster.node j)) ∨
    ∃ during faults point keep, a = .raft (.restart j during faults point keep) ∧
      s'.verdicts j = [] := by
  cases a with
  | raft act =>
    obtain ⟨c, -, -, rfl⟩ := step_raft hs
    cases act with
    | restart i during faults point keep =>
      by_cases hj : j = i
      · subst hj
        exact .inr (.inr ⟨during, faults, point, keep, rfl, Function.update_self ..⟩)
      · refine .inl ⟨Function.update_of_ne hj _ _, by simp, fun _ _ _ _ heq => ?_⟩
        cases heq
        exact hj rfl
    | run e faults =>
      cases e with
      | collect i =>
        by_cases hj : j = i
        · subst hj
          exact .inr (.inl ⟨faults, rfl, Function.update_self ..⟩)
        · refine .inl ⟨Function.update_of_ne hj _ _, fun _ heq => ?_, by simp⟩
          cases heq
          exact hj rfl
      | _ => exact .inl ⟨rfl, by simp, by simp⟩
    | _ => exact .inl ⟨rfl, by simp, by simp⟩
  | propose k faults =>
    obtain ⟨call, cc, -, -, -, -, hverdicts, -⟩ := Servers.propose_spec hs
    exact .inl ⟨by rw [hverdicts], by simp, by simp⟩
  | ask k =>
    obtain ⟨call, -, -, -, hverdicts, -⟩ := Servers.ask_spec hs
    exact .inl ⟨by rw [hverdicts], by simp, by simp⟩
  | consume i failed =>
    obtain ⟨msg, -, -, hverdicts, -⟩ := Servers.consume_spec hs
    exact .inl ⟨by rw [hverdicts], by simp, by simp⟩
  | _ =>
    have hq := step_quiet hs (by simp) (by simp) (by simp) (by simp)
    exact .inl ⟨by rw [hq.verdicts], by simp, by simp⟩

end Service

/-! ## Finite runs -/

/-- The state after the first `k` actions. -/
def serviceAt (cfg : Config) (acts : List ServiceAction) (k : Nat) : Servers :=
  (Run.after (Servers.step cfg) (Servers.init cfg) (acts.take k)).getD (Servers.init cfg)

theorem isRun_serviceAt {cfg : Config} {acts : List ServiceAction}
    (h : (Run.after (Servers.step cfg) (Servers.init cfg) acts).isSome) :
    IsRun (Servers.step cfg) (Servers.init cfg) (serviceAt cfg acts) (fun k => acts[k]?) :=
  IsRun.ofList h

/-- Three nodes that know each other's addresses. -/
def addressed : Config :=
  { peers := [1, 2, 3]
    addrs := fun id => if id ∈ [1, 2, 3] then some [.ofNat id] else none }

/-- A step of the raft layer in which no file operation fails. -/
def raftSec (e : Event) : ServiceAction := .raft (sec e)

/-- Node 1 replicates to node 2 through call `k`, applies what is committed and sends the first
    `sent` messages. -/
def commitSecond (k sent : Nat) : List ServiceAction :=
  [raftSec (.tick 1 false fun _ => true), raftSec (.deliver k), raftSec (.reply k 0),
    raftSec (.finish k), raftSec (.collect 1)] ++ List.replicate sent (.raft (.emit 1))

end Server
end DistKV
