import DistKV.Raft.Pending
import DistKV.Server.Steps

/-!
# Who finishes a change that is half done?

`changeMembership` proposes the second step when the first one is answered. If the call ends in
between, by its context, its timer or a crash, nobody does: there is no call that proposes
`LEAVE_JOINT` alone, and a new `AddMember` or `RemoveMember` is refused as long as the configuration
is joint. So a leader comes out of it by what is in its log already, and by nothing that
its server is asked to do (`joint_exit_iff`). After an addition that timed out behind its first step
the log has nothing (`abandoned_addition_stays_joint`).
-/

namespace DistKV
namespace Server

open Raft
open Run (IsRun)

/-! ## Calls -/

/-- The change a handler is at. -/
def Stage.change? : Stage → Option ConfChange
  | .entered cc => cc
  | .proposed cc _ _ => cc
  | .waiting cc _ _ => cc
  | .answered cc _ _ _ => cc
  | _ => none

section Calls

variable {cfg : Config} {s s' : Servers} {a : ServiceAction} {i : Nat}

/-- A call that asks for no change is never at one. -/
theorem plain_run {σ : Nat → Servers} {α : Nat → Option ServiceAction}
    (hrun : IsRun (Servers.step cfg) (Servers.init cfg) σ α) (t k : Nat) (call : RpcCall)
    (hk : (σ t).calls[k]? = some call) (hplain : call.rpc.change? = none) :
    call.stage.change? = none := by
  induction t generalizing k call with
  | zero =>
    rw [hrun.start] at hk
    cases hk
  | succ t ih =>
    cases ha : α t with
    | none =>
      rw [hrun.idle t ha] at hk
      exact ih k call hk hplain
    | some a =>
      rcases step_calls (hrun.next t a ha) hk with ⟨call₀, hk₀, hmove⟩ | ⟨i, rpc, -, -, -, -, rfl⟩
      swap
      · show ((σ t).enter i rpc).change? = none
        rcases enter_cases (σ t) i rpc with hstage | ⟨hstage, -⟩ | ⟨err, hstage⟩
        · rw [hstage]
          exact hplain
        · rw [hstage]
          rfl
        · rw [hstage]
          rfl
      cases hmove with
      | stay => exact ih k call hk₀ hplain
      | fail err => rfl
      | place cc index term faults action stage out step =>
        have hold := ih k call₀ hk₀ hplain
        rw [stage] at hold
        exact hold
      | register cc index term action stage =>
        have hold := ih k call₀ hk₀ hplain
        rw [stage] at hold
        exact hold
      | answer cc index term i key failed msg ans action stage waiter next tells =>
        have hold := ih k call₀ hk₀ hplain
        rw [stage] at hold
        exact hold
      | done cc index term ans action stage right worked last => rfl
      | second cc index term ans action stage right first =>
        have hold := ih k call₀ hk₀ hplain
        rw [stage] at hold
        cases hold
      | ask action stage step => rfl
      | read r index rd action stage held status => rfl
      | look readIdx action stage enough => rfl

/-- The calls on the server have at most asked for a first step. -/
def Still (i : Nat) (s : Servers) : Prop :=
  ∀ (k : Nat) (call : RpcCall), s.calls[k]? = some call → call.server = i →
    ∀ cc, call.stage.change? = some cc → call.stage = .entered (some cc) ∧ cc.type ≠ .leaveJoint

/-- Nothing but a `LEAVE_JOINT` is accepted by a joint leader. -/
theorem proposeConfChange_joint {n : Node} {cc : ConfChange} (hjoint : n.conf.inJoint = true)
    (hcc : cc.type ≠ .leaveJoint) : ¬n.AcceptsConfChange cc := by
  rintro ⟨-, hnot, -⟩
  rw [hnot hcc] at hjoint
  cases hjoint

theorem proposeConfChange_refused {n : Node} {cc : ConfChange} (hjoint : n.conf.inJoint = true)
    (hcc : cc.type ≠ .leaveJoint) (r : Nat × Nat) : (n.proposeConfChange cc).2 ≠ .ok r := by
  obtain ⟨err, hrej⟩ := Node.proposeConfChange_rejected (proposeConfChange_joint hjoint hcc)
  rw [hrej]
  simp

/-- **As long as the server's node is joint, its calls get no further.** -/
theorem Still.step (h : Still i s) (hjoint : (s.cluster.node i).conf.inJoint = true)
    (hs : s.step cfg a = some s') : Still i s' := by
  intro k call' hk' hserver cc hcc
  rcases step_calls hs hk' with ⟨call, hk, hmove⟩ | ⟨j, rpc, -, -, -, -, rfl⟩
  swap
  · have hcc' : (s.enter j rpc).change? = some cc := hcc
    show s.enter j rpc = _ ∧ _
    rcases enter_cases s j rpc with hstage | ⟨hstage, -⟩ | ⟨err, hstage⟩
    · rw [hstage] at hcc' ⊢
      have hrpc : rpc.change? = some cc := hcc'
      refine ⟨by rw [hrpc], ?_⟩
      cases rpc with
      | addMember id raftAddr =>
        obtain rfl := Option.some.inj hrpc
        simp
      | removeMember id =>
        obtain rfl := Option.some.inj hrpc
        simp
      | write command => cases hrpc
      | get key => cases hrpc
    · rw [hstage] at hcc'
      cases hcc'
    · rw [hstage] at hcc'
      cases hcc'
  cases hmove with
  | stay => exact h k _ hk hserver cc hcc
  | fail err => cases hcc
  | place cc' index term faults action stage out step =>
    obtain rfl : cc' = some cc := hcc
    have hserver' : call.server = i := hserver
    obtain ⟨-, hne⟩ := h k call hk hserver' cc (by rw [stage]; rfl)
    rw [hserver'] at out
    exact absurd out (proposeConfChange_refused (n := (s.cluster.node i).withFaults faults) hjoint
      hne _)
  | register cc' index term action stage =>
    obtain rfl : cc' = some cc := hcc
    obtain ⟨hentered, -⟩ := h k call hk hserver cc (by rw [stage]; rfl)
    cases stage.symm.trans hentered
  | answer cc' index term j key failed msg ans action stage waiter next tells =>
    obtain rfl : cc' = some cc := hcc
    obtain ⟨hentered, -⟩ := h k call hk hserver cc (by rw [stage]; rfl)
    cases stage.symm.trans hentered
  | done cc' index term ans action stage right worked last => cases hcc
  | second cc' index term ans action stage right first =>
    obtain ⟨hentered, -⟩ := h k call hk hserver cc' (by rw [stage]; rfl)
    cases stage.symm.trans hentered
  | ask action stage step => cases hcc
  | read r index rd action stage held status => cases hcc
  | look readIdx action stage enough => cases hcc

end Calls

/-! ## Continuations -/

/-- The service goes on from `s`, with actions of `A`, and node `i` keeps the lead, unless it applies
    its own removal. -/
inductive Continues (cfg : Config) (i : Nat) (A : ServiceAction → Prop) (s : Servers) :
    Servers → Prop
  | start : Continues cfg i A s s
  | step {s₁ s₂ : Servers} (a : ServiceAction) (before : Continues cfg i A s s₁)
      (leading : (s₁.cluster.node i).role = .leader) (allowed : A a)
      (next : s₁.step cfg a = some s₂)
      (leads : (s₂.cluster.node i).role = .leader ∨ ∃ faults, a = .raft (.run (.collect i) faults)) :
      Continues cfg i A s s₂

/-- The node has gone along the log that `n₀` had, and is still joint. -/
structure Along (i : Nat) (n₀ : Node) (s : Servers) : Prop where
  chained : All chained s.cluster
  ordered : All { node := OrderedNode } s.cluster
  rides : Rides n₀ (s.cluster.node i)
  still : Still i s
  joint : (s.cluster.node i).conf.inJoint = true

section Along

variable {cfg : Config} {s s' : Servers} {a : ServiceAction} {i : Nat} {n₀ : Node}
  {A : ServiceAction → Prop}

/-- The changes a joint node is asked for are refused. -/
theorem Still.refused (h : Still i s) (hjoint : (s.cluster.node i).conf.inJoint = true)
    (hs : s.step cfg a = some s') {cc : ConfChange} {faults : List Bool}
    (hact : s.raftAction cfg a = some (.run (.proposeConfChange i cc) faults)) :
    ¬(s.cluster.node i).AcceptsConfChange cc := by
  cases a with
  | raft act =>
    obtain rfl : act = _ := Option.some.inj hact
    obtain ⟨-, hno, -⟩ := step_raft hs
    cases hno
  | propose k faults' =>
    obtain ⟨call, cc', hk, hstage, -⟩ := Servers.propose_spec hs
    simp only [Servers.raftAction, hk, Option.bind_some, hstage, Option.some.injEq] at hact
    cases cc' with
    | none => cases hact
    | some cc' =>
      simp only [Servers.proposal, Action.run.injEq, Event.proposeConfChange.injEq] at hact
      obtain ⟨⟨hserver, rfl⟩, -⟩ := hact
      exact proposeConfChange_joint hjoint (h k call hk hserver cc' (by rw [hstage]; rfl)).2
  | ask k =>
    simp only [Servers.raftAction] at hact
    obtain ⟨call, -, hact⟩ := Option.bind_eq_some_iff.mp hact
    split at hact
    · cases hact
    · cases hact
  | _ => cases hact

/-- Only the raft layer itself runs the applier. -/
theorem raftAction_collect {faults : List Bool}
    (hact : s.raftAction cfg a = some (.run (.collect i) faults)) :
    a = .raft (.run (.collect i) faults) := by
  cases a with
  | raft act => exact congrArg ServiceAction.raft (Option.some.inj hact)
  | propose k faults' =>
    simp only [Servers.raftAction] at hact
    obtain ⟨call, -, hact⟩ := Option.bind_eq_some_iff.mp hact
    split at hact
    · next cc _ =>
      cases cc with
      | none => cases hact
      | some cc => cases hact
    · cases hact
  | ask k =>
    simp only [Servers.raftAction] at hact
    obtain ⟨call, -, hact⟩ := Option.bind_eq_some_iff.mp hact
    split at hact
    · cases hact
    · cases hact
  | _ => cases hact

/-- **One step of a continuation.** The node goes along; its configuration changes in the applier and
    nowhere else, and becomes what the log had in store. -/
theorem Along.next (h : Along i n₀ s) (hs₀ : Chain n₀.store.snapIndex n₀.store.log)
    (hs : s.step cfg a = some s')
    (leads : (s'.cluster.node i).role = .leader ∨ ∃ faults, a = .raft (.run (.collect i) faults)) :
    Rides n₀ (s'.cluster.node i) ∧
    ((s'.cluster.node i).conf = (s.cluster.node i).conf ∨
      (∃ faults, a = .raft (.run (.collect i) faults)) ∧
        (s'.cluster.node i).conf = n₀.confAt (s.cluster.node i).commitIndex) := by
  rcases step_cluster hs with ⟨-, hsame⟩ | ⟨act, hact, hstep⟩
  · rw [hsame]
    exact ⟨h.rides, .inl rfl⟩
  have hnode := step_node hstep i
  generalize s'.cluster.node i = m at hnode leads ⊢
  cases hnode with
  | same => exact ⟨h.rides, .inl rfl⟩
  | ran e faults op eff runs resolves exec =>
    subst runs
    have hchain : Chain (s.cluster.node i).store.snapIndex (s.cluster.node i).store.log :=
      (h.chained.node i).2.chain
    have hrides : Rides n₀ ((s.cluster.node i).withFaults faults) :=
      ⟨h.rides.conf, h.rides.entry, h.rides.reach⟩
    obtain ⟨hsnap, hle⟩ := h.ordered.node i (open_of_exec exec)
    have hop : m = (s.cluster.node i).withFaults faults ∨ ¬op.Copies := by
      rcases leads with hl | ⟨faults', rfl⟩
      · exact exec_leading exec hl
      · cases Option.some.inj hact
        cases resolve_cases resolves
        exact .inr id
    have hcc : ∀ cc, op = .proposeConfChange cc →
        ¬((s.cluster.node i).withFaults faults).AcceptsConfChange cc := by
      rintro cc rfl
      cases resolve_cases resolves
      exact h.still.refused h.joint hs hact
    have hnext := hrides.exec hs₀ hchain hsnap hcc exec hop
    refine ⟨hnext, ?_⟩
    by_cases hc : op = .collect
    · subst hc
      cases resolve_cases resolves
      refine .inr ⟨⟨faults, raftAction_collect hact⟩, ?_⟩
      rw [hnext.conf, collectLoop_reaches (Node.exec_collect exec).1 hsnap hle (Nat.le_refl _)]
      rfl
    · exact .inl (exec_conf_same hc exec hop).1
  | restarted during faults point keep files store crashes found opens =>
    rcases leads with hl | ⟨faults', rfl⟩
    · cases hl
    · cases (Option.some.inj hact).trans crashes

/-- What the applier makes of the configuration. -/
theorem Along.collected (h : Along i n₀ s) (hs₀ : Chain n₀.store.snapIndex n₀.store.log)
    {faults : List Bool} (hs : s.step cfg (.raft (.run (.collect i) faults)) = some s') :
    (s'.cluster.node i).conf = n₀.confAt (s.cluster.node i).commitIndex := by
  obtain ⟨hnext, -⟩ := h.next hs₀ hs (.inr ⟨faults, rfl⟩)
  obtain ⟨c, -, hstep, rfl⟩ := step_raft hs
  rw [follow_cluster] at hnext ⊢
  obtain ⟨j, n, eff, hout, rfl⟩ := step_run hstep
  obtain ⟨op, hres, -, hex⟩ := outcome_some hout
  cases resolve_cases hres
  obtain ⟨hsnap, hle⟩ := h.ordered.node i (open_of_exec hex)
  have hnode : (s.cluster.finishSection (.collect i) i n eff).node i = n := by
    rw [node_finishSection, if_pos rfl]
  rw [hnode] at hnext ⊢
  rw [hnext.conf, collectLoop_reaches (Node.exec_collect hex).1 hsnap hle (Nat.le_refl _)]
  rfl

/-- The rest of the invariant. -/
theorem Along.step (h : Along i n₀ s) (hs : s.step cfg a = some s')
    (hrides : Rides n₀ (s'.cluster.node i))
    (hjoint : (s'.cluster.node i).conf.inJoint = true) : Along i n₀ s' := by
  have hall : All Raft.chained s'.cluster ∧ All { node := OrderedNode } s'.cluster := by
    rcases step_cluster hs with ⟨-, hsame⟩ | ⟨act, -, hstep⟩
    · rw [hsame]
      exact ⟨h.chained, h.ordered⟩
    · exact ⟨(chainRule cfg).step h.chained (fun _ _ _ _ _ _ => trivial) hstep,
        (orderedRule cfg).step h.ordered (fun _ _ _ _ _ _ => trivial) hstep⟩
  exact ⟨hall.1, hall.2, hrides, h.still.step h.joint hs, hjoint⟩

/-- The leader can come to apply its log through an index where it is no longer joint. -/
def Exits (cfg : Config) (i : Nat) (A : ServiceAction → Prop) (s : Servers) : Prop :=
  ∃ s₁ faults, Continues cfg i A s s₁ ∧ (s₁.cluster.node i).role = .leader ∧
    A (.raft (.run (.collect i) faults)) ∧
    (s₁.step cfg (.raft (.run (.collect i) faults))).isSome = true ∧
    ((s.cluster.node i).confAt (s₁.cluster.node i).commitIndex).inJoint = false

/-- The state alone gives an exit where the way out is committed already and the applier can run. -/
theorem Exits.committed {faults : List Bool} (hlead : (s.cluster.node i).role = .leader)
    (hallowed : A (.raft (.run (.collect i) faults)))
    (hnext : (s.step cfg (.raft (.run (.collect i) faults))).isSome = true)
    (hout : ((s.cluster.node i).confAt (s.cluster.node i).commitIndex).inJoint = false) :
    Exits cfg i A s :=
  ⟨s, faults, .start, hlead, hallowed, hnext, hout⟩

/-- **A whole continuation**: the node is still joint, or it has come out of it by its log. -/
theorem Along.continues (h : Along i (s.cluster.node i) s) (hc : Continues cfg i A s s') :
    Along i (s.cluster.node i) s' ∨
      Exits cfg i A s ∧ ∃ s₂, Continues cfg i A s s₂ ∧
        (s₂.cluster.node i).conf.inJoint = false := by
  have hs₀ : Chain (s.cluster.node i).store.snapIndex (s.cluster.node i).store.log :=
    (h.chained.node i).2.chain
  induction hc with
  | start => exact .inl h
  | step a before leading allowed next leads ih =>
    rename_i s₁ s₂
    rcases ih with halong | hexit
    swap
    · exact .inr hexit
    obtain ⟨hrides, hconf⟩ := halong.next hs₀ next leads
    cases hjoint : (s₂.cluster.node i).conf.inJoint with
    | true => exact .inl (halong.step next hrides hjoint)
    | false =>
      have hexit := Continues.step a before leading allowed next leads
      rcases hconf with hsame | ⟨⟨faults, rfl⟩, hconf⟩
      · rw [hsame, halong.joint] at hjoint
        cases hjoint
      · refine .inr ⟨⟨s₁, faults, before, leading, allowed, ?_, ?_⟩, s₂, hexit, hjoint⟩
        · rw [next]
          rfl
        · rw [← hconf]
          exact hjoint

theorem Along.exits_iff (h : Along i (s.cluster.node i) s) :
    (∃ s', Continues cfg i A s s' ∧ (s'.cluster.node i).conf.inJoint = false) ↔
      Exits cfg i A s := by
  constructor
  · rintro ⟨s', hc, hout⟩
    rcases h.continues hc with halong | ⟨hexit, -⟩
    · rw [halong.joint] at hout
      cases hout
    · exact hexit
  · rintro ⟨s₁, faults, hc, hlead, hallowed, hnext, hout⟩
    rcases h.continues hc with halong | ⟨-, hexit⟩
    · obtain ⟨s₂, hstep⟩ := Option.isSome_iff_exists.mp hnext
      refine ⟨s₂, .step _ hc hlead hallowed hstep (.inr ⟨faults, rfl⟩), ?_⟩
      rw [halong.collected (h.chained.node i).2.chain hstep]
      exact hout
    · exact hexit

/-- Without a `LEAVE_JOINT` in the log there is no way out. -/
theorem Along.stuck (h : Along i (s.cluster.node i) s)
    (hlog : ∀ e ∈ (s.cluster.node i).store.log, (s.cluster.node i).lastApplied < e.index →
      ∀ cc, e.change? = some cc → cc.type ≠ .leaveJoint) (hc : Continues cfg i A s s') :
    (s'.cluster.node i).conf.inJoint = true := by
  rcases h.continues hc with halong | ⟨⟨s₁, faults, -, -, -, -, hout⟩, -⟩
  · exact halong.joint
  · rw [Node.confAt_joint h.joint hlog (h.chained.node i).2.chain, h.joint] at hout
    cases hout

end Along

/-! ## Reachable states -/

section Run

variable {cfg : Config} {σ : Nat → Servers} {α : Nat → Option ServiceAction} {i k : Nat}

/-- No call on the server is between the steps of a change, or before the first. -/
def Unattended (i : Nat) (s : Servers) : Prop :=
  ∀ call ∈ s.calls, call.server = i → call.rpc.change? ≠ none → ∃ out, call.stage = .returned out

theorem Along.reached (hrun : IsRun (Servers.step cfg) (Servers.init cfg) σ α)
    (hjoint : ((σ k).cluster.node i).conf.inJoint = true) (hidle : Unattended i (σ k)) :
    Along i ((σ k).cluster.node i) (σ k) := by
  have hchained := (chainRule cfg).run (cluster_run hrun) (fun _ _ _ _ _ _ _ _ _ => trivial) k
  have hordered := (orderedRule cfg).run (cluster_run hrun) (fun _ _ _ _ _ _ _ _ _ => trivial) k
  refine ⟨hchained, hordered, .refl (hchained.node i).2.chain, ?_, hjoint⟩
  intro j call hj hserver cc hcc
  by_cases hplain : call.rpc.change? = none
  · rw [plain_run hrun k j call hj hplain] at hcc
    cases hcc
  · obtain ⟨out, hout⟩ := hidle call (List.mem_of_getElem? hj) hserver hplain
    rw [hout] at hcc
    cases hcc

/-- **A joint leader without a call at work** comes out of it exactly if its log, applied through an
    index it can still commit, leads out of it; and then a `LEAVE_JOINT` is in the log already. What
    its server is asked to do makes no difference. -/
theorem joint_exit_iff (cfg : Config) (σ : Nat → Servers) (α : Nat → Option ServiceAction)
    (hrun : IsRun (Servers.step cfg) (Servers.init cfg) σ α) (k i : Nat)
    (A : ServiceAction → Prop) (hjoint : ((σ k).cluster.node i).conf.inJoint = true)
    (hidle : Unattended i (σ k)) :
    ((∃ s', Continues cfg i A (σ k) s' ∧ (s'.cluster.node i).conf.inJoint = false) ↔
      Exits cfg i A (σ k)) ∧
    (Exits cfg i A (σ k) → ∃ e ∈ ((σ k).cluster.node i).store.log,
      ((σ k).cluster.node i).lastApplied < e.index ∧
        ∃ cc, e.change? = some cc ∧ cc.type = .leaveJoint) := by
  have halong := Along.reached hrun hjoint hidle
  refine ⟨halong.exits_iff, fun hexit => ?_⟩
  by_contra hnone
  obtain ⟨s', hc, hout⟩ := halong.exits_iff.mpr hexit
  rw [halong.stuck (fun e he hlt cc hcc htype => hnone ⟨e, he, hlt, cc, hcc, htype⟩) hc] at hout
  cases hout

/-- A stretch of a run in which the node leads is a continuation. -/
theorem Continues.ofRun {A : ServiceAction → Prop}
    (hrun : IsRun (Servers.step cfg) (Servers.init cfg) σ α) {l : Nat} (hkl : k ≤ l)
    (hlead : ∀ t, k ≤ t → t ≤ l → ((σ t).cluster.node i).role = .leader)
    (hA : ∀ t a, k ≤ t → t < l → α t = some a → A a) : Continues cfg i A (σ k) (σ l) := by
  induction hkl with
  | refl => exact .start
  | step hkl ih =>
    rename_i l
    have hbefore := ih (fun t h1 h2 => hlead t h1 (Nat.le_succ_of_le h2))
      fun t a h1 h2 => hA t a h1 (Nat.lt_succ_of_lt h2)
    cases ha : α l with
    | none =>
      rw [hrun.idle l ha]
      exact hbefore
    | some a =>
      exact .step a hbefore (hlead l hkl (Nat.le_succ l)) (hA l a hkl (Nat.lt_succ_self l) ha)
        (hrun.next l a ha) (.inl (hlead (l + 1) (Nat.le_succ_of_le hkl) (Nat.le_refl _)))

end Run

/-! ## Two calls that time out -/

/-- The removal of node 3 times out behind its second proposal; node 2 gets the entry afterwards. -/
def timedOutRemoval : List ServiceAction :=
  firstTerm.map .raft ++ [.call 1 (.removeMember 3), .propose 0 [], .register 0] ++
  commitSecond 4 2 ++
  [.consume 1 false, .consume 1 false, .resume 0, .propose 0 [], .register 0, .giveUp 0 true] ++
  commitSecond 5 0

theorem joint_exit_iff_removal : ∃ s',
    Continues addressed 1 (fun _ => True) (serviceAt addressed timedOutRemoval 22) s' ∧
      (s'.cluster.node 1).conf.inJoint = false := by
  have hrun : IsRun (Servers.step addressed) (Servers.init addressed)
      (serviceAt addressed timedOutRemoval) (fun k => timedOutRemoval[k]?) :=
    isRun_serviceAt (by decide +kernel)
  have hcalls : (serviceAt addressed timedOutRemoval 22).calls =
      [⟨1, .removeMember 3, .returned (.error (.deadline true)),
        [({ type := .removeNode, nodeId := 3 }, 2, 1), ({ type := .leaveJoint }, 3, 1)]⟩] := by
    decide +kernel
  have hidle : Unattended 1 (serviceAt addressed timedOutRemoval 22) := by
    intro call hmem _ _
    rw [hcalls, List.mem_singleton] at hmem
    rw [hmem]
    exact ⟨_, rfl⟩
  have hleads : ∀ t < 27, 22 ≤ t →
      ((serviceAt addressed timedOutRemoval t).cluster.node 1).role = .leader := by decide +kernel
  refine (joint_exit_iff addressed _ _ hrun 22 1 (fun _ => True) (by decide +kernel)
    hidle).1.mpr ⟨serviceAt addressed timedOutRemoval 26, [], ?_, by decide +kernel, trivial,
    by decide +kernel, by decide +kernel⟩
  exact Continues.ofRun hrun (by decide) (fun t h1 h2 => hleads t (Nat.lt_succ_of_le h2) h1)
    fun _ _ _ _ _ => trivial

/-- The addition of node 4 times out when its first step has been applied. -/
def timedOutAddition : List ServiceAction :=
  firstTerm.map .raft ++ [.call 1 (.addMember 4 [4]), .propose 0 [], .register 0] ++
  commitSecond 4 2 ++ [.giveUp 0 true]

/-- **Nothing finishes the addition.** Node 1 leads and is joint, no call is at work, and however the
    service goes on while node 1 leads, whatever it is asked to do, node 1 stays joint. -/
theorem abandoned_addition_stays_joint :
    IsRun (Servers.step addressed) (Servers.init addressed) (serviceAt addressed timedOutAddition)
      (fun k => timedOutAddition[k]?) ∧
    ((serviceAt addressed timedOutAddition 17).cluster.node 1).role = .leader ∧
    ((serviceAt addressed timedOutAddition 17).cluster.node 1).conf = ⟨{4, 1, 2, 3}, {1, 2, 3}⟩ ∧
    (∀ call ∈ (serviceAt addressed timedOutAddition 17).calls,
      call.stage = .returned (.error (.deadline true))) ∧
    ∀ s', Continues addressed 1 (fun _ => True) (serviceAt addressed timedOutAddition 17) s' →
      (s'.cluster.node 1).conf.inJoint = true := by
  have hrun : IsRun (Servers.step addressed) (Servers.init addressed)
      (serviceAt addressed timedOutAddition) (fun k => timedOutAddition[k]?) :=
    isRun_serviceAt (by decide +kernel)
  have hcalls : ∀ call ∈ (serviceAt addressed timedOutAddition 17).calls,
      call.stage = .returned (.error (.deadline true)) := by decide +kernel
  have hidle : Unattended 1 (serviceAt addressed timedOutAddition 17) :=
    fun call hmem _ _ => ⟨_, hcalls call hmem⟩
  have halong := Along.reached hrun (k := 17) (by decide +kernel) hidle
  have hlog : ∀ e ∈ ((serviceAt addressed timedOutAddition 17).cluster.node 1).store.log,
      ((serviceAt addressed timedOutAddition 17).cluster.node 1).lastApplied < e.index →
        e.change? = none := by decide +kernel
  refine ⟨hrun, by decide +kernel, by decide +kernel, hcalls, fun s' hc => ?_⟩
  refine halong.stuck (fun e he hlt cc hcc => ?_) hc
  rw [hlog e he hlt] at hcc
  cases hcc

end Server
end DistKV
