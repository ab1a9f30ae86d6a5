import DistKV.Raft.ReadIndex
import DistKV.Server.Acks
import DistKV.Server.Addresses

/-!
# Reads of acknowledged writes

A `Get` asks its node for a read index, waits until the loop of its server has applied that much, and
looks the key up. The read index is not below anything that was committed before, and in particular
not below a write that had been acknowledged, if the leader had committed an entry of its own term
when it was asked; `applied` stands for everything up to it if the messages come in order. Then the
state machine has the write when the key is looked up (`reads_current`).

Right after an election the first condition fails, and the read is stale (`new_leader_reads_stale`).
-/

namespace DistKV
namespace Server

open Raft
open Run (IsRun)

/-- The state machine of server `i` has been given entry `e`, alone or in a snapshot. -/
def Servers.Reflects (s : Servers) (i : Nat) (e : Entry) : Prop :=
  e.index ≤ (s.cluster.procs i).startIndex ∨
    ∃ m ∈ (s.cluster.procs i).applyCh.take (s.servers i).consumed,
      m = message e ∨ ∃ data above term, m = .snapshot data above term ∧ e.index ≤ above

section Run

variable {cfg : Config} {σ : Nat → Servers} {α : Nat → Option ServiceAction}

/-! ## The handler of a `Get` -/

/-- After time `t` the handler of call `k` invoked read `r` on node `i`. -/
def Invoked (cfg : Config) (σ : Nat → Servers) (α : Nat → Option ServiceAction) (i k t r : Nat) :
    Prop :=
  ∃ a, t ≤ a ∧ α a = some (.ask k) ∧ raftActions cfg σ α a = some (.readIndex i) ∧
    r = (σ a).cluster.reads.length

/-- Where the handler of a `Get` may stand that came in after time `t`. -/
def Fetching (cfg : Config) (σ : Nat → Servers) (α : Nat → Option ServiceAction) (i k t : Nat) :
    Stage → Prop
  | .reading r => Invoked cfg σ α i k t r
  | .lagging index => ∃ r l rd, Invoked cfg σ α i k t r ∧ (σ l).cluster.reads[r]? = some rd ∧
    rd.status = .returned index
  | _ => True

theorem fetching_run (hrun : IsRun (Servers.step cfg) (Servers.init cfg) σ α) {t l k : Nat}
    (hnew : (σ t).calls[k]? = none) (htl : t ≤ l) {call : RpcCall}
    (hk : (σ l).calls[k]? = some call) : Fetching cfg σ α call.server k t call.stage := by
  induction l, htl using Nat.le_induction generalizing call with
  | base =>
    rw [hnew] at hk
    cases hk
  | succ l hl ih =>
    cases ha : α l with
    | none =>
      rw [hrun.idle l ha] at hk
      exact ih hk
    | some a =>
      rcases step_calls (hrun.next l a ha) hk with ⟨call₀, hk₀, hmove⟩ | ⟨i, rpc, -, -, -, -, rfl⟩
      swap
      · rcases enter_cases (σ l) i rpc with h | h | ⟨out, h⟩
        · simp only [h]
          trivial
        · simp only [h]
          trivial
        · simp only [h]
          trivial
      have hold := ih hk₀
      cases hmove with
      | stay => exact hold
      | ask action stage step =>
        refine ⟨l, hl, by rw [ha, action], ?_, rfl⟩
        subst action
        simp only [raftActions, ha, Option.bind_some, Servers.raftAction, hk₀, stage, step,
          Option.isSome_some, and_self, if_true]
      | read r index rd action stage held status =>
        rw [stage] at hold
        exact ⟨r, l, rd, hold, held, status⟩
      | _ => trivial

/-! ## `applied` -/

/-- Without failures `applied` is where the messages taken so far have led. -/
theorem applied_run (hrun : IsRun (Servers.step cfg) (Servers.init cfg) σ α) {i k : Nat}
    (works : ∀ t, t < k → α t ≠ some (.consume i true)) :
    ((σ k).servers i).applied = lastIndexFrom ((σ k).cluster.procs i).startIndex
      (((σ k).cluster.procs i).applyCh.take ((σ k).servers i).consumed) := by
  refine hrun.invariant_until (j := 0) (P := fun s => (s.servers i).applied =
    lastIndexFrom (s.cluster.procs i).startIndex
      ((s.cluster.procs i).applyCh.take (s.servers i).consumed)) ?_ (fun t a _ ht ha h => ?_)
    (Nat.zero_le k)
  · rw [hrun.start]
    rfl
  have hbound := (learned_run hrun i t).bound
  cases step_loop (hrun.next t a ha) i with
  | idle consumed applied addrs sent start =>
    obtain ⟨more, hmore⟩ := sent
    rw [applied, consumed, start, ← hmore, List.take_append_of_le_length hbound]
    exact h
  | took msg failed action next consumed applied addrs cluster =>
    obtain rfl : failed = false := by
      cases failed with
      | false => rfl
      | true => exact absurd (action ▸ ha) (works t ht)
    rw [applied, consumed, cluster, List.take_add_one, next, lastIndexFrom_append]
    cases msg <;> rfl
  | started during faults point keep action server sent =>
    rw [server, sent, List.take_nil]
    rfl

/-- What is applied in order is passed to the state machine. -/
theorem reflects_applied (hrun : IsRun (Servers.step cfg) (Servers.init cfg) σ α)
    (fixed : ∀ k act, raftActions cfg σ α k = some act → ¬act.Reconfigures (σ k).cluster)
    (free : ∀ k act, raftActions cfg σ α k = some act → act.FaultFree) {i k t b : Nat}
    (inTurn : ∀ t act, t < k → raftActions cfg σ α t = some act → ¬act.Overtakes (σ t).cluster i)
    (ahead : ∀ t act, t < k → raftActions cfg σ α t = some act → ¬act.Reapplies (σ t).cluster i)
    (works : ∀ t, t < k → α t ≠ some (.consume i true)) {e : Entry}
    (he : Collected cfg σ α t b e) (hle : e.index ≤ ((σ k).servers i).applied) :
    (σ k).Reflects i e := by
  have hcluster := cluster_run hrun
  rcases Nat.lt_or_ge ((σ k).cluster.procs i).startIndex e.index with hlt | hge
  swap
  · exact .inl hge
  -- the messages taken so far are a stream
  have hstream := (streaming_run hcluster inTurn ahead).sent
  rw [← List.take_append_drop ((σ k).servers i).consumed ((σ k).cluster.procs i).applyCh] at hstream
  rw [applied_run hrun works] at hle
  obtain ⟨m, hm, hcover⟩ := (stream_append.mp hstream).1.covers hlt hle
  refine .inr ⟨m, hm, ?_⟩
  rcases hcover with hindex | hsnap
  swap
  · exact .inr hsnap
  rcases (fed_run hrun k i).sent m (List.mem_of_mem_take hm) with
    ⟨data, index, term, rfl⟩ | ⟨x, rfl, l, -, -, -, hcommit, hat⟩
  · exact .inr ⟨data, index, term, rfl, Nat.le_of_eq hindex.symm⟩
  -- the entry of the message is the committed one
  obtain ⟨l', -, -, -, hcommit', hat'⟩ := he
  have hx : x.index = e.index := by
    rw [← hindex]
    unfold message
    split <;> rfl
  rw [hx] at hcommit hat
  exact .inl (congrArg message ((committed_agree hcluster free (overlapping_fixed hcluster fixed) l l'
    i b e.index hcommit hcommit').entry x e hat hat'))

/-- A lookup waits until enough is applied. -/
theorem look_spec {s s' : Servers} {k : Nat} {call : RpcCall} (hs : s.look k = some s')
    (hk : s.calls[k]? = some call) :
    ∃ index, call.stage = .lagging index ∧ index ≤ (s.servers call.server).applied ∧
      s' = s.setStage k (.returned (.ok (.looked (s.servers call.server).consumed))) := by
  rw [Servers.look, hk, Option.bind_some] at hs
  cases hstage : call.stage with
  | lagging index =>
    simp only [hstage] at hs
    split at hs
    · next henough => exact ⟨index, rfl, henough, (Option.some.inj hs).symm⟩
    · cases hs
  | _ =>
    simp only [hstage] at hs
    cases hs

end Run

/-! ## The theorem -/

/-- **Reads are current, if the leader has committed in its term.** Without configuration changes and
    storage failures: a read index that is returned is at or above everything that any node had taken
    for committed when `ReadIndex` was invoked, on a leader whose last committed entry is of its term.
    And if a `Get` asks such a leader, comes in after a write was acknowledged, and its server takes the
    messages of `applyCh` in order and without a failure, then its lookup finds a state machine that
    has applied through the index of the write and has been given the write. -/
theorem reads_current (cfg : Config) :
    (∀ (σ : Nat → Cluster) (α : Nat → Option Action),
      IsRun (Cluster.step cfg) (Cluster.init cfg) σ α →
      (∀ k act, α k = some act → ¬act.Reconfigures (σ k)) →
      (∀ k act, α k = some act → act.FaultFree) →
      ∀ j i, α j = some (.readIndex i) → ((σ j).node i).Confirmed →
      ∀ k rd index, (σ k).reads[(σ j).reads.length]? = some rd → rd.status = .returned index →
      ∀ t b, t ≤ j → ((σ t).node b).commitIndex ≤ index) ∧
    (∀ (σ : Nat → Servers) (α : Nat → Option ServiceAction),
      IsRun (Servers.step cfg) (Servers.init cfg) σ α →
      (∀ k act, raftActions cfg σ α k = some act → ¬act.Reconfigures (σ k).cluster) →
      (∀ k act, raftActions cfg σ α k = some act → act.FaultFree) →
      ∀ t w write command, (σ t).calls[w]? = some write → write.rpc = .write command →
      write.stage = .returned (.ok .done) →
      ∀ l g get, (σ t).calls[g]? = none → t ≤ l → (σ l).calls[g]? = some get →
      α l = some (.look g) →
      (∀ a, α a = some (.ask g) → ((σ a).cluster.node get.server).Confirmed) →
      (∀ a act, a < l → raftActions cfg σ α a = some act →
        ¬act.Overtakes (σ a).cluster get.server ∧ ¬act.Reapplies (σ a).cluster get.server) →
      (∀ a, a < l → α a ≠ some (.consume get.server true)) →
      ∃ index term, Wrote σ α command write.server w t index term ∧
        index ≤ ((σ l).servers get.server).applied ∧
        (σ l).Reflects get.server (commandEntry command index term) ∧
        σ (l + 1) =
          (σ l).setStage g (.returned (.ok (.looked ((σ l).servers get.server).consumed)))) := by
  refine ⟨fun σ α hrun fixed free j i hact confirmed k rd index hr hret t b ht =>
    read_covers_fixed hrun fixed free hact confirmed hr hret ht, ?_⟩
  intro σ α hrun fixed free t w write command hw hwrite hdone l g get hnew htl hg hlook confirmed order
    works
  have hcluster := cluster_run hrun
  obtain ⟨index, term, hwrote, hcollected, -⟩ := write_collected hrun fixed hw hwrite hdone
  obtain ⟨readIdx, hstage, henough, hstep⟩ := look_spec (hrun.next l _ hlook) hg
  have hfetch := fetching_run hrun hnew htl hg
  rw [hstage] at hfetch
  obtain ⟨r, l', rd, ⟨a, hta, hask, hread, rfl⟩, hrd, hret⟩ := hfetch
  -- the write was committed before the read was invoked
  obtain ⟨c, hct, hcommit⟩ : ∃ c < t, index ≤ ((σ c).cluster.node write.server).commitIndex := by
    obtain ⟨c, hc, -, -, hle, -⟩ := hcollected
    exact ⟨c, hc, hle⟩
  have hcovers := read_covers_fixed hcluster fixed free hread (confirmed a hask) hrd hret
    (t := c) (b := write.server) (Nat.le_trans (Nat.le_of_lt hct) hta)
  have hle : index ≤ ((σ l).servers get.server).applied :=
    Nat.le_trans hcommit (Nat.le_trans hcovers henough)
  exact ⟨index, term, hwrote, hle, reflects_applied hrun fixed free
    (fun a act ha h => (order a act ha h).1) (fun a act ha h => (order a act ha h).2) works hcollected
    hle, hstep⟩

/-- After the acknowledged write of `writeSeven`, a `Get` on the leader: node 2 confirms the read. -/
def getSeven : List ServiceAction :=
  writeSeven ++ [.call 1 (.get [7]), .ask 1, raftSec (.deliver 5), raftSec (.reply 5 0),
    .raft (.readReturn 0), .readDone 1, .look 1]

/-- Nothing in a list of actions changes the configuration or fails. -/
theorem calm_actions (acts : List ServiceAction)
    (h : ∀ k < acts.length, ∀ act ∈ raftActions addressed (serviceAt addressed acts)
      (fun k => acts[k]?) k, ∀ p ∈ act.section?, p.1.proposesConfChange = false ∧ p.2 = []) (k : Nat)
    (act : Action) (hact : raftActions addressed (serviceAt addressed acts) (fun k => acts[k]?) k =
      some act) :
    ¬act.Reconfigures (serviceAt addressed acts k).cluster ∧ act.FaultFree := by
  obtain ⟨a, ha, -⟩ := Option.bind_eq_some_iff.mp hact
  have hcalm := h k (List.getElem?_eq_some_iff.mp ha).1 act hact
  exact ⟨Action.not_reconfigures (fun p hp => (hcalm p hp).1) _, fun p hp => (hcalm p hp).2⟩

/-- In the run below there is one question, the action 20, and the server takes every message. -/
def ServiceAction.expected (a : Nat) : ServiceAction → Bool
  | .ask _ => a == 20
  | .consume _ failed => !failed
  | _ => true

theorem reads_current_seven :
    ((serviceAt addressed getSeven 19).cluster.node 1).commitIndex ≤ 2 ∧
    (serviceAt addressed getSeven 26).calls.map (·.stage) =
      [.returned (.ok .done), .returned (.ok (.looked 2))] ∧
    ∃ index term, (serviceAt addressed getSeven 25).Reflects 1 (commandEntry [7] index term) := by
  have hrun : IsRun (Servers.step addressed) (Servers.init addressed)
      (serviceAt addressed getSeven) (fun k => getSeven[k]?) := isRun_serviceAt (by decide +kernel)
  have hcalm := calm_actions getSeven (by decide +kernel)
  have hwrite : (serviceAt addressed getSeven 19).calls =
      [⟨1, .write [7], .returned (.ok .done), []⟩] := by decide +kernel
  have hget : (serviceAt addressed getSeven 25).calls =
      [⟨1, .write [7], .returned (.ok .done), []⟩, ⟨1, .get [7], .lagging 2, []⟩] := by decide +kernel
  have hempty : ∀ t < 25, ((serviceAt addressed getSeven t).cluster.procs 1).installs = [] := by
    decide +kernel
  have hdest : ∀ t < 25, ∀ call ∈ (serviceAt addressed getSeven t).cluster.calls,
      call.dest ≠ 1 := by decide +kernel
  have hconfirmed : ((serviceAt addressed getSeven 20).cluster.node 1).Confirmed := by
    decide +kernel
  have hasks : ∀ a < 26, ∀ x ∈ getSeven[a]?, x.expected a = true := by decide +kernel
  have hread : ∃ rd, (serviceAt addressed getSeven 24).cluster.reads[0]? = some rd ∧
      rd.status = .returned 2 := ⟨_, rfl, by decide +kernel⟩
  obtain ⟨rd, hrd, hstatus⟩ := hread
  obtain ⟨hindex, hgets⟩ := reads_current addressed
  have hask : ∀ a, getSeven[a]? = some (.ask 1) →
      ((serviceAt addressed getSeven a).cluster.node 1).Confirmed := by
    intro a ha
    have hat : (a == 20) = true := hasks a (List.getElem?_eq_some_iff.mp ha).1 _ ha
    rw [eq_of_beq hat]
    exact hconfirmed
  have hworks : ∀ a, a < 25 → getSeven[a]? ≠ some (.consume 1 true) := by
    intro a ha hconsume
    have hfalse : (!true) = true := hasks a (Nat.lt_succ_of_lt ha) _ hconsume
    cases hfalse
  obtain ⟨index, term, -, -, hreflects, -⟩ := hgets _ _ hrun (fun k act h => (hcalm k act h).1)
    (fun k act h => (hcalm k act h).2) 19 0 _ [7] (by rw [hwrite]; rfl) rfl rfl 25 1 _
    (by rw [hwrite]; rfl) (by decide) (by rw [hget]; rfl) rfl hask
    (fun a act ha _ => ⟨Action.not_overtakes (hempty a ha), Action.not_reapplies (hdest a ha)⟩) hworks
  exact ⟨hindex _ _ (cluster_run hrun) (fun k act h => (hcalm k act h).1)
    (fun k act h => (hcalm k act h).2) 20 1 rfl hconfirmed 24 rd 2 hrd hstatus 19 1 (by decide),
    by decide +kernel, index, term, hreflects⟩

/-- After the acknowledged write, node 2 is elected with the vote of node 3. It holds the entry of the
    write, but it does not know yet that it is committed; a `Get` is confirmed by node 3. -/
def getAfterElection : List ServiceAction :=
  writeSeven ++ [raftSec (.tick 2 true fun _ => true), raftSec (.deliver 6), raftSec (.reply 6 0),
    raftSec (.collect 2), .raft (.emit 2), .consume 2 false, .call 2 (.get [7]), .ask 1,
    raftSec (.deliver 10), raftSec (.reply 10 0), .raft (.readReturn 0), .readDone 1, .look 1]

/-- The read index of the new leader is 1, although index 2 was committed, and the write acknowledged,
    before the `Get` came in; the state machine that is looked up has seen the no-op only. -/
theorem new_leader_reads_stale :
    IsRun (Servers.step addressed) (Servers.init addressed) (serviceAt addressed getAfterElection)
      (fun k => getAfterElection[k]?) ∧
    (∀ k act, raftActions addressed (serviceAt addressed getAfterElection)
      (fun k => getAfterElection[k]?) k = some act →
      ¬act.Reconfigures (serviceAt addressed getAfterElection k).cluster ∧ act.FaultFree) ∧
    (serviceAt addressed getAfterElection 19).calls =
      [⟨1, .write [7], .returned (.ok .done), []⟩] ∧
    ((serviceAt addressed getAfterElection 19).cluster.node 1).commitIndex = 2 ∧
    (serviceAt addressed getAfterElection 32).cluster.reads.map (·.status) = [.returned 1] ∧
    (serviceAt addressed getAfterElection 32).calls =
      [⟨1, .write [7], .returned (.ok .done), []⟩,
        ⟨2, .get [7], .returned (.ok (.looked 1)), []⟩] ∧
    ((serviceAt addressed getAfterElection 32).cluster.procs 2).applyCh = [.command [] 1 1] :=
  ⟨isRun_serviceAt (by decide +kernel), calm_actions _ (by decide +kernel), by decide +kernel,
    by decide +kernel, by decide +kernel, by decide +kernel, by decide +kernel⟩

end Server
end DistKV
