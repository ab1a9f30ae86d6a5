import DistKV.Server.Reads

/-!
# Acknowledged writes keep their order

A client that has got its answer and then tells another client relies on the order of the two: what
the second one writes must come later in the log, wherever it is sent, whoever leads by then and
whichever processes have crashed in between (`acknowledged_in_order`). The first write was below some
`commitIndex` when it was acknowledged, and the second one is appended above all of them.
-/

namespace DistKV
namespace Server

open Raft
open Run (IsRun)

section Calls

variable {cfg : Config} {s s' : Servers} {a : ServiceAction}

/-- No call is forgotten. -/
theorem step_keeps_calls (hs : s.step cfg a = some s') : s.calls.length ≤ s'.calls.length := by
  have hstage : ∀ (s : Servers) k stage, (s.setStage k stage).calls.length = s.calls.length :=
    fun s k stage => List.length_modify ..
  cases a with
  | raft act =>
    obtain ⟨c, -, -, rfl⟩ := step_raft hs
    unfold Servers.follow
    split
    · exact Nat.le_of_eq (List.length_map _).symm
    · exact Nat.le_refl _
    · exact Nat.le_refl _
  | call i rpc =>
    simp only [Servers.step] at hs
    split at hs
    · cases hs
    · obtain rfl := Option.some.inj hs
      simp only [List.length_append]
      exact Nat.le_add_right _ _
  | propose k faults =>
    obtain ⟨call, cc, -, -, -, -, -, ⟨err, hcalls⟩ | ⟨index, term, -, hcalls⟩⟩ :=
      Servers.propose_spec hs
    · rw [hcalls, hstage]
    · rw [hcalls, List.length_set]
  | ask k =>
    obtain ⟨call, -, -, -, -, ⟨-, hcalls⟩ | ⟨-, -, err, hcalls⟩⟩ := Servers.ask_spec hs
    · rw [hcalls, hstage]
    · rw [hcalls, hstage]
  | consume i failed =>
    have hwake : ∀ (s : Servers) i index ans, (s.wake i index ans).calls.length = s.calls.length := by
      intro s i index ans
      unfold Servers.wake
      simp only
      split
      · rfl
      · exact List.length_modify ..
    obtain ⟨msg, -, rfl⟩ := Option.map_eq_some_iff.mp hs
    cases msg with
    | snapshot data index term => exact Nat.le_refl _
    | confChange cc index term => rw [hwake]; exact Nat.le_refl _
    | command data index term => rw [hwake]; exact Nat.le_refl _
  | register k =>
    obtain ⟨call, -, hs⟩ := Option.bind_eq_some_iff.mp hs
    split at hs
    · obtain rfl := Option.some.inj hs
      rw [hstage]
      exact Nat.le_refl _
    · cases hs
  | resume k =>
    obtain ⟨call, -, hs⟩ := Option.bind_eq_some_iff.mp hs
    split at hs
    · obtain rfl := Option.some.inj hs
      rw [hstage]
      exact Nat.le_refl _
    · cases hs
  | giveUp k deadline =>
    obtain ⟨call, -, hs⟩ := Option.bind_eq_some_iff.mp hs
    simp only at hs
    split at hs
    · obtain rfl := Option.some.inj hs
      rw [hstage]
      exact Nat.le_refl _
    · obtain rfl := Option.some.inj hs
      rw [hstage]
      exact Nat.le_refl _
    · obtain rfl := Option.some.inj hs
      rw [hstage]
    · cases hs
  | readDone k =>
    obtain ⟨call, -, hs⟩ := Option.bind_eq_some_iff.mp hs
    split at hs
    · obtain ⟨rd, -, hs⟩ := Option.bind_eq_some_iff.mp hs
      split at hs
      · obtain rfl := Option.some.inj hs
        rw [hstage]
      · obtain rfl := Option.some.inj hs
        rw [hstage]
      · cases hs
    · cases hs
  | look k =>
    obtain ⟨call, -, hs⟩ := Option.bind_eq_some_iff.mp hs
    split at hs
    · simp only at hs
      split at hs
      · obtain rfl := Option.some.inj hs
        rw [hstage]
      · cases hs
    · cases hs

end Calls

section Run

variable {cfg : Config} {σ : Nat → Servers} {α : Nat → Option ServiceAction}

theorem calls_run (hrun : IsRun (Servers.step cfg) (Servers.init cfg) σ α) {t t' k : Nat}
    (htt : t ≤ t') (hk : (σ t').calls[k]? = none) : (σ t).calls[k]? = none := by
  have hgrows : (σ t).calls.length ≤ (σ t').calls.length := by
    refine hrun.invariant_from (P := fun s => (σ t).calls.length ≤ s.calls.length) (Nat.le_refl _)
      (fun l a _ ha h => ?_) htt
    exact Nat.le_trans h (step_keeps_calls (hrun.next l a ha))
  exact List.getElem?_eq_none (Nat.le_trans hgrows (List.getElem?_eq_none_iff.mp hk))

/-- Only a leader takes a proposal, and it writes it in its term. -/
theorem proposal_leads {s : Servers} {c' : Cluster} {i j : Nat} {rpc : Rpc} {cc : Option ConfChange}
    {e : Entry} (hclean : All (clean cfg) s.cluster)
    (hstep : s.cluster.step cfg (.run (s.proposal j [] rpc cc).1 []) = some c')
    (hold : e ∉ (s.cluster.node i).store.log) (hnew : e ∈ (c'.node i).store.log) :
    (s.cluster.node i).role = .leader ∧ e.term = (s.cluster.node i).store.term := by
  have hc : Clean cfg.peers ((s.cluster.node i).withFaults []).store :=
    (hclean.node i).2.withFaults.store.1
  have happend : ∀ x : Entry, x.index = ((s.cluster.node i).withFaults []).store.lastIndex + 1 →
      e ∈ (((s.cluster.node i).withFaults []).appendEntryLocked x).1.store.log → e = x := by
    intro x hindex hmem
    rw [Node.appendEntryLocked_store, (hc.appendNext hindex).2] at hmem
    rcases List.mem_append.mp hmem with h | h
    · exact absurd h hold
    · exact List.mem_singleton.mp h
  obtain ⟨k, n, eff, ho, rfl⟩ := step_run hstep
  obtain ⟨op, hres, -, hex⟩ := outcome_some ho
  rw [node_finishSection] at hnew
  split at hnew
  swap
  · exact absurd hnew hold
  next hik =>
  subst hik
  have hlock := Node.exec_unlocked hex
  cases cc with
  | none =>
    cases resolve_cases hres with
    | propose =>
      simp only [Node.exec, hlock, Bool.false_eq_true, if_false] at hex
      obtain ⟨rfl, -⟩ := Prod.mk.inj (Option.some.inj hex)
      rw [Node.propose] at hnew
      split at hnew
      · exact absurd hnew hold
      next hl =>
      refine ⟨Decidable.not_not.mp hl, ?_⟩
      rw [happend _ rfl hnew]
      rfl
  | some x =>
    cases resolve_cases hres with
    | proposeConfChange =>
      simp only [Node.exec, hlock, Bool.false_eq_true, if_false] at hex
      obtain ⟨rfl, -⟩ := Prod.mk.inj (Option.some.inj hex)
      by_cases hacc : ((s.cluster.node i).withFaults []).AcceptsConfChange x
      · rw [Node.proposeConfChange_accepted hacc] at hnew
        refine ⟨hacc.1, ?_⟩
        rw [happend _ rfl hnew]
        rfl
      · obtain ⟨err, hrej⟩ := Node.proposeConfChange_rejected hacc
        rw [hrej] at hnew
        exact absurd hnew hold

/-- The step in which a call writes. -/
theorem propose_leads (hrun : IsRun (Servers.step cfg) (Servers.init cfg) σ α)
    (free : ∀ k act, raftActions cfg σ α k = some act → act.FaultFree) {command : Bytes}
    {i j k index term : Nat} {faults : List Bool} (hact : α j = some (.propose k faults))
    (hindex : index = ((σ j).cluster.node i).store.lastIndex + 1)
    (hmem : commandEntry command index term ∈ ((σ (j + 1)).cluster.node i).store.log) :
    (σ j).calls[k]? ≠ none ∧ ((σ j).cluster.node i).role = .leader ∧
      term = ((σ j).cluster.node i).store.term := by
  obtain ⟨call, cc, hk, hstage, hstep, -⟩ := Servers.propose_spec (hrun.next j _ hact)
  have hraft : raftActions cfg σ α j =
      some (.run ((σ j).proposal call.server faults call.rpc cc).1 faults) := by
    simp only [raftActions, hact, Option.bind_some, Servers.raftAction, hk, hstage]
  obtain rfl : faults = [] := free j _ hraft _ rfl
  have hstored := stored_run (cluster_run hrun) free j i
  -- there is no place for the entry before the section
  have hold : commandEntry command index term ∉ ((σ j).cluster.node i).store.log := by
    intro hin
    obtain ⟨p, hp⟩ := List.getElem?_of_mem hin
    have hplace : index = ((σ j).cluster.node i).store.snapIndex + 1 + p := hstored.chain p _ hp
    have hlt := (List.getElem?_eq_some_iff.mp hp).1
    rw [lastIndex_of_chain hstored.chain] at hindex
    omega
  obtain ⟨hl, hterm⟩ := proposal_leads (clean_run (cluster_run hrun) free j) hstep hold hmem
  exact ⟨by rw [hk]; exact Option.some_ne_none _, hl, hterm⟩

/-- A call writes through a leader, in its term, and not before it has come in. -/
theorem Wrote.leader (hrun : IsRun (Servers.step cfg) (Servers.init cfg) σ α)
    (free : ∀ k act, raftActions cfg σ α k = some act → act.FaultFree) {command : Bytes}
    {i k t index term : Nat} (h : Wrote σ α command i k t index term) :
    ∃ j < t, (σ j).calls[k]? ≠ none ∧ ((σ j).cluster.node i).role = .leader ∧
      term = ((σ j).cluster.node i).store.term ∧
      index = ((σ j).cluster.node i).store.lastIndex + 1 := by
  obtain ⟨j, hj, faults, hact, hindex, hmem⟩ := h
  obtain ⟨hk, hl, hterm⟩ := propose_leads hrun free hact hindex hmem
  exact ⟨j, hj, hk, hl, hterm, hindex⟩

/-- **Acknowledged writes keep their order.** In every run with fixed voters and without storage
    failures: if a write had been acknowledged when another one came in, on any server, and this one
    is acknowledged as well, then its entry has the higher index. -/
theorem acknowledged_in_order (cfg : Config) (σ : Nat → Servers) (α : Nat → Option ServiceAction)
    (hrun : IsRun (Servers.step cfg) (Servers.init cfg) σ α)
    (fixed : ∀ k act, raftActions cfg σ α k = some act → ¬act.Reconfigures (σ k).cluster)
    (free : ∀ k act, raftActions cfg σ α k = some act → act.FaultFree) (t t' w v : Nat)
    (first second : RpcCall) (command command' : Bytes) (hw : (σ t).calls[w]? = some first)
    (hfirst : first.rpc = .write command) (hdone : first.stage = .returned (.ok .done))
    (hnew : (σ t).calls[v]? = none) (hv : (σ t').calls[v]? = some second)
    (hsecond : second.rpc = .write command') (hdone' : second.stage = .returned (.ok .done)) :
    ∃ index term index' term',
      Wrote σ α command first.server w t index term ∧
      Wrote σ α command' second.server v t' index' term' ∧
      Collected cfg σ α t first.server (commandEntry command index term) ∧
      Collected cfg σ α t' second.server (commandEntry command' index' term') ∧ index < index' := by
  have hcluster := cluster_run hrun
  obtain ⟨index, term, hwrote, hcollected, -⟩ := write_collected hrun fixed hw hfirst hdone
  obtain ⟨index', term', hwrote', hcollected', -⟩ := write_collected hrun fixed hv hsecond hdone'
  refine ⟨index, term, index', term', hwrote, hwrote', hcollected, hcollected', ?_⟩
  obtain ⟨c, hc, -, -, hle, -⟩ := hcollected
  obtain ⟨d, -, -, -, hle', hat'⟩ := hcollected'
  obtain ⟨j, -, hthere, hl, hterm, hindex⟩ := hwrote'.leader hrun free
  -- the second call came in after the first write was committed
  have hlater : c ≤ j := by
    by_contra hbefore
    exact hthere (calls_run hrun (by omega) hnew)
  have habove := written_above_committed hcluster fixed free (e := commandEntry command' index' term')
    hl hterm hindex hle' hat' (b := first.server) hlater
  exact Nat.lt_of_le_of_lt hle habove

end Run

/-- After the acknowledged write of `writeSeven` node 2 is elected with the vote of node 3 and takes
    another write. Node 3 has nothing yet and gets all four entries at the second attempt. -/
def writeAgain : List ServiceAction :=
  writeSeven ++ [raftSec (.tick 2 true fun _ => true), raftSec (.deliver 6), raftSec (.reply 6 0),
    .call 2 (.write [8]), .propose 1 [], .register 1, raftSec (.deliver 8), raftSec (.reply 8 0),
    raftSec (.finish 8), raftSec (.tick 2 false fun _ => true), raftSec (.deliver 9),
    raftSec (.reply 9 0), raftSec (.collect 2)] ++ List.replicate 4 (.raft (.emit 2)) ++
    List.replicate 4 (.consume 2 false) ++ [.resume 1]

theorem acknowledged_in_order_again :
    (serviceAt addressed writeAgain 41).calls.map (·.stage) =
      [.returned (.ok .done), .returned (.ok .done)] ∧
    ∃ index term index' term',
      Wrote (serviceAt addressed writeAgain) (fun k => writeAgain[k]?) [7] 1 0 19 index term ∧
      Wrote (serviceAt addressed writeAgain) (fun k => writeAgain[k]?) [8] 2 1 41 index' term' ∧
      index < index' := by
  have hrun : IsRun (Servers.step addressed) (Servers.init addressed)
      (serviceAt addressed writeAgain) (fun k => writeAgain[k]?) := isRun_serviceAt (by decide +kernel)
  have hcalm := calm_actions writeAgain (by decide +kernel)
  have hfirst : (serviceAt addressed writeAgain 19).calls =
      [⟨1, .write [7], .returned (.ok .done), []⟩] := by decide +kernel
  have hboth : (serviceAt addressed writeAgain 41).calls =
      [⟨1, .write [7], .returned (.ok .done), []⟩, ⟨2, .write [8], .returned (.ok .done), []⟩] := by
    decide +kernel
  obtain ⟨index, term, index', term', hw, hw', -, -, hlt⟩ := acknowledged_in_order addressed _ _ hrun
    (fun k act h => (hcalm k act h).1) (fun k act h => (hcalm k act h).2) 19 41 0 1 _ _ [7] [8]
    (by rw [hfirst]; rfl) rfl rfl (by rw [hfirst]; rfl) (by rw [hboth]; rfl) rfl rfl
  exact ⟨by rw [hboth]; rfl, index, term, index', term', hw, hw', hlt⟩

end Server
end DistKV
