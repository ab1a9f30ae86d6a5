import DistKV.Raft.Chain

/-!
# Does a node ever go backwards?

Term, `snapIndex`, `commitIndex` and `lastApplied` of a running node only grow, with one
exception: `HandleInstallSnapshot` compares the snapshot with `snapIndex` and with nothing else,
and sets `commitIndex` and `lastApplied` to the snapshot's index. A follower that is ahead of the
snapshot is wound back (`install_rewinds`). The leader sends such a snapshot when the reply to an
AppendEntries that the follower did accept was lost and the leader compacted its log meanwhile.
-/

namespace DistKV
namespace Raft

open Run (IsRun)

/-! ## Nodes -/

structure Progress (n n' : Node) : Prop where
  term : n.store.term ≤ n'.store.term
  snapIndex : n.store.snapIndex ≤ n'.store.snapIndex
  commitIndex : n.commitIndex ≤ n'.commitIndex
  lastApplied : n.lastApplied ≤ n'.lastApplied

theorem Progress.refl (n : Node) : Progress n n :=
  ⟨Nat.le_refl _, Nat.le_refl _, Nat.le_refl _, Nat.le_refl _⟩

theorem Progress.trans {n n' n'' : Node} (h : Progress n n') (h' : Progress n' n'') :
    Progress n n'' :=
  ⟨Nat.le_trans h.term h'.term, Nat.le_trans h.snapIndex h'.snapIndex,
    Nat.le_trans h.commitIndex h'.commitIndex, Nat.le_trans h.lastApplied h'.lastApplied⟩

/-- A request that would install a snapshot the node is ahead of. -/
def Node.Outdated (n : Node) (req : Request) : Prop :=
  ∃ snap, req = .installSnapshot snap ∧ n.store.term ≤ snap.term ∧
    n.store.snapIndex < snap.lastIncludedIndex ∧
    (snap.lastIncludedIndex < n.commitIndex ∨ snap.lastIncludedIndex < n.lastApplied)

/-- A section goes forward unless it handles an outdated snapshot. -/
theorem exec_progress {n m : Node} {faults : List Bool} {op : NodeOp} {eff : Effect}
    (h : (n.withFaults faults).exec op = some (m, eff))
    (hop : ∀ req, op = .handle req → ¬n.Outdated req) : Progress n m := by
  have hs := (Node.exec_store h).grows
  have hfr : n.commitIndex ≤ m.commitIndex ∧ n.lastApplied ≤ m.lastApplied := by
    by_cases hc : op = .collect
    · subst hc
      obtain ⟨-, -, hcommit, happlied⟩ := Node.collectLoop_frame (Node.exec_collect h).1
      exact ⟨Nat.le_of_eq hcommit.symm, happlied⟩
    by_cases hi : ∃ req, op = .handle (.installSnapshot req)
    · obtain ⟨req, rfl⟩ := hi
      have hinst := Node.exec_install h
      generalize eff.install = msg at hinst
      cases hinst with
      | refused frame _ => exact ⟨frame.commit, Nat.le_of_eq frame.applied.symm⟩
      | failed _ _ _ commit applied => exact ⟨Nat.le_of_eq commit.symm, Nat.le_of_eq applied.symm⟩
      | installed term above _ _ commit applied =>
        have hnot := hop _ rfl
        rw [commit, applied]
        exact ⟨Nat.le_of_not_lt fun hx => hnot ⟨req, rfl, term, above, .inl hx⟩,
          Nat.le_of_not_lt fun hx => hnot ⟨req, rfl, term, above, .inr hx⟩⟩
    · have hf := Node.exec_frame h hc fun req hreq => hi ⟨req, hreq⟩
      exact ⟨hf.commit, Nat.le_of_eq hf.applied.symm⟩
  exact ⟨hs.1, hs.2, hfr.1, hfr.2⟩

/-! ## Runs -/

/-- The action delivers an outdated snapshot to process `i`. -/
def Action.Rewinds (c : Cluster) (i : Nat) (act : Action) : Prop :=
  ∃ k faults call, act = .run (.deliver k) faults ∧ c.calls[k]? = some call ∧ call.dest = i ∧
    (c.node i).Outdated call.req

theorem step_progress {cfg : Config} {c c' : Cluster} {act : Action} {i : Nat}
    (hs : c.step cfg act = some c') (hr : ∀ d f p k, act ≠ .restart i d f p k)
    (hw : ¬act.Rewinds c i) : Progress (c.node i) (c'.node i) := by
  have hnode := step_node hs i
  generalize c'.node i = m at hnode ⊢
  cases hnode with
  | same => exact .refl _
  | ran e faults op eff runs resolves exec =>
    refine exec_progress exec ?_
    rintro req rfl hout
    obtain ⟨k, call, rfl, hk, hd, rfl⟩ := resolve_handle resolves
    exact hw ⟨k, faults, call, runs, hk, hd, hout⟩
  | restarted during faults point keep files store crashes found opens =>
    exact absurd crashes (hr _ _ _ _)

/-- **A node goes forward** between two restarts, as long as no snapshot is delivered to it that
    it is ahead of. -/
theorem progress_between_restarts (cfg : Config) (σ : Nat → Cluster) (α : Nat → Option Action)
    (hrun : IsRun (Cluster.step cfg) (Cluster.init cfg) σ α) (i j k : Nat) (hjk : j ≤ k)
    (running : ∀ t, j ≤ t → t < k → ∀ d f p s, α t ≠ some (.restart i d f p s))
    (ahead : ∀ t act, j ≤ t → t < k → α t = some act → ¬act.Rewinds (σ t) i) :
    Progress ((σ j).node i) ((σ k).node i) := by
  induction hjk with
  | refl => exact .refl _
  | step hjk ih =>
    rename_i k
    have hprev := ih (fun t h1 h2 => running t h1 (Nat.lt_succ_of_lt h2))
      (fun t act h1 h2 => ahead t act h1 (Nat.lt_succ_of_lt h2))
    cases ha : α k with
    | none => rw [hrun.idle k ha]; exact hprev
    | some act =>
      refine hprev.trans
        (step_progress (hrun.next k act ha) ?_ (ahead k act hjk (Nat.lt_succ_self k) ha))
      intro d f p s hact
      exact running k hjk (Nat.lt_succ_self k) d f p s (by rw [ha, hact])

/-- Node 3 has collected the entries 1 and 2 and not sent them yet; the reply to the request it
    got them with is lost. Node 1 commits and compacts through index 3 and sends the snapshot, which
    node 3 installs. -/
def snapshotAhead : List Action :=
  firstTerm ++
    [.abort 3, sec (.finish 3), sec (.propose 1 [7]), sec (.tick 1 false fun _ => true),
      sec (.deliver 4), sec (.reply 4 0), sec (.finish 4), .abort 5, sec (.finish 5),
      sec (.tick 1 false fun _ => true), sec (.deliver 7), sec (.collect 3), .abort 7,
      sec (.finish 7), .abort 6, sec (.finish 6), sec (.propose 1 [8]),
      sec (.tick 1 false fun _ => true), sec (.deliver 8), sec (.reply 8 0), .abort 9,
      sec (.finish 9), sec (.collect 1), sec (.snapshot 1 3 [9]),
      sec (.tick 1 false fun _ => true), sec (.deliver 10)]

def Action.restarts : Action → Bool
  | .restart .. => true
  | _ => false

/-- Node 3 commits and applies two entries and then installs a snapshot that is ahead of them. -/
theorem progress_between_restarts_snapshot :
    (((stateAt snapshotAhead 31).node 3).commitIndex, ((stateAt snapshotAhead 31).node 3).lastApplied,
      ((stateAt snapshotAhead 31).node 3).store.snapIndex) = (2, 2, 0) ∧
    (((stateAt snapshotAhead 32).node 3).commitIndex, ((stateAt snapshotAhead 32).node 3).lastApplied,
      ((stateAt snapshotAhead 32).node 3).store.snapIndex) = (3, 3, 3) ∧
    ∀ j ≤ 32, Progress ((stateAt snapshotAhead j).node 3) ((stateAt snapshotAhead 32).node 3) := by
  have hcrash : ∀ act ∈ snapshotAhead, act.restarts = false := by decide
  have hahead : ∀ t < 32, ∀ call ∈ (stateAt snapshotAhead t).calls, call.dest = 3 →
      ∀ snap ∈ call.req.snapshot?,
        ((stateAt snapshotAhead t).node 3).commitIndex ≤ snap.lastIncludedIndex ∧
        ((stateAt snapshotAhead t).node 3).lastApplied ≤ snap.lastIncludedIndex := by decide +kernel
  refine ⟨by decide +kernel, by decide +kernel, fun j hj => ?_⟩
  refine progress_between_restarts threeNodes _ _ (isRun_stateAt (by decide +kernel)) 3 j 32 hj ?_ ?_
  · intro t _ _ d f p s hact
    exact absurd (hcrash _ (List.mem_of_getElem? hact)) (by simp [Action.restarts])
  · rintro t act - ht - ⟨k, faults, call, -, hk, hd, snap, hreq, -, -, hout⟩
    have hle := hahead t ht call (List.mem_of_getElem? hk) hd snap (by rw [hreq]; rfl)
    omega

/-- Node 3 accepts both entries of term 1, but the replies are lost. Node 1 compacts its log
    through index 1 and sends that snapshot. -/
def outdatedSnapshot : List Action :=
  firstTerm ++
    [sec (.deliver 3), .abort 3, sec (.finish 3), sec (.propose 1 [7]),
      sec (.tick 1 false fun _ => true), sec (.deliver 4), sec (.reply 4 0), sec (.finish 4),
      sec (.deliver 5), .abort 5, sec (.finish 5), sec (.tick 1 false fun _ => true),
      sec (.deliver 7), .abort 7, sec (.finish 7), sec (.collect 3), sec (.collect 1),
      sec (.snapshot 1 1 [9]), sec (.tick 1 false fun _ => true), sec (.deliver 8)]

/-- The delivery of the snapshot takes node 3 from index 2 back to index 1. -/
theorem install_rewinds :
    IsRun (Cluster.step threeNodes) (Cluster.init threeNodes) (stateAt outdatedSnapshot)
      (fun k => outdatedSnapshot[k]?) ∧
    outdatedSnapshot[25]? = some (sec (.deliver 8)) ∧
    (((stateAt outdatedSnapshot 25).node 3).commitIndex,
      ((stateAt outdatedSnapshot 25).node 3).lastApplied) = (2, 2) ∧
    (((stateAt outdatedSnapshot 26).node 3).commitIndex,
      ((stateAt outdatedSnapshot 26).node 3).lastApplied) = (1, 1) :=
  ⟨isRun_stateAt (by decide +kernel), rfl, by decide +kernel, by decide +kernel⟩

end Raft
end DistKV
