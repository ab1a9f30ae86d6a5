import DistKV.Raft.Versions

/-!
# Safety while the membership changes

A node counts votes and match values with the configuration it has applied. `ProposeConfChange` lets
one change follow another as soon as the leader has applied the first, however far the others lag,
so the leader may be several configurations ahead of the rest and the quorums of the two need not
meet: in `laggingVoters` the leader has shrunk the cluster to itself while the other two still elect
among the three they started as. In a run of careful actions everybody goes by a version of one log,
two of which are never far enough apart for that, so a term has one leader, nothing is committed
twice, and later leaders have what was committed.
-/

namespace DistKV
namespace Raft

open Run (IsRun)

def Event.confChange? : Event → Option (Nat × ConfChange)
  | .proposeConfChange i cc => some (i, cc)
  | _ => none

def Event.collects? : Event → Option Nat
  | .collect i => some i
  | _ => none

/-- The process that goes down, and how. -/
def Action.crash? : Action → Option (Nat × Option Event × List Bool × Nat × Nat)
  | .restart i during faults point keep => some (i, during, faults, point, keep)
  | _ => none

/-- A change is accepted when everybody in `members` has applied what the leader has. -/
def Node.Settles (n : Node) (c : Cluster) (members : List Nat) (cc : ConfChange) : Prop :=
  n.ChangesWithin n.lastApplied ∧ n.conf.voters ⊆ members.toFinset ∧
    (cc.type ≠ .leaveJoint → ∀ m ∈ members, m ∈ (c.node m).conf.voters ∨ m ∈ n.conf.voters →
      n.ChangesWithin (c.node m).lastApplied)

/-- A restart leads back to the configuration that was applied. -/
def Node.Returns (n : Node) (store : DiskStorage) : Prop :=
  store.snapIndex ≤ n.lastApplied ∧ n.Replays store.snapIndex (n.appliedAs store.conf)

def Checked (cfg : Config) (members : List Nat) (c : Cluster) (act : Action) : Prop :=
  act.FaultFree ∧ (∀ call ∈ c.calls, call.req.snapshot? = none) ∧
  (∀ p ∈ act.section?, (∀ x ∈ c.resolve p.1, x.1 ∈ members) ∧
    (∀ x ∈ p.1.confChange?, (c.node x.1).Settles c members x.2) ∧
    (∀ i ∈ p.1.collects?, (c.node i).role ≠ .candidate) ∧
    ∀ o ∈ c.outcome p.1 p.2, ∀ s ∈ o.2.2.sends, s.req.snapshot? = none) ∧
  ∀ x ∈ act.crash?, x.1 ∈ members ∧
    ∀ store ∈ c.recovers cfg x.1 x.2.1 x.2.2.1 x.2.2.2.1 x.2.2.2.2, (c.node x.1).Returns store

instance (n : Node) (c : Cluster) (members : List Nat) (cc : ConfChange) :
    Decidable (n.Settles c members cc) :=
  inferInstanceAs (Decidable (_ ∧ _ ∧ _))

instance (n : Node) (store : DiskStorage) : Decidable (n.Returns store) :=
  inferInstanceAs (Decidable (_ ∧ _))

instance (cfg : Config) (members : List Nat) (c : Cluster) (act : Action) :
    Decidable (Checked cfg members c act) :=
  inferInstanceAs (Decidable (_ ∧ _ ∧ _ ∧ _))

section Checked

variable {cfg : Config} {members : List Nat} {c c' : Cluster} {act : Action} {r : Reach}

theorem Checked.installs (h : Checked cfg members c act) (i : Nat) (e : Event) :
    c.installs i e = none := by
  cases hx : c.installs i e with
  | none => rfl
  | some x =>
    obtain ⟨call, -, hcall, -, hreq, -⟩ := installs_some hx
    have hnone := h.2.1 call (List.mem_of_getElem? hcall)
    rw [hreq] at hnone
    cases hnone

theorem Checked.cutInstall (h : Checked cfg members c act) (i : Nat) (during : Option Event)
    (snapIndex : Nat) : c.cutInstall i during snapIndex = none := by
  unfold Cluster.cutInstall
  cases during with
  | none => rfl
  | some e =>
    rw [Option.bind_some, h.installs i e]
    rfl

theorem ChangesWithin.mono {n : Node} {k l : Nat} (h : n.ChangesWithin k) (hle : k ≤ l) :
    n.ChangesWithin l :=
  ⟨Nat.le_trans h.1 hle, fun e he hc => Nat.le_trans (h.2 e he hc) hle⟩

theorem Checked.careful (h : Checked cfg members c act)
    (hreach : ∀ m, (c.node m).lastApplied ≤ r.node m)
    (hout : ∀ m, m ∉ members → m ∉ (c.node m).conf.voters) : Careful cfg c r act where
  free := h.1
  quiet p hp i cc hprop _ := by
    have hsettles := (h.2.2.1 p hp).2.1 (i, cc) (by rw [hprop]; rfl)
    exact hsettles.1
  known p hp i cc hprop _ htype m hm := by
    have hsettles := (h.2.2.1 p hp).2.1 (i, cc) (by rw [hprop]; rfl)
    have hin : m ∈ members := by
      rcases hm with hm | hm
      · by_contra hnot
        exact hout m hnot hm
      · exact List.mem_toFinset.mp (hsettles.2.1 hm)
    exact ChangesWithin.mono (hsettles.2.2 htype m hin hm) (hreach m)
  steady p hp i hcollect hrole := by
    have hnot := (h.2.2.1 p hp).2.2.1 i (by rw [hcollect]; rfl)
    exact absurd hrole hnot
  ships p hp o ho s hs hsnap := absurd ((h.2.2.1 p hp).2.2.2 o ho s hs) hsnap
  ahead p hp i x hx := by
    rw [h.installs i p.1] at hx
    cases hx
  whole i during faults point keep _ store _ x hx := by
    rw [h.cutInstall] at hx
    cases hx
  replays i during faults point keep hact store hstore _ := by
    have hreturns := (h.2.2.2 (i, during, faults, point, keep) (by rw [hact]; rfl)).2 store hstore
    exact hreturns.2

/-- Nobody has applied more than they have come to. -/
theorem Checked.applied (h : Checked cfg members c act) (hs : c.step cfg act = some c')
    (hreach : ∀ m, (c.node m).lastApplied ≤ r.node m) (m : Nat) :
    (c'.node m).lastApplied ≤ (r.next c act c').node m := by
  have hnode := step_node hs m
  cases act with
  | run e faults => exact Nat.le_trans (Nat.le_max_left _ _) (Nat.le_max_right _ _)
  | restart i during faults point keep =>
    refine Nat.le_trans ?_ (Nat.le_max_left _ _)
    generalize c'.node m = n at hnode ⊢
    cases hnode with
    | same => exact hreach m
    | ran e faults op eff runs => cases runs
    | restarted during faults point keep files store crashes found opens =>
      have hstore : store ∈ c.recovers cfg m during faults point keep := by
        rw [Cluster.recovers, found]
        exact opens
      have hreturns := (h.2.2.2 (m, during, faults, point, keep) (by rw [crashes]; rfl)).2 store hstore
      exact Nat.le_trans hreturns.1 (hreach m)
  | _ =>
    rw [silent_node hs rfl (by simp)]
    exact Nat.le_trans (hreach m) (Nat.le_max_left _ _)

variable {σ : Nat → Cluster} {α : Nat → Option Action}

end Checked

/-! ## A run with changes in it -/

/-- Node 1 replicates to node 2 through call `k`. -/
def toSecond (k : Nat) : List Action :=
  [sec (.tick 1 false fun _ => true), sec (.deliver k), sec (.reply k 0), sec (.finish k)]

/-- Node 1 leads term 1; node 3 has its no-op, but the reply is on its way. The leader removes node 3
    and then node 2. Every change is committed with node 2 and applied by the leader alone. -/
def removals : List Action :=
  [sec (.tick 1 true fun _ => true), sec (.deliver 0), sec (.reply 0 0), sec (.deliver 3),
    sec (.deliver 2), sec (.reply 2 0), sec (.finish 2)] ++
  sec (.proposeConfChange 1 { type := .removeNode, nodeId := 3 }) :: toSecond 4 ++
  [sec (.collect 1), .emit 1, .emit 1] ++
  sec (.proposeConfChange 1 { type := .leaveJoint }) :: toSecond 5 ++ [sec (.collect 1), .emit 1] ++
  sec (.proposeConfChange 1 { type := .removeNode, nodeId := 2 }) :: toSecond 6 ++
  [sec (.collect 1), .emit 1]

end Raft
end DistKV
