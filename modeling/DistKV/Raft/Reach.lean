import DistKV.Raft.Agreement
import DistKV.Raft.ConfDisk
import DistKV.Raft.Reapply

/-!
# When membership changes are safe

`ProposeConfChange` looks at the configuration the leader has applied and at nothing else, so the
leader may be several configurations ahead of the others, and a process that restarts or gets a
snapshot applies changes again. `Careful` says what has to be watched, action by action:

* a change is accepted only if the leader has applied all changes of its log, and one other than
  `LEAVE_JOINT` only if everybody who takes themselves for a voter, and every voter of the leader's
  configuration, has applied them too, before or after a restart;
* a candidate does not apply a change;
* what a process applies again, after a restart or from a snapshot, leads back to the configuration
  it has (`ConfState.Replays`), and a snapshot is not installed by a process that has come further
  than its sender.

How far a process has come is not in its state: after a restart `lastApplied` is the snapshot index
again. `reachAt` keeps count along the run.
-/

namespace DistKV
namespace Raft

/-! ## The log of a node -/

/-- Every change the node knows of stands at `index` or below. -/
def Node.ChangesWithin (n : Node) (index : Nat) : Prop :=
  n.store.snapIndex ≤ index ∧ ∀ e ∈ n.store.log, e.change? ≠ none → e.index ≤ index

instance (n : Node) (index : Nat) : Decidable (n.ChangesWithin index) :=
  inferInstanceAs (Decidable (_ ∧ _))

/-- The entries of the node's log above `low`, up to `high`. -/
def Node.between (n : Node) (low high : Nat) : List Entry :=
  n.store.log.filter fun e => decide (low < e.index ∧ e.index ≤ high)

/-- A node that has applied its log through `high` can apply what is above `low` again. -/
def Node.Replays (n : Node) (low high : Nat) : Prop :=
  (n.confAt high).Replays ((n.between low high).filterMap Entry.change?)

instance (n : Node) (low high : Nat) : Decidable (n.Replays low high) :=
  inferInstanceAs (Decidable (ConfState.Replays _ _))

/-- The index the applier of `n` had come to when it persisted `conf`. -/
def Node.appliedAs (n : Node) (conf : ConfState) : Nat :=
  ((List.range' n.lastApplied (n.commitIndex + 1 - n.lastApplied)).find? fun l =>
    decide (n.confAt l = conf)).getD n.lastApplied

/-- In a log without gaps the entries between two indices are a part of it. -/
theorem Chain.filter_index {b : Nat} {log : List Entry} (h : Chain b log) (low high : Nat) :
    (log.filter fun e => decide (low < e.index ∧ e.index ≤ high)) =
      (log.take (high - b)).drop (low - b) := by
  induction log generalizing b with
  | nil => simp
  | cons e log ih =>
    have hindex : e.index = b + 1 := h.head
    have hrest := ih h.tail
    rcases Nat.lt_or_ge b high with hhigh | hhigh
    · obtain ⟨d, hd⟩ : ∃ d, high - b = d + 1 := ⟨high - b - 1, by omega⟩
      have hd' : high - (b + 1) = d := by omega
      rw [hd, List.take_succ_cons]
      rw [hd'] at hrest
      rcases Nat.lt_or_ge b low with hlow | hlow
      · have hout : ¬(low < e.index ∧ e.index ≤ high) := by omega
        have hl : low - b = low - (b + 1) + 1 := by omega
        rw [List.filter_cons_of_neg (by simpa using hout), hrest, hl, List.drop_succ_cons]
      · have hin : low < e.index ∧ e.index ≤ high := by omega
        have hl : low - b = 0 := by omega
        have hl' : low - (b + 1) = 0 := by omega
        rw [hl', List.drop_zero] at hrest
        rw [List.filter_cons_of_pos (by simpa using hin), hrest, hl, List.drop_zero]
    · have hout : ¬(low < e.index ∧ e.index ≤ high) := by omega
      have hz : high - b = 0 := by omega
      have hz' : high - (b + 1) = 0 := by omega
      rw [List.filter_cons_of_neg (by simpa using hout), hrest, hz, hz']
      simp

/-- If the applier has been at `conf` at all, `appliedAs` says where. -/
theorem Node.appliedAs_spec {n : Node} {l : Nat} (hlow : n.lastApplied ≤ l) (hhigh : l ≤ n.commitIndex)
    {conf : ConfState} (h : n.confAt l = conf) :
    n.lastApplied ≤ n.appliedAs conf ∧ n.appliedAs conf ≤ n.commitIndex ∧
      n.confAt (n.appliedAs conf) = conf := by
  unfold Node.appliedAs
  cases hf : (List.range' n.lastApplied (n.commitIndex + 1 - n.lastApplied)).find? fun l =>
      decide (n.confAt l = conf) with
  | none =>
    have hnot := List.find?_eq_none.mp hf l (List.mem_range'_1.mpr ⟨hlow, by omega⟩)
    exact absurd (decide_eq_true h) hnot
  | some l' =>
    have hin := List.mem_range'_1.mp (List.mem_of_find?_eq_some hf)
    have hconf := List.find?_some hf
    exact ⟨hin.1, by rw [Option.getD_some]; omega, of_decide_eq_true hconf⟩

/-! ## How far everybody has come -/

/-- The highest index that a process, or whoever it has its snapshot from, has applied, and the same
    for the sender of a call when it was sent. -/
structure Reach where
  node : Nat → Nat := fun _ => 0
  call : Nat → Nat := fun _ => 0

/-- The snapshot that the event makes process `i` install, with the call it comes in. -/
def Cluster.installs (c : Cluster) (i : Nat) : Event → Option (Nat × InstallSnapshotRequest)
  | .deliver q =>
    c.calls[q]?.bind fun call => call.req.snapshot?.bind fun req =>
      if call.dest = i ∧ (c.node i).store.term ≤ req.term ∧
        (c.node i).store.snapIndex < req.lastIncludedIndex then some (q, req) else none
  | _ => none

/-- What process `i` finds on its disk after a crash. -/
def Cluster.recovers (cfg : Config) (c : Cluster) (i : Nat) (during : Option Event)
    (faults : List Bool) (point keep : Nat) : Option DiskStorage :=
  (c.filesAt i during faults point).bind fun files =>
    DiskStorage.openDiskStorage (files.crash keep) cfg.peers

/-- The snapshot that process `i` was installing when it went down, if its index got to the disk. -/
def Cluster.cutInstall (c : Cluster) (i : Nat) (during : Option Event) (snapIndex : Nat) :
    Option (Nat × InstallSnapshotRequest) :=
  (during.bind (c.installs i)).filter fun x => decide (snapIndex = x.2.lastIncludedIndex)

/-- What process `i` has come to by an action from `c` to `c'`. -/
def Reach.gain (r : Reach) (c : Cluster) (act : Action) (c' : Cluster) (i : Nat) : Nat :=
  match act with
  | .run e _ => max (c'.node i).lastApplied (((c.installs i e).map fun x => r.call x.1).getD 0)
  | .restart j during _ _ _ =>
    if i = j then
      match c.cutInstall i during (c'.node i).store.snapIndex with
      | some x => r.call x.1
      | none => (c.node i).appliedAs (c'.node i).conf
    else 0
  | _ => 0

def Reach.next (r : Reach) (c : Cluster) (act : Action) (c' : Cluster) : Reach where
  node i := max (r.node i) (r.gain c act c' i)
  call k :=
    if k < c.calls.length then r.call k
    else ((c'.calls[k]?).map fun call => max (r.node call.source) (r.gain c act c' call.source)).getD 0

/-- How far everybody has come in the course of a run. -/
def reachAt (σ : Nat → Cluster) (α : Nat → Option Action) : Nat → Reach
  | 0 => {}
  | k + 1 =>
    match α k with
    | none => reachAt σ α k
    | some act => (reachAt σ α k).next (σ k) act (σ (k + 1))

theorem reachAt_mono {σ : Nat → Cluster} {α : Nat → Option Action} {j k : Nat} (hjk : j ≤ k)
    (i : Nat) : (reachAt σ α j).node i ≤ (reachAt σ α k).node i := by
  induction hjk with
  | refl => exact Nat.le_refl _
  | step _ ih =>
    refine Nat.le_trans ih ?_
    rw [reachAt]
    split
    · exact Nat.le_refl _
    · exact Nat.le_max_left _ _

/-! ## The conditions -/

/-- What is asked of an action in `c`. -/
structure Careful (cfg : Config) (c : Cluster) (r : Reach) (act : Action) : Prop where
  free : act.FaultFree
  /-- The leader has applied the changes of its log. -/
  quiet : ∀ p ∈ act.section?, ∀ i cc, p.1 = .proposeConfChange i cc →
    (c.node i).AcceptsConfChange cc → (c.node i).ChangesWithin (c.node i).lastApplied
  /-- So has everybody else who counts. -/
  known : ∀ p ∈ act.section?, ∀ i cc, p.1 = .proposeConfChange i cc →
    (c.node i).AcceptsConfChange cc → cc.type ≠ .leaveJoint →
    ∀ m, m ∈ (c.node m).conf.voters ∨ m ∈ (c.node i).conf.voters →
      (c.node i).ChangesWithin (r.node m)
  /-- A candidate applies no change. -/
  steady : ∀ p ∈ act.section?, ∀ i, p.1 = .collect i → (c.node i).role = .candidate →
    ∀ e ∈ (c.node i).between (c.node i).lastApplied (c.node i).commitIndex, e.change? = none
  /-- Whoever gets a snapshot can apply again what the sender has applied above its index. -/
  ships : ∀ p ∈ act.section?, ∀ o ∈ c.outcome p.1 p.2, ∀ s ∈ o.2.2.sends, s.req.snapshot? ≠ none →
    (c.node o.1).Replays (c.node o.1).store.snapIndex (c.node o.1).lastApplied
  /-- The sender of a snapshot had come as far as the process that installs it. -/
  ahead : ∀ p ∈ act.section?, ∀ i, ∀ x ∈ c.installs i p.1, r.node i ≤ r.call x.1
  /-- A crash in an installation leaves the index and the configuration of the snapshot, or the old
      index. -/
  whole : ∀ i during faults point keep, act = .restart i during faults point keep →
    ∀ store ∈ c.recovers cfg i during faults point keep,
    ∀ x ∈ c.cutInstall i during store.snapIndex, store.conf = x.2.confState
  /-- Whoever restarts can apply again what it had applied above the index it starts from. -/
  replays : ∀ i during faults point keep, act = .restart i during faults point keep →
    ∀ store ∈ c.recovers cfg i during faults point keep,
    c.cutInstall i during store.snapIndex = none →
    (c.node i).Replays store.snapIndex ((c.node i).appliedAs store.conf)

end Raft
end DistKV
