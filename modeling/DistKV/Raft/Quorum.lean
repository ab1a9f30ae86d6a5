import DistKV.Raft.Node

/-!
# What a configuration takes for a quorum

`confstate.go` counts twice. An election counts replies (`HasVoteQuorum`), a commit counts match
values (`canCommit`), and both look only at the configuration the node has applied. In a joint
configuration the commit rule asks for a majority of either half, the election rule for as many
votes as the larger majority, from whichever half. `Counts` is the weaker of the two: what a commit
counts is also counted by it.
-/

namespace DistKV
namespace Raft

theorem mem_sortedKeys {m : Finset Nat} {p : Nat} : p ∈ sortedKeys m ↔ p ∈ m := by
  rw [sortedKeys, List.mem_filter, List.mem_range, decide_eq_true_eq]
  refine ⟨fun h => h.2, fun h => ⟨Nat.lt_succ_of_le ?_, h⟩⟩
  exact Finset.le_sup (f := id) h

theorem sortedKeys_nodup (m : Finset Nat) : (sortedKeys m).Nodup :=
  List.nodup_range.filter _

/-- Two majorities of the voters have a member in common. -/
theorem majority_meet {V W S : Finset Nat} (hV : V ⊆ S) (hW : W ⊆ S)
    (hcV : majority S.card ≤ V.card) (hcW : majority S.card ≤ W.card) : ∃ v, v ∈ V ∧ v ∈ W := by
  have hcard : S.card < V.card + W.card := by
    rw [majority] at hcV hcW
    omega
  obtain ⟨v, hv⟩ := Finset.inter_nonempty_of_card_lt_card_add_card hV hW hcard
  exact ⟨v, Finset.mem_inter.mp hv⟩

namespace ConfState

/-- `V` is made of members of `c`, and `c` takes that many for a quorum. -/
def Counts (c : ConfState) (V : Finset Nat) : Prop :=
  V ⊆ c.allPeerIDs.toFinset ∧ c.hasVoteQuorum V.card = true

instance (c : ConfState) (V : Finset Nat) : Decidable (c.Counts V) :=
  inferInstanceAs (Decidable (_ ∧ _))

variable {c : ConfState}

theorem allPeerIDs_nodup : c.allPeerIDs.Nodup := by
  rw [allPeerIDs]
  split
  · exact sortedKeys_nodup _
  · exact sortedKeys_nodup _

theorem mem_allPeerIDs {p : Nat} : p ∈ c.allPeerIDs ↔ p ∈ c.voters ∨ p ∈ c.joint := by
  rw [allPeerIDs]
  split
  · rw [mem_sortedKeys, Finset.mem_union]
  · next h =>
    have hempty : c.joint = ∅ := by
      rw [inJoint, decide_eq_true_iff] at h
      exact Finset.card_eq_zero.mp (Nat.eq_zero_of_not_pos h)
    rw [voterIDs, mem_sortedKeys, hempty]
    simp

theorem contains_allPeerIDs {p : Nat} (h : c.contains p = true) : p ∈ c.allPeerIDs :=
  mem_allPeerIDs.mpr (.inl (of_decide_eq_true h))

theorem hasVoteQuorum_mono {m n : Nat} (h : c.hasVoteQuorum m = true) (hle : m ≤ n) :
    c.hasVoteQuorum n = true := by
  simp only [hasVoteQuorum] at h ⊢
  split at h
  · next hj =>
    obtain ⟨hold, hnew⟩ := Bool.and_eq_true_iff.mp h
    rw [if_pos hj, Bool.and_eq_true_iff]
    exact ⟨decide_eq_true (Nat.le_trans (of_decide_eq_true hold) hle),
      decide_eq_true (Nat.le_trans (of_decide_eq_true hnew) hle)⟩
  · next hj =>
    rw [if_neg hj]
    exact decide_eq_true (Nat.le_trans (of_decide_eq_true h) hle)

/-- The members that have replicated through `idx`. -/
def holders (c : ConfState) (matchIndex : Nat → Option Nat) (idx : Nat) : Finset Nat :=
  (c.allPeerIDs.filter fun id => decide ((matchIndex id).getD 0 ≥ idx)).toFinset

theorem countGE_holders {m : Finset Nat} {matchIndex : Nat → Option Nat} {idx : Nat}
    (hm : ∀ p ∈ m, p ∈ c.allPeerIDs) :
    countGE (sortedKeys m) matchIndex idx ≤ (c.holders matchIndex idx).card := by
  rw [countGE, ← List.toFinset_card_of_nodup ((sortedKeys_nodup m).filter _)]
  refine Finset.card_le_card fun p hp => ?_
  obtain ⟨hin, hge⟩ := List.mem_filter.mp (List.mem_toFinset.mp hp)
  exact List.mem_toFinset.mpr (List.mem_filter.mpr ⟨hm p (mem_sortedKeys.mp hin), hge⟩)

/-- Whoever lets an index commit would also elect. -/
theorem canCommit_counts {matchIndex : Nat → Option Nat} {idx : Nat}
    (h : c.canCommit idx matchIndex = true) : c.Counts (c.holders matchIndex idx) := by
  constructor
  · intro p hp
    exact List.mem_toFinset.mpr (List.mem_of_mem_filter (List.mem_toFinset.mp hp))
  have hvoters : countGE c.voterIDs matchIndex idx ≤ (c.holders matchIndex idx).card :=
    countGE_holders fun p hp => mem_allPeerIDs.mpr (.inl hp)
  have hjoint : countGE c.jointIDs matchIndex idx ≤ (c.holders matchIndex idx).card :=
    countGE_holders fun p hp => mem_allPeerIDs.mpr (.inr hp)
  simp only [canCommit] at h
  rw [hasVoteQuorum]
  split at h
  · next hj =>
    obtain ⟨hold, hnew⟩ := Bool.and_eq_true_iff.mp h
    rw [if_pos hj, Bool.and_eq_true_iff]
    exact ⟨decide_eq_true (Nat.le_trans (of_decide_eq_true hold) hjoint),
      decide_eq_true (Nat.le_trans (of_decide_eq_true hnew) hvoters)⟩
  · next hj =>
    rw [if_neg hj]
    exact decide_eq_true (Nat.le_trans (of_decide_eq_true h) hvoters)

/-- What `maxCommitIndex` returns is replicated on a quorum. -/
theorem maxCommitIndex_counts {matchIndex : Nat → Option Nat}
    (hpos : 0 < c.maxCommitIndex matchIndex) :
    ∃ V, c.Counts V ∧ ∀ v ∈ V, ∃ m, matchIndex v = some m ∧ c.maxCommitIndex matchIndex ≤ m := by
  generalize hN : c.maxCommitIndex matchIndex = N at hpos ⊢
  simp only [maxCommitIndex] at hN
  cases hf : List.find? (fun idx => decide (idx ≠ 0) && c.canCommit idx matchIndex) _ with
  | none => rw [hf] at hN; exact absurd hN (Nat.ne_of_lt hpos)
  | some idx =>
    rw [hf] at hN
    obtain rfl : idx = N := hN
    have hfound := List.find?_some hf
    have hcan := (Bool.and_eq_true_iff.mp hfound).2
    refine ⟨c.holders matchIndex idx, canCommit_counts hcan, fun v hv => ?_⟩
    have hge := of_decide_eq_true (List.mem_filter.mp (List.mem_toFinset.mp hv)).2
    cases hm : matchIndex v with
    | none => rw [hm] at hge; exact absurd hge (Nat.not_le_of_lt hpos)
    | some m => rw [hm] at hge; exact ⟨m, rfl, hge⟩

end ConfState

/-! ## The bootstrap configuration -/

section Bootstrap

variable {peers : List Nat}

theorem newConfState_inJoint : (ConfState.newConfState peers).inJoint = false := by
  simp [ConfState.inJoint, ConfState.newConfState]

theorem newConfState_allPeerIDs :
    (ConfState.newConfState peers).allPeerIDs = sortedKeys peers.toFinset := by
  rw [ConfState.allPeerIDs, newConfState_inJoint]
  rfl

theorem newConfState_hasVoteQuorum {votes : Nat} :
    (ConfState.newConfState peers).hasVoteQuorum votes = true ↔
      majority peers.toFinset.card ≤ votes := by
  rw [ConfState.hasVoteQuorum, newConfState_inJoint]
  exact decide_eq_true_iff

theorem newConfState_meet {V W : Finset Nat} (hV : (ConfState.newConfState peers).Counts V)
    (hW : (ConfState.newConfState peers).Counts W) : ∃ v, v ∈ V ∧ v ∈ W := by
  have hin : ∀ {V : Finset Nat}, (ConfState.newConfState peers).Counts V → V ⊆ peers.toFinset := by
    intro V h p hp
    have hmem := List.mem_toFinset.mp (h.1 hp)
    rw [newConfState_allPeerIDs, mem_sortedKeys] at hmem
    exact hmem
  exact majority_meet (hin hV) (hin hW) (newConfState_hasVoteQuorum.mp hV.2)
    (newConfState_hasVoteQuorum.mp hW.2)

end Bootstrap

/-- `V` is a set the node would take for a quorum. A candidate counts votes and a leader match values;
    a follower counts nothing. -/
def Node.Counting (n : Node) (V : Finset Nat) : Prop := n.role ≠ .follower ∧ n.conf.Counts V

end Raft
end DistKV
