import Mathlib.Algebra.Ring.Parity
import Mathlib.Data.Finset.Max
import Mathlib.Order.Bounds.Basic
import Mathlib.Order.SymmDiff
import DistKV.Raft.Cluster
import DistKV.Raft.Quorum

/-!
# The two ways of counting in a joint configuration

A commit asks for a majority of `Voters` and, in a joint configuration, for a majority of `Joint`
(`Majorities`). Elections and reads count heads over both halves together: `HasVoteQuorum` and the
ack threshold of `ReadIndex` ask for as many as the larger majority, whichever half they are from.

`ApplyConfChange` moves one id at a time, so in every configuration it reaches one half contains the
other and has at most one id more (`Formed`). That is why any two quorums of neighbouring
configurations meet, and it decides when the two ways of counting agree: a majority of the larger
half has a majority of the smaller one in it unless the smaller one is even.
-/

namespace DistKV
namespace Raft

/-- Majorities of two sets, one of which is the other or has one element more, meet. -/
theorem majority_meet_next {V W S T : Finset Nat} (hST : S ⊆ T) (hcard : T.card ≤ S.card + 1)
    (hV : V ⊆ S) (hW : W ⊆ T) (hcV : majority S.card ≤ V.card) (hcW : majority T.card ≤ W.card) :
    ∃ v, v ∈ V ∧ v ∈ W := by
  have hmore : T.card < V.card + W.card := by
    have hle := Finset.card_le_card hST
    rw [majority] at hcV hcW
    omega
  obtain ⟨v, hv⟩ := Finset.inter_nonempty_of_card_lt_card_add_card (hV.trans hST) hW hmore
  exact ⟨v, Finset.mem_inter.mp hv⟩

namespace ConfState

/-- A majority of the voters, and of the old voters in a joint configuration. -/
def Majorities (c : ConfState) (P : Nat → Prop) [DecidablePred P] : Prop :=
  majority c.voters.card ≤ (c.voters.filter P).card ∧
    (c.inJoint = true → majority c.joint.card ≤ (c.joint.filter P).card)

instance (c : ConfState) (P : Nat → Prop) [DecidablePred P] : Decidable (c.Majorities P) :=
  inferInstanceAs (Decidable (_ ∧ _))

theorem Majorities.mono {c : ConfState} {P Q : Nat → Prop} [DecidablePred P] [DecidablePred Q]
    (h : c.Majorities P) (hPQ : ∀ id ∈ c.allPeerIDs, P id → Q id) : c.Majorities Q := by
  have hsub : ∀ m : Finset Nat, (∀ id ∈ m, id ∈ c.allPeerIDs) →
      (m.filter P).card ≤ (m.filter Q).card := by
    intro m hm
    refine Finset.card_le_card fun id hid => ?_
    obtain ⟨hin, hP⟩ := Finset.mem_filter.mp hid
    exact Finset.mem_filter.mpr ⟨hin, hPQ id (hm id hin) hP⟩
  exact ⟨Nat.le_trans h.1 (hsub _ fun id hid => mem_allPeerIDs.mpr (.inl hid)),
    fun hj => Nat.le_trans (h.2 hj) (hsub _ fun id hid => mem_allPeerIDs.mpr (.inr hid))⟩

theorem countGE_eq (m : Finset Nat) (matchIndex : Nat → Option Nat) (idx : Nat) :
    countGE (sortedKeys m) matchIndex idx =
      (m.filter fun id => idx ≤ (matchIndex id).getD 0).card := by
  rw [countGE, ← List.toFinset_card_of_nodup ((sortedKeys_nodup m).filter _)]
  congr 1
  ext id
  simp [mem_sortedKeys]

/-- The rule of a commit. -/
theorem canCommit_iff {c : ConfState} {idx : Nat} {matchIndex : Nat → Option Nat} :
    c.canCommit idx matchIndex = true ↔ c.Majorities fun id => idx ≤ (matchIndex id).getD 0 := by
  rw [canCommit, Majorities, voterIDs, jointIDs, countGE_eq, countGE_eq]
  cases hj : c.inJoint with
  | true => simp [and_comm]
  | false => simp

/-! ## The configurations there are -/

/-- Configurations that `ApplyConfChange` reaches from a bootstrap set. -/
inductive Reachable : ConfState → Prop
  | boot {ids : List Nat} (h : ids ≠ []) : Reachable (.newConfState ids)
  | change {c next : ConfState} {cc : ConfChange} (h : Reachable c)
      (hnext : c.applyConfChange cc = .ok next) : Reachable next

/-- `T` is `S` or has one element more. -/
def Step (S T : Finset Nat) : Prop := S ⊆ T ∧ T.card ≤ S.card + 1

/-- There are voters, and in a joint configuration one half is the other or has one id more. -/
structure Formed (c : ConfState) : Prop where
  voters : c.voters.Nonempty
  joint : c.joint = ∅ ∨ Step c.joint c.voters ∨ Step c.voters c.joint

theorem inJoint_iff {c : ConfState} : c.inJoint = true ↔ c.joint.Nonempty := by
  rw [inJoint, decide_eq_true_iff]
  exact Finset.card_pos

theorem not_inJoint {c : ConfState} (h : ¬c.inJoint = true) : c.joint = ∅ := by
  rw [inJoint_iff] at h
  exact Finset.not_nonempty_iff_eq_empty.mp h

/-- What an accepted change does. -/
inductive Changed (c : ConfState) (cc : ConfChange) : ConfState → Prop
  | add (type : cc.type = .addNode) (h : c.joint = ∅) :
      Changed c cc ⟨insert cc.nodeId c.voters, c.voters⟩
  | remove (type : cc.type = .removeNode) (h : c.joint = ∅) (hin : cc.nodeId ∈ c.voters)
      (hcard : 1 < c.voters.card) : Changed c cc ⟨c.voters.erase cc.nodeId, c.voters⟩
  | leave (type : cc.type = .leaveJoint) (h : c.joint.Nonempty) : Changed c cc ⟨c.voters, ∅⟩

theorem applyConfChange_changed {c next : ConfState} {cc : ConfChange}
    (h : c.applyConfChange cc = .ok next) : Changed c cc next := by
  rw [applyConfChange] at h
  split at h
  · next htype =>
    split at h
    · cases h
    next hj =>
    obtain rfl := Except.ok.inj h
    exact .add htype (not_inJoint hj)
  · next htype =>
    split at h
    · cases h
    next hj =>
    split at h
    · cases h
    next hin =>
    split at h
    · cases h
    next hcard =>
    obtain rfl := Except.ok.inj h
    exact .remove htype (not_inJoint hj) (by simpa [contains] using hin) (Nat.lt_of_not_le hcard)
  · next htype =>
    split at h
    · cases h
    next hj =>
    obtain rfl := Except.ok.inj h
    exact .leave htype (inJoint_iff.mp (by simpa using hj))
  · cases h

theorem Changed.formed {c next : ConfState} {cc : ConfChange} (h : Changed c cc next)
    (hc : Formed c) : Formed next := by
  cases h with
  | add type hj =>
    exact ⟨Finset.insert_nonempty _ _,
      .inr (.inl ⟨Finset.subset_insert _ _, Finset.card_insert_le _ _⟩)⟩
  | remove type hj hin hcard =>
    have herase := Finset.card_erase_add_one hin
    exact ⟨Finset.card_pos.mp (by simp only; omega),
      .inr (.inr ⟨Finset.erase_subset _ _, Nat.le_of_eq herase.symm⟩)⟩
  | leave type hj => exact ⟨hc.voters, .inl rfl⟩

theorem Reachable.formed {c : ConfState} (h : Reachable c) : Formed c := by
  induction h with
  | boot hids => exact ⟨List.toFinset_nonempty_iff _ |>.mpr hids, .inl rfl⟩
  | change _ hnext ih => exact (applyConfChange_changed hnext).formed ih

/-! ## Counting heads -/

/-- Everyone who is counted. -/
def members (c : ConfState) : Finset Nat := c.allPeerIDs.toFinset

theorem members_eq (c : ConfState) : c.members = c.voters ∪ c.joint := by
  ext id
  rw [members, List.mem_toFinset, mem_allPeerIDs, Finset.mem_union]

theorem Step.union {S T : Finset Nat} (h : Step S T) : T ∪ S = T :=
  Finset.union_eq_left.mpr h.1

/-- The members are the larger half. -/
theorem Formed.members {c : ConfState} (h : Formed c) :
    c.members.card = max c.voters.card c.joint.card := by
  rw [members_eq]
  rcases h.joint with hempty | hgrow | hshrink
  · simp [hempty]
  · rw [hgrow.union, max_eq_left (Finset.card_le_card hgrow.1)]
  · rw [Finset.union_comm, hshrink.union, max_eq_right (Finset.card_le_card hshrink.1)]

theorem majority_mono {m n : Nat} (h : m ≤ n) : majority m ≤ majority n :=
  Nat.add_le_add_right (Nat.div_le_div_right h) 1

theorem majority_max (m n : Nat) : majority (max m n) = max (majority m) (majority n) := by
  rcases Nat.le_total m n with h | h
  · rw [max_eq_right h, max_eq_right (majority_mono h)]
  · rw [max_eq_left h, max_eq_left (majority_mono h)]

/-- An election wants a majority of all members. -/
theorem Formed.hasVoteQuorum_iff {c : ConfState} (h : Formed c) {votes : Nat} :
    c.hasVoteQuorum votes = true ↔ majority c.members.card ≤ votes := by
  rw [h.members, majority_max, hasVoteQuorum]
  by_cases hj : c.inJoint = true
  · rw [if_pos hj, Bool.and_eq_true_iff, decide_eq_true_iff, decide_eq_true_iff, max_le_iff]
    exact and_comm
  · rw [if_neg hj, not_inJoint hj, decide_eq_true_iff, Finset.card_empty, max_le_iff]
    exact ⟨fun hv => ⟨hv, Nat.le_trans (majority_mono (Nat.zero_le _)) hv⟩, fun hv => hv.1⟩

theorem Formed.counts {c : ConfState} (h : Formed c) {S : Finset Nat} (hS : c.Counts S) :
    S ⊆ c.members ∧ majority c.members.card ≤ S.card :=
  ⟨hS.1, h.hasVoteQuorum_iff.mp hS.2⟩

end ConfState

open ConfState

/-- A read wants as many. -/
theorem readQuorum_le_iff {n : Node} (h : n.conf.Formed) {acks : Nat} :
    n.readQuorum ≤ acks ↔ n.conf.hasVoteQuorum acks = true := by
  have hpeers : n.peerIDs.length = n.conf.members.card :=
    (List.toFinset_card_of_nodup allPeerIDs_nodup).symm
  rw [h.hasVoteQuorum_iff, Node.readQuorum, hpeers]
  have hmax := h.members
  split
  · have hvoters : majority n.conf.voters.card ≤ majority n.conf.members.card :=
      majority_mono (by omega)
    have hjoint : majority n.conf.joint.card ≤ majority n.conf.members.card :=
      majority_mono (by omega)
    simp only [max_le_iff]
    exact ⟨fun hall => hall.1.1, fun hall => ⟨⟨hall, hjoint.trans hall⟩, hvoters.trans hall⟩⟩
  · exact Iff.rfl

/-! ## Quorums of neighbours -/

namespace ConfState

/-- The ids that let some index commit. -/
def Commits (c : ConfState) (S : Finset Nat) : Prop :=
  ∃ idx matchIndex, c.holders matchIndex idx = S ∧ c.canCommit idx matchIndex = true

theorem Commits.counts {c : ConfState} {S : Finset Nat} (h : c.Commits S) : c.Counts S := by
  obtain ⟨idx, matchIndex, rfl, hcan⟩ := h
  exact canCommit_counts hcan

/-- One of the two sets of members is a step from the other. -/
theorem Changed.members {c next : ConfState} {cc : ConfChange} (h : Changed c cc next)
    (hc : Formed c) : Step c.members next.members ∨ Step next.members c.members := by
  rw [members_eq, members_eq]
  cases h with
  | add type hj =>
    refine .inl ?_
    rw [hj, Finset.union_empty, Finset.union_eq_left.mpr (Finset.subset_insert _ _)]
    exact ⟨Finset.subset_insert _ _, Finset.card_insert_le _ _⟩
  | remove type hj hin hcard =>
    refine .inl ?_
    rw [hj, Finset.union_empty, Finset.union_eq_right.mpr (Finset.erase_subset _ _)]
    exact ⟨Finset.Subset.refl _, Nat.le_succ _⟩
  | leave type hj =>
    refine .inr ?_
    rw [Finset.union_empty]
    rcases hc.joint with hempty | hgrow | hshrink
    · exact absurd hempty hj.ne_empty
    · rw [hgrow.union]
      exact ⟨Finset.Subset.refl _, Nat.le_succ _⟩
    · rw [Finset.union_comm, hshrink.union]
      exact hshrink

theorem counts_meet {c c' : ConfState} (hc : Formed c) (hc' : Formed c')
    (hstep : Step c.members c'.members ∨ Step c'.members c.members) {S S' : Finset Nat}
    (hS : c.Counts S) (hS' : c'.Counts S') : ∃ v, v ∈ S ∧ v ∈ S' := by
  obtain ⟨hin, hcard⟩ := hc.counts hS
  obtain ⟨hin', hcard'⟩ := hc'.counts hS'
  rcases hstep with hstep | hstep
  · exact majority_meet_next hstep.1 hstep.2 hin hin' hcard hcard'
  · obtain ⟨v, hv', hv⟩ := majority_meet_next hstep.1 hstep.2 hin' hin hcard' hcard
    exact ⟨v, hv, hv'⟩

theorem Step.symmDiff {S T : Finset Nat} (h : Step S T) : (symmDiff S T).card ≤ 1 := by
  have hdiff := Finset.card_sdiff_add_card_eq_card h.1
  rw [symmDiff_of_le h.1]
  have hcard := h.2
  omega

/-- **Quorums of adjacent configurations meet.** In every configuration the changes reach there is a
    voter, and in a joint one the halves differ by one id at most. Whoever may be elected in it shares
    a member with whoever may be elected or may commit in it or in the next one, and the other way
    round. -/
theorem adjacent_quorums_meet (c : ConfState) (hc : c.Reachable) :
    c.voters.Nonempty ∧
    (c.inJoint = true → (symmDiff c.voters c.joint).card ≤ 1) ∧
    ∀ c', (c' = c ∨ ∃ cc, c.applyConfChange cc = .ok c') → ∀ S S' : Finset Nat,
      S ⊆ c.allPeerIDs.toFinset → S' ⊆ c'.allPeerIDs.toFinset →
      (c.hasVoteQuorum S.card = true → c'.hasVoteQuorum S'.card = true ∨ c'.Commits S' →
        ∃ v, v ∈ S ∧ v ∈ S') ∧
      (c'.hasVoteQuorum S'.card = true → c.hasVoteQuorum S.card = true ∨ c.Commits S →
        ∃ v, v ∈ S ∧ v ∈ S') := by
  have hformed := hc.formed
  refine ⟨hformed.voters, fun hj => ?_, fun c' hc' S S' hS hS' => ?_⟩
  · rcases hformed.joint with hempty | hgrow | hshrink
    · exact absurd hempty (inJoint_iff.mp hj).ne_empty
    · rw [symmDiff_comm]
      exact hgrow.symmDiff
    · exact hshrink.symmDiff
  -- the configurations are the same, or a change apart
  have hnear : Formed c' ∧ (Step c.members c'.members ∨ Step c'.members c.members) := by
    rcases hc' with rfl | ⟨cc, hcc⟩
    · exact ⟨hformed, .inl ⟨Finset.Subset.refl _, Nat.le_succ _⟩⟩
    · have hchanged := applyConfChange_changed hcc
      exact ⟨hchanged.formed hformed, hchanged.members hformed⟩
  constructor
  · intro hvote hother
    refine counts_meet hformed hnear.1 hnear.2 ⟨hS, hvote⟩ ?_
    rcases hother with hvote' | hcommit
    · exact ⟨hS', hvote'⟩
    · exact hcommit.counts
  · intro hvote' hother
    refine counts_meet hformed hnear.1 hnear.2 ?_ ⟨hS', hvote'⟩
    rcases hother with hvote | hcommit
    · exact ⟨hS, hvote⟩
    · exact hcommit.counts

/-- Three voters, one is removed: two of the three and the two that are left. -/
theorem adjacent_quorums_meet_removal : ∃ v, v ∈ ({1, 3} : Finset Nat) ∧ v ∈ ({1, 2} : Finset Nat) :=
  ((adjacent_quorums_meet (.newConfState [1, 2, 3]) (.boot (by decide))).2.2
    ⟨{1, 2}, {1, 2, 3}⟩ (.inr ⟨{ type := .removeNode, nodeId := 3 }, by decide⟩)
    {1, 3} {1, 2} (by decide) (by decide)).1 (by decide) (.inl (by decide))

/-! ## Heads and halves -/

/-- A set of members that is counted loses one at most in the smaller half. -/
theorem filter_step {S T Q : Finset Nat} (h : Step S T) (hQ : Q ⊆ T) :
    (T.filter (· ∈ Q)).card = Q.card ∧ Q.card ≤ (S.filter (· ∈ Q)).card + 1 := by
  constructor
  · rw [Finset.filter_mem_eq_inter, Finset.inter_eq_right.mpr hQ]
  · rw [Finset.filter_mem_eq_inter]
    have hrest : (Q \ S).card ≤ (T \ S).card :=
      Finset.card_le_card (Finset.sdiff_subset_sdiff hQ (Finset.Subset.refl S))
    have hsplit := Finset.card_inter_add_card_sdiff Q S
    have hTS := Finset.card_sdiff_add_card_eq_card h.1
    have hcard := h.2
    rw [Finset.inter_comm]
    omega

/-- A majority of the larger set has a majority of the smaller one in it if that one is odd, or if the
    two are equal. -/
theorem majority_step {S T Q : Finset Nat} (h : Step S T) (hQ : Q ⊆ T)
    (hcard : majority T.card ≤ Q.card) (hodd : T = S ∨ Odd S.card) :
    majority S.card ≤ (S.filter (· ∈ Q)).card := by
  obtain ⟨hall, hmost⟩ := filter_step h hQ
  rcases hodd with rfl | ⟨a, ha⟩
  · rw [hall]
    exact hcard
  · rcases Nat.lt_or_ge S.card T.card with hlt | hge
    · rw [majority] at hcard ⊢
      omega
    · obtain rfl := Finset.eq_of_subset_of_card_le h.1 hge
      rw [hall]
      exact hcard

/-- If the smaller set is even, half of it and the one that it lacks are a majority of the larger
    one. -/
theorem even_step {S T : Finset Nat} (h : Step S T) (hne : T ≠ S) (heven : ¬Odd S.card) :
    ∃ Q ⊆ T, majority T.card ≤ Q.card ∧ (S.filter (· ∈ Q)).card < majority S.card := by
  obtain ⟨a, ha⟩ := Nat.not_odd_iff_even.mp heven
  obtain ⟨x, hxT, hxS⟩ := Finset.exists_of_ssubset (h.1.ssubset_of_ne (Ne.symm hne))
  obtain ⟨half, hhalf, hcard⟩ := Finset.exists_subset_card_eq (s := S) (n := a) (by omega)
  have hx : x ∉ half := fun hin => hxS (hhalf hin)
  have hTcard := h.2
  refine ⟨insert x half, Finset.insert_subset hxT (hhalf.trans h.1), ?_, ?_⟩
  · rw [Finset.card_insert_of_notMem hx, hcard, majority]
    omega
  · have hsame : S.filter (· ∈ insert x half) = half := by
      rw [Finset.filter_mem_eq_inter, Finset.inter_insert_of_notMem hxS,
        Finset.inter_eq_right.mpr hhalf]
    rw [hsame, hcard, majority]
    omega

/-- The smaller half is odd, or there is no smaller half. -/
def Balanced (c : ConfState) : Prop :=
  c.inJoint = true → c.voters = c.joint ∨ Odd (min c.voters.card c.joint.card)

instance (c : ConfState) : Decidable c.Balanced :=
  inferInstanceAs (Decidable (c.inJoint = true → _))

theorem members_of_not_inJoint {c : ConfState} (h : ¬c.inJoint = true) : c.members = c.voters := by
  rw [members_eq, not_inJoint h, Finset.union_empty]

theorem Formed.majorities {c : ConfState} (h : Formed c) (hbal : c.Balanced) {S : Finset Nat}
    (hS : S ⊆ c.members) (hcard : majority c.members.card ≤ S.card) :
    c.Majorities (· ∈ S) := by
  by_cases hj : c.inJoint = true
  swap
  · rw [members_of_not_inJoint hj] at hS hcard
    refine ⟨?_, fun hj' => absurd hj' hj⟩
    rw [Finset.filter_mem_eq_inter, Finset.inter_eq_right.mpr hS]
    exact hcard
  have hodd := hbal hj
  rw [members_eq] at hS hcard
  rcases h.joint with hempty | hgrow | hshrink
  · exact absurd hempty (inJoint_iff.mp hj).ne_empty
  · rw [min_eq_right (Finset.card_le_card hgrow.1)] at hodd
    rw [hgrow.union] at hS hcard
    exact ⟨(filter_step hgrow hS).1 ▸ hcard, fun _ => majority_step hgrow hS hcard hodd⟩
  · rw [min_eq_left (Finset.card_le_card hshrink.1), eq_comm] at hodd
    rw [Finset.union_comm, hshrink.union] at hS hcard
    exact ⟨majority_step hshrink hS hcard hodd, fun _ => (filter_step hshrink hS).1 ▸ hcard⟩

theorem Formed.unbalanced {c : ConfState} (h : Formed c) (hbal : ¬c.Balanced) :
    ∃ S ⊆ c.members, majority c.members.card ≤ S.card ∧ ¬c.Majorities (· ∈ S) := by
  obtain ⟨hj, hodd⟩ := Classical.not_imp.mp hbal
  obtain ⟨hne, heven⟩ := not_or.mp hodd
  rw [members_eq]
  rcases h.joint with hempty | hgrow | hshrink
  · exact absurd hempty (inJoint_iff.mp hj).ne_empty
  · rw [min_eq_right (Finset.card_le_card hgrow.1)] at heven
    obtain ⟨S, hS, hcard, hless⟩ := even_step hgrow hne heven
    rw [hgrow.union]
    exact ⟨S, hS, hcard, fun hmaj => Nat.not_lt_of_le (hmaj.2 hj) hless⟩
  · rw [min_eq_left (Finset.card_le_card hshrink.1)] at heven
    obtain ⟨S, hS, hcard, hless⟩ := even_step hshrink (Ne.symm hne) heven
    rw [Finset.union_comm, hshrink.union]
    exact ⟨S, hS, hcard, fun hmaj => Nat.not_lt_of_le hmaj.1 hless⟩

end ConfState

/-- **When heads are halves.** In every configuration the changes reach, the sets of members that an
    election or a read accepts all have a majority of `Voters` and, in a joint configuration, of
    `Joint`, if and only if the configuration is not joint, or the halves are equal, or the smaller
    one is odd. -/
theorem head_count_iff (n : Node) (h : n.conf.Reachable) :
    (∀ S ⊆ n.conf.allPeerIDs.toFinset,
      n.conf.hasVoteQuorum S.card = true ∨ n.readQuorum ≤ S.card → n.conf.Majorities (· ∈ S)) ↔
    (n.conf.inJoint = true → n.conf.voters = n.conf.joint ∨
      Odd (min n.conf.voters.card n.conf.joint.card)) := by
  have hformed := h.formed
  constructor
  · intro hall
    by_contra hbal
    obtain ⟨S, hS, hcard, hnot⟩ := hformed.unbalanced hbal
    exact hnot (hall S hS (.inl (hformed.hasVoteQuorum_iff.mpr hcard)))
  · intro hbal S hS hcount
    have hvote : n.conf.hasVoteQuorum S.card = true := by
      rcases hcount with hvote | hread
      · exact hvote
      · exact (readQuorum_le_iff hformed).mp hread
    exact hformed.majorities hbal hS (hformed.hasVoteQuorum_iff.mp hvote)

/-- Node 4 joins three voters. -/
def growingNode : Node :=
  { id := 1
    store := { conf := ⟨{4, 1, 2, 3}, {1, 2, 3}⟩ }
    conf := ⟨{4, 1, 2, 3}, {1, 2, 3}⟩ }

theorem growingNode_reachable : growingNode.conf.Reachable := by
  have hboot : (ConfState.newConfState [1, 2, 3]).Reachable := .boot (by decide)
  have hstep : (ConfState.newConfState [1, 2, 3]).applyConfChange { type := .addNode, nodeId := 4 } =
      .ok growingNode.conf := by decide
  exact hboot.change hstep

theorem head_count_growing : growingNode.conf.Majorities (· ∈ ({1, 2, 4} : Finset Nat)) :=
  (head_count_iff growingNode growingNode_reachable).mpr (by decide) {1, 2, 4} (by decide)
    (.inl (by decide))

/-- Node 3 joins two voters: nodes 1 and 3 may elect a leader and confirm a read, and only one of
    them is among the two. The same two may do it while node 3 leaves three voters. -/
theorem head_count_half :
    (ConfState.newConfState [1, 2]).applyConfChange { type := .addNode, nodeId := 3 } =
      .ok ⟨{3, 1, 2}, {1, 2}⟩ ∧
    (⟨{3, 1, 2}, {1, 2}⟩ : ConfState).hasVoteQuorum ({1, 3} : Finset Nat).card = true ∧
    ({ growingNode with conf := ⟨{3, 1, 2}, {1, 2}⟩ } : Node).readQuorum ≤
      ({1, 3} : Finset Nat).card ∧
    ¬(⟨{3, 1, 2}, {1, 2}⟩ : ConfState).Majorities (· ∈ ({1, 3} : Finset Nat)) ∧
    (ConfState.newConfState [1, 2, 3]).applyConfChange { type := .removeNode, nodeId := 3 } =
      .ok ⟨{1, 2}, {1, 2, 3}⟩ ∧
    (⟨{1, 2}, {1, 2, 3}⟩ : ConfState).hasVoteQuorum ({1, 3} : Finset Nat).card = true ∧
    ¬(⟨{1, 2}, {1, 2, 3}⟩ : ConfState).Majorities (· ∈ ({1, 3} : Finset Nat)) := by
  decide

/-! ## The commit index -/

namespace ConfState

/-- The first element of a descending list that passes is the greatest one that does. -/
theorem find?_descending {l : List Nat} {p : Nat → Bool} {a : Nat} (hl : l.Pairwise (· ≥ ·))
    (h : l.find? p = some a) : ∀ b ∈ l, p b = true → b ≤ a := by
  intro b hb hpb
  obtain ⟨-, before, after, rfl, hbefore⟩ := List.find?_eq_some_iff_append.mp h
  rcases List.mem_append.mp hb with hin | hin
  · have hfalse := hbefore b hin
    rw [hpb] at hfalse
    cases hfalse
  · rcases List.mem_cons.mp hin with rfl | hin
    · exact Nat.le_refl _
    · exact List.rel_of_pairwise_cons (List.pairwise_append.mp hl).2.1 hin

/-- The members' match values, as `maxCommitIndex` tries them. -/
def matchValues (c : ConfState) (matchIndex : Nat → Option Nat) : List Nat :=
  (c.allPeerIDs.map fun id => (matchIndex id).getD 0).insertionSort (· ≥ ·)

variable {c : ConfState} {matchIndex : Nat → Option Nat}

theorem mem_matchValues {v : Nat} :
    v ∈ c.matchValues matchIndex ↔ ∃ id ∈ c.allPeerIDs, (matchIndex id).getD 0 = v := by
  rw [matchValues, List.mem_insertionSort, List.mem_map]

theorem maxCommitIndex_cases (c : ConfState) (matchIndex : Nat → Option Nat) :
    (c.maxCommitIndex matchIndex = 0 ∧
      ∀ v ∈ c.matchValues matchIndex, v ≠ 0 → c.canCommit v matchIndex = false) ∨
    (c.canCommit (c.maxCommitIndex matchIndex) matchIndex = true ∧
      0 < c.maxCommitIndex matchIndex ∧
      ∀ v ∈ c.matchValues matchIndex, v ≠ 0 → c.canCommit v matchIndex = true →
        v ≤ c.maxCommitIndex matchIndex) := by
  cases hf : (c.matchValues matchIndex).find?
      (fun idx => decide (idx ≠ 0) && c.canCommit idx matchIndex) with
  | none =>
    have hzero : c.maxCommitIndex matchIndex = 0 := congrArg (Option.getD · 0) hf
    refine .inl ⟨hzero, fun v hv hne => ?_⟩
    have hnot := List.find?_eq_none.mp hf v hv
    simpa [hne] using hnot
  | some idx =>
    have hidx : c.maxCommitIndex matchIndex = idx := congrArg (Option.getD · 0) hf
    have hfound := List.find?_some hf
    obtain ⟨hne, hcan⟩ := Bool.and_eq_true_iff.mp hfound
    rw [hidx]
    refine .inr ⟨hcan, Nat.pos_of_ne_zero (of_decide_eq_true hne), fun v hv hv0 hvcan => ?_⟩
    refine find?_descending (List.pairwise_insertionSort _ _) hf v hv ?_
    rw [hvcan, decide_eq_true hv0]
    rfl

/-- With an index, some match value that is not below it is on the required majorities. -/
theorem matchValue_above {i : Nat} (h : c.Majorities fun id => i ≤ (matchIndex id).getD 0) :
    ∃ v ∈ c.matchValues matchIndex, i ≤ v ∧ c.canCommit v matchIndex = true := by
  -- the least match value that is not below `i` has the same holders
  let above := (c.allPeerIDs.map fun id => (matchIndex id).getD 0).toFinset.filter (i ≤ ·)
  have hmem : ∀ {id}, id ∈ c.allPeerIDs → i ≤ (matchIndex id).getD 0 →
      (matchIndex id).getD 0 ∈ above := by
    intro id hid hle
    exact Finset.mem_filter.mpr ⟨List.mem_toFinset.mpr (List.mem_map_of_mem hid), hle⟩
  have hsome : above.Nonempty := by
    obtain ⟨id, hid⟩ := Finset.card_pos.mp (Nat.lt_of_lt_of_le (Nat.succ_pos _) h.1)
    obtain ⟨hin, hle⟩ := Finset.mem_filter.mp hid
    exact ⟨_, hmem (mem_allPeerIDs.mpr (.inl hin)) hle⟩
  obtain ⟨hleast, hge⟩ := Finset.mem_filter.mp (Finset.min'_mem above hsome)
  refine ⟨above.min' hsome, ?_, hge, canCommit_iff.mpr (h.mono fun id hid hle => ?_)⟩
  · exact mem_matchValues.mpr (List.mem_map.mp (List.mem_toFinset.mp hleast))
  · exact Finset.min'_le _ _ (hmem hid hle)

/-- **`MaxCommitIndex` is exact**: if some positive index is on a majority of `Voters` and, in a joint
    configuration, of `Joint`, it returns the greatest such index, and otherwise 0. So it never falls
    when match values rise. -/
theorem maxCommitIndex_exact (c : ConfState) (matchIndex : Nat → Option Nat) :
    ((∃ i, 0 < i ∧ c.Majorities fun id => i ≤ (matchIndex id).getD 0) →
      IsGreatest {i | c.Majorities fun id => i ≤ (matchIndex id).getD 0}
        (c.maxCommitIndex matchIndex)) ∧
    ((¬∃ i, 0 < i ∧ c.Majorities fun id => i ≤ (matchIndex id).getD 0) →
      c.maxCommitIndex matchIndex = 0) ∧
    ∀ matchIndex' : Nat → Option Nat,
      (∀ id, (matchIndex id).getD 0 ≤ (matchIndex' id).getD 0) →
      c.maxCommitIndex matchIndex ≤ c.maxCommitIndex matchIndex' := by
  have hupper : ∀ {m : Nat → Option Nat} {i}, 0 < i →
      (c.Majorities fun id => i ≤ (m id).getD 0) → i ≤ c.maxCommitIndex m ∧
        0 < c.maxCommitIndex m ∧ c.Majorities fun id => c.maxCommitIndex m ≤ (m id).getD 0 := by
    intro m i hi hmaj
    obtain ⟨v, hv, hle, hcan⟩ := matchValue_above hmaj
    have hne : v ≠ 0 := Nat.ne_of_gt (Nat.lt_of_lt_of_le hi hle)
    rcases maxCommitIndex_cases c m with ⟨-, hnone⟩ | ⟨hmax, hpos, hall⟩
    · cases (hnone v hv hne).symm.trans hcan
    · exact ⟨Nat.le_trans hle (hall v hv hne hcan), hpos, canCommit_iff.mp hmax⟩
  have hlower : ∀ {m : Nat → Option Nat}, 0 < c.maxCommitIndex m →
      c.Majorities fun id => c.maxCommitIndex m ≤ (m id).getD 0 := by
    intro m hpos
    rcases maxCommitIndex_cases c m with ⟨hzero, -⟩ | ⟨hmax, -, -⟩
    · exact absurd hzero (Nat.ne_of_gt hpos)
    · exact canCommit_iff.mp hmax
  refine ⟨fun hsome => ?_, fun hnone => ?_, fun m' hle => ?_⟩
  · obtain ⟨i, hi, hmaj⟩ := hsome
    refine ⟨(hupper hi hmaj).2.2, fun j hj => ?_⟩
    rcases Nat.eq_zero_or_pos j with rfl | hpos
    · exact Nat.zero_le _
    · exact (hupper hpos hj).1
  · by_contra hne
    exact hnone ⟨_, Nat.pos_of_ne_zero hne, hlower (Nat.pos_of_ne_zero hne)⟩
  · rcases Nat.eq_zero_or_pos (c.maxCommitIndex matchIndex) with hzero | hpos
    · rw [hzero]
      exact Nat.zero_le _
    · exact (hupper hpos ((hlower hpos).mono fun id _ h => Nat.le_trans h (hle id))).1

end ConfState

end Raft
end DistKV
