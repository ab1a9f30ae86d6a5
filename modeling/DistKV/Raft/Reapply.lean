import DistKV.Raft.ConfFold

/-!
# Changes that are applied twice

A snapshot, the one on disk and the one that is sent, carries the configuration the node has now and
the index it was compacted to, which is smaller. A node that starts from such a pair applies the
changes in between a second time, to a configuration that has them already. Whether that leads back
depends on the changes and on the joint half (`ConfState.Replays`):

* in a joint configuration every `ADD` and `REMOVE` is rejected, so all is well unless there is a
  `LEAVE_JOINT` among the changes;
* otherwise an `ADD` of a voter makes the voters their own joint half and a `LEAVE_JOINT` undoes that,
  while a `REMOVE` of somebody who is gone is rejected.

On the way back the node never counts other quorums than those it ends with (`Resumes`).
-/

namespace DistKV
namespace Raft

open ConfState

/-! ## Configurations with the same quorums -/

/-- The same voters and the same members. -/
structure ConfState.Alike (c F : ConfState) : Prop where
  formed : c.Formed
  voters : c.voters = F.voters
  members : c.members = F.members

section Alike

variable {c d F : ConfState}

theorem ConfState.Formed.alike (h : c.Formed) : c.Alike c := ⟨h, rfl, rfl⟩

theorem ConfState.Alike.trans (h : c.Alike d) (h' : d.Alike F) : c.Alike F :=
  ⟨h.formed, h.voters.trans h'.voters, h.members.trans h'.members⟩

theorem ConfState.Alike.counts (h : c.Alike F) (hF : F.Formed) {V : Finset Nat} (hV : c.Counts V) :
    F.Counts V := by
  obtain ⟨hin, hcard⟩ := h.formed.counts hV
  rw [h.members] at hin hcard
  exact ⟨hin, hF.hasVoteQuorum_iff.mpr hcard⟩

end Alike

/-! ## The way back -/

/-- Applied to `c`, the entries lead to `F`, and to nothing on the way that counts differently. -/
def Resumes (F : ConfState) : ConfState → List Entry → Prop
  | c, [] => c = F
  | c, e :: es => c.Alike F ∧ Resumes F (c.absorb e) es

section Resumes

variable {c d F : ConfState} {es es' : List Entry}

theorem Resumes.alike (h : Resumes F c es) (hF : F.Formed) : c.Alike F := by
  cases es with
  | nil =>
    rw [show c = F from h]
    exact hF.alike
  | cons e es => exact h.1

theorem Resumes.trans (h : Resumes d c es) (h' : Resumes F d es') (hF : F.Formed) :
    Resumes F c (es ++ es') := by
  induction es generalizing c with
  | nil =>
    rw [show c = d from h]
    exact h'
  | cons e es ih => exact ⟨h.1.trans (h'.alike hF), ih h.2⟩

theorem Resumes.skip (h : Resumes F c (es ++ es')) : Resumes F (c.after es) es' := by
  induction es generalizing c with
  | nil => exact h
  | cons e es ih => exact ih h.2

theorem Resumes.done (h : Resumes F c es) : c.after es = F := by
  have hall : Resumes F c (es ++ []) := by
    rw [List.append_nil]
    exact h
  exact hall.skip

end Resumes

/-! ## When it leads back -/

/-- The changes that are not rejected for good: they make the configuration joint or end that. -/
def ConfChange.turns (cc : ConfChange) : Bool :=
  decide (cc.type = .addNode ∨ cc.type = .leaveJoint)

/-- Changes that lead a node with the configuration `c` back to `c`. -/
def ConfState.Replays (c : ConfState) (changes : List ConfChange) : Prop :=
  (c.joint ≠ ∅ ∧ ∀ cc ∈ changes, cc.type ≠ .leaveJoint) ∨
    ((c.joint = ∅ ∨ c.joint = c.voters) ∧
      (∀ cc ∈ changes, cc.type = .addNode → cc.nodeId ∈ c.voters) ∧
      (∀ cc ∈ changes, cc.type = .removeNode → cc.nodeId ∉ c.voters) ∧
      ∀ cc ∈ (changes.filter ConfChange.turns).getLast?, cc.type = .leaveJoint ↔ c.joint = ∅)

instance (c : ConfState) (changes : List ConfChange) : Decidable (c.Replays changes) :=
  inferInstanceAs (Decidable (_ ∨ _))

section Replays

variable {c : ConfState} {V J F : Finset Nat} {e : Entry} {es : List Entry}

/-- Only a `LEAVE_JOINT` leads out of a joint configuration. -/
theorem ConfState.absorb_joint (h : c.inJoint = true)
    (he : ∀ cc, e.change? = some cc → cc.type ≠ .leaveJoint) : c.absorb e = c := by
  rw [absorb]
  cases hc : e.change? with
  | none => rfl
  | some cc =>
    have hne := he cc hc
    cases ht : cc.type with
    | leaveJoint => exact absurd ht hne
    | addNode => simp only [applyConfChange, ht, h, if_true]
    | removeNode => simp only [applyConfChange, ht, h, if_true]
    | _ => simp only [applyConfChange, ht]

theorem resumes_joint (hc : c.Formed) (hj : c.inJoint = true)
    (h : ∀ cc ∈ es.filterMap Entry.change?, cc.type ≠ .leaveJoint) : Resumes c c es := by
  induction es with
  | nil => rfl
  | cons e es ih =>
    have hsame : c.absorb e = c := absorb_joint hj fun cc hcc => by
      exact h cc (List.mem_filterMap.mpr ⟨e, List.mem_cons_self, hcc⟩)
    refine ⟨hc.alike, ?_⟩
    rw [hsame]
    refine ih fun cc hcc => h cc ?_
    obtain ⟨x, hx, hxcc⟩ := List.mem_filterMap.mp hcc
    exact List.mem_filterMap.mpr ⟨x, List.mem_cons_of_mem _ hx, hxcc⟩

/-- The voters alone, or next to themselves. -/
theorem formed_turn (hV : V.Nonempty) (hJ : J = ∅ ∨ J = V) : (⟨V, J⟩ : ConfState).Formed := by
  refine ⟨hV, ?_⟩
  rcases hJ with rfl | rfl
  · exact .inl rfl
  · exact .inr (.inl (Step.refl _))

theorem alike_turn (hV : V.Nonempty) (hJ : J = ∅ ∨ J = V) (hF : F = ∅ ∨ F = V) :
    (⟨V, J⟩ : ConfState).Alike ⟨V, F⟩ := by
  have hmembers : ∀ S, S = ∅ ∨ S = V → (⟨V, S⟩ : ConfState).members = V := by
    intro S hS
    rw [members_eq]
    rcases hS with rfl | rfl
    · exact Finset.union_empty V
    · exact Finset.union_self _
  exact ⟨formed_turn hV hJ, rfl, (hmembers J hJ).trans (hmembers F hF).symm⟩

/-- A second time, an addition only makes the configuration joint and a removal does nothing. -/
theorem absorb_turn {cc : ConfChange} (hV : V.Nonempty) (hJ : J = ∅ ∨ J = V)
    (he : e.change? = some cc) (hadd : cc.type = .addNode → cc.nodeId ∈ V)
    (hremove : cc.type = .removeNode → cc.nodeId ∉ V) :
    (⟨V, J⟩ : ConfState).absorb e =
      ⟨V, if cc.type = .leaveJoint then ∅ else if cc.type = .addNode then V else J⟩ := by
  have hjoint : (⟨V, V⟩ : ConfState).inJoint = true := inJoint_iff.mpr hV
  have hplain : (⟨V, ∅⟩ : ConfState).inJoint = false := rfl
  rw [absorb_change he]
  cases ht : cc.type with
  | addNode =>
    rcases hJ with rfl | rfl
    · simp [applyConfChange, ht, hplain, Except.toOption, hadd ht]
    · simp [applyConfChange, ht, hjoint, Except.toOption]
  | removeNode =>
    rcases hJ with rfl | rfl
    · simp [applyConfChange, ht, hplain, Except.toOption, contains, hremove ht]
    · simp [applyConfChange, ht, hjoint, Except.toOption]
  | leaveJoint =>
    rcases hJ with rfl | rfl
    · simp [applyConfChange, ht, hplain, Except.toOption]
    · simp [applyConfChange, ht, hjoint, Except.toOption]
  | other code => simp [applyConfChange, ht, Except.toOption]

/-- The last change that turns the configuration decides where it ends. -/
theorem resumes_turn (hV : V.Nonempty) (hJ : J = ∅ ∨ J = V) (hF : F = ∅ ∨ F = V)
    (hadd : ∀ cc ∈ es.filterMap Entry.change?, cc.type = .addNode → cc.nodeId ∈ V)
    (hremove : ∀ cc ∈ es.filterMap Entry.change?, cc.type = .removeNode → cc.nodeId ∉ V)
    (hlast : ∀ cc ∈ ((es.filterMap Entry.change?).filter ConfChange.turns).getLast?,
      cc.type = .leaveJoint ↔ F = ∅)
    (hnone : (es.filterMap Entry.change?).filter ConfChange.turns = [] → J = F) :
    Resumes ⟨V, F⟩ ⟨V, J⟩ es := by
  induction es generalizing J with
  | nil => rw [hnone rfl]; rfl
  | cons e es ih =>
    refine ⟨alike_turn hV hJ hF, ?_⟩
    cases he : e.change? with
    | none =>
      rw [List.filterMap_cons_none he] at hadd hremove hlast hnone
      rw [absorb_plain he]
      exact ih hJ hadd hremove hlast hnone
    | some cc =>
      rw [List.filterMap_cons_some he] at hadd hremove hlast hnone
      rw [absorb_turn hV hJ he (hadd cc List.mem_cons_self) (hremove cc List.mem_cons_self)]
      have hadd' := fun x hx => hadd x (List.mem_cons_of_mem cc hx)
      have hremove' := fun x hx => hremove x (List.mem_cons_of_mem cc hx)
      by_cases hturn : cc.turns = true
      · rw [List.filter_cons_of_pos hturn] at hlast hnone
        have hkind := of_decide_eq_true hturn
        refine ih ?_ hadd' hremove' (fun x hx => hlast x ?_) fun hnil => ?_
        · split
          · exact .inl rfl
          · exact .inr (if_pos (hkind.resolve_right ‹_›))
        · rw [List.getLast?_cons, Option.mem_def.mp hx]
          rfl
        · rw [hnil] at hlast
          have hthis := hlast cc rfl
          by_cases hleave : cc.type = .leaveJoint
          · rw [if_pos hleave, hthis.mp hleave]
          · rw [if_neg hleave, if_pos (hkind.resolve_right hleave)]
            exact (hF.resolve_left fun hF0 => hleave (hthis.mpr hF0)).symm
      · rw [List.filter_cons_of_neg hturn] at hlast hnone
        have hkind : ¬(cc.type = .addNode ∨ cc.type = .leaveJoint) := fun hk =>
          hturn (decide_eq_true hk)
        rw [not_or] at hkind
        rw [if_neg hkind.2, if_neg hkind.1]
        exact ih hJ hadd' hremove' hlast hnone

/-- **Applying the changes again leads back.** -/
theorem ConfState.Replays.resumes (h : c.Replays (es.filterMap Entry.change?)) (hc : c.Formed) :
    Resumes c c es := by
  rcases h with ⟨hj, hleave⟩ | ⟨hjoint, hadd, hremove, hlast⟩
  · exact resumes_joint hc (inJoint_iff.mpr (Finset.nonempty_iff_ne_empty.mpr hj)) hleave
  · obtain ⟨V, J⟩ := c
    exact resumes_turn hc.voters hjoint hjoint hadd hremove hlast fun _ => rfl

end Replays

end Raft
end DistKV
