import DistKV.Raft.Agreement

/-!
# What lasts

Three things no later event can undo, in a cluster whose voters stay as they were and whose disks do
not fail.

* A leader does not change what it has written: between two moments of one leadership its log only
  grows (`leader_append_only`).
* What some node has taken for committed is on the disks of a majority from then on, always the same
  majority: all processes may crash at once, at any moment, and lose what they have not synced
  (`committed_lasts`).
* A leader whose term a majority has left cannot commit anything of its own any more, except what one
  of that majority already has (`deposed_leader_fenced`). A deposed leader may not know that it is one,
  and may go on taking proposals.
-/

namespace DistKV
namespace Raft

open Run (IsRun)

/-! ## The whole log and the storage -/

section Node

variable {q : Prop} {Q : Finset Nat → Prop} {a : Ghost} {i : Nat} {s : DiskStorage}

/-- What the whole log has at an index is in the storage, or behind its snapshot. -/
theorem Rel.holds (h : Rel q a i s.view) {index : Nat} {e : Entry} (hpos : 0 < index)
    (he : (a.log i)[index - 1]? = some e) : index ≤ s.snapIndex ∨ s.entryAt index = some e := by
  rcases Nat.lt_or_ge s.snapIndex index with hlt | hge
  swap
  · exact .inl hge
  have hentry := h.entry (index - s.snapIndex - 1)
  have hsum : s.snapIndex + (index - s.snapIndex - 1) = index - 1 := by omega
  rw [hsum, he] at hentry
  refine .inr ?_
  rw [entryAt_above hlt]
  exact hentry.symm

/-- A prefix of the whole log is held by the storage. -/
theorem Rel.holds_front (h : Rel q a i s.view) {P : List Entry} (hP : P <+: a.log i) {index : Nat}
    (hpos : 0 < index) (hle : index ≤ P.length) :
    ∃ e, P[index - 1]? = some e ∧ (index ≤ s.snapIndex ∨ s.entryAt index = some e) := by
  have hlt : index - 1 < P.length := by omega
  have he : P[index - 1]? = some (P.get ⟨index - 1, hlt⟩) := List.getElem?_eq_getElem hlt
  exact ⟨_, he, h.holds hpos (TermLog.getElem?_mono hP he)⟩

end Node

section Run

variable {cfg : Config} {σ : Nat → Cluster} {α : Nat → Option Action}

/-! ## Leaders append -/

/-- **Leader append-only.** Between two moments at which a node leads the same term it has dropped
    nothing but what a snapshot covers, and overwritten nothing. -/
theorem leader_append_only (cfg : Config) (σ : Nat → Cluster) (α : Nat → Option Action)
    (hrun : IsRun (Cluster.step cfg) (Cluster.init cfg) σ α)
    (fixed : ∀ k act, α k = some act → ¬act.Reconfigures (σ k))
    (free : ∀ k act, α k = some act → act.FaultFree) (j k i : Nat) (hjk : j ≤ k)
    (hj : ((σ j).node i).role = .leader) (hk : ((σ k).node i).role = .leader)
    (hterm : ((σ j).node i).store.term = ((σ k).node i).store.term) :
    ((σ j).node i).store.lastIndex ≤ ((σ k).node i).store.lastIndex ∧
    ∀ index e, ((σ j).node i).store.entryAt index = some e →
      index ≤ ((σ k).node i).store.snapIndex ∨ ((σ k).node i).store.entryAt index = some e := by
  obtain ⟨γ, href, hext⟩ :=
    refined_run (q := False) hrun free (overlapping_fixed hrun fixed) False.elim
  have hrel : ∀ t, Rel False (γ t) i ((σ t).node i).store.view := fun t =>
    ((href t).all.node i).rel
  have hlast : ∀ t, ((σ t).node i).store.lastIndex = ((γ t).log i).length := fun t => by
    rw [((clean_run hrun free t).node i).2.store.1.stored.lastIndex]
    exact (hrel t).length.symm
  -- both logs are what the ghost has written down for the leader of the term
  obtain ⟨L, hL, hpre⟩ := (hext j k hjk).ldr (((href j).all.node i).leader hj).own
  rw [hterm, (((href k).all.node i).leader hk).own, Option.some.injEq, Prod.mk.injEq] at hL
  obtain ⟨-, rfl⟩ := hL
  refine ⟨by rw [hlast, hlast]; exact hpre.length_le, fun index e he => ?_⟩
  obtain ⟨hlow, hget⟩ := (hrel j).entryAt_eq he
  exact (hrel k).holds (Nat.zero_lt_of_lt hlow) (TermLog.getElem?_mono hpre hget)

/-- Node 1 takes a command as the leader of term 1. -/
def firstCommand : List Action := firstTerm ++ [sec (.propose 1 [7])]

theorem leader_append_only_command :
    ((stateAt firstCommand 7).node 1).store.lastIndex = 2 ∧
    (1 ≤ ((stateAt firstCommand 7).node 1).store.snapIndex ∨
      ((stateAt firstCommand 7).node 1).store.entryAt 1 = some { term := 1, index := 1 }) := by
  have hcalm : ∀ (k : Nat) (act : Action), firstCommand[k]? = some act →
      ¬act.Reconfigures (stateAt firstCommand k) ∧ act.FaultFree :=
    fun k act h => Action.calm_of_mem (by decide) h _
  refine ⟨by decide +kernel, ?_⟩
  exact (leader_append_only threeNodes _ _ (isRun_stateAt (by decide +kernel))
    (fun k act h => (hcalm k act h).1) (fun k act h => (hcalm k act h).2) 3 7 1 (by decide)
    (by decide +kernel) (by decide +kernel) (by decide +kernel)).2 1 _ (by decide +kernel)

/-! ## Majorities -/

/-- The quorums of a run with fixed voters are the majorities. -/
theorem runQuorum_majority (hrun : IsRun (Cluster.step cfg) (Cluster.init cfg) σ α)
    (fixed : ∀ k act, α k = some act → ¬act.Reconfigures (σ k)) {V : Finset Nat}
    (h : RunQuorum σ V) :
    V ⊆ cfg.peers.toFinset ∧ majority cfg.peers.toFinset.card ≤ V.card := by
  obtain ⟨k, i, -, hcounts⟩ := h
  rw [((fixed_run hrun fixed k).node i).2.1] at hcounts
  refine ⟨fun p hp => ?_, newConfState_hasVoteQuorum.mp hcounts.2⟩
  have hmem := List.mem_toFinset.mp (hcounts.1 hp)
  rwa [newConfState_allPeerIDs, mem_sortedKeys] at hmem

/-- And every majority is one, if there is any. -/
theorem RunQuorum.of_majority (hrun : IsRun (Cluster.step cfg) (Cluster.init cfg) σ α)
    (fixed : ∀ k act, α k = some act → ¬act.Reconfigures (σ k)) {V W : Finset Nat}
    (h : RunQuorum σ W) (hV : V ⊆ cfg.peers.toFinset)
    (hmost : majority cfg.peers.toFinset.card ≤ V.card) : RunQuorum σ V := by
  obtain ⟨k, i, hrole, -⟩ := h
  refine ⟨k, i, hrole, ?_⟩
  rw [((fixed_run hrun fixed k).node i).2.1]
  refine ⟨fun p hp => ?_, newConfState_hasVoteQuorum.mpr hmost⟩
  rw [List.mem_toFinset, newConfState_allPeerIDs, mem_sortedKeys]
  exact hV hp

/-! ## Committed entries -/

/-- What the process would find on its disk, however it goes down, covers `index` as `n` has it. -/
def Outlives (peers : List Nat) (n : Node) (index : Nat) (m : Node) : Prop :=
  ∀ keep, ∃ store, DiskStorage.openDiskStorage (m.store.disk.files.crash keep) peers = some store ∧
    (index ≤ store.snapIndex ∨ ∃ e, store.entryAt index = some e ∧
      ∀ e', n.store.entryAt index = some e' → e = e')

/-- **Committed entries outlast every crash.** If a node takes `index` for committed, there is a majority
    of the voters of which each one, at every later moment, has the entry on its disk or a snapshot that
    covers it. -/
theorem committed_lasts (cfg : Config) (σ : Nat → Cluster) (α : Nat → Option Action)
    (hrun : IsRun (Cluster.step cfg) (Cluster.init cfg) σ α)
    (fixed : ∀ k act, α k = some act → ¬act.Reconfigures (σ k))
    (free : ∀ k act, α k = some act → act.FaultFree) (j i index : Nat) (hpos : 0 < index)
    (hcommit : index ≤ ((σ j).node i).commitIndex) :
    ∃ V ⊆ cfg.peers.toFinset, majority cfg.peers.toFinset.card ≤ V.card ∧
      ∀ k, j ≤ k → ∀ v ∈ V, Outlives cfg.peers ((σ j).node i) index ((σ k).node v) := by
  obtain ⟨γ, href, hext⟩ :=
    refined_run (q := False) hrun free (overlapping_fixed hrun fixed) False.elim
  have hclean := clean_run hrun free
  obtain ⟨P, hP⟩ := ((href j).all.node i).committed (href j).inv
    ((hclean j).node i).2.store.1.stored
  have hlen : index ≤ P.length := by rw [hP.length]; exact hcommit
  have hne : P ≠ [] := by
    rintro rfl
    exact absurd hlen (Nat.not_le_of_lt hpos)
  obtain ⟨V, hV, hkept⟩ := (href j).quorate.kept (href j).inv hP.settled hne
  obtain ⟨hsub, hmost⟩ := runQuorum_majority hrun fixed hV
  refine ⟨V, hsub, hmost, fun k hjk v hv keep => ?_⟩
  obtain ⟨-, hcn⟩ := (hclean k).node v
  -- a crash is a move of the ghost, and it cannot take what was acknowledged
  have hbegin := NodeRel.begin (G := .any) (href k).inv ((href k).all.node v) hcn
  obtain ⟨store, ho⟩ := open_isSome (f := ((σ k).node v).store.disk.files.crash keep)
    hcn.store.1.files.recoverable.readable cfg.peers
  have hcrash : ((σ k).node v).store.disk.files.AfterCrash fun view =>
      ∃ b, GhostSteps .any v (γ k) b ∧ Rel False b v view := hbegin.tracks.files
  obtain ⟨b, hsteps, hrel⟩ := hcrash.recover ho
  obtain ⟨hi, he, -⟩ := (href k).inv.steps hsteps
  have hfront := hkept b hi ((hext j k hjk).trans he) v hv
  obtain ⟨e, hPe, hheld⟩ := hrel.holds_front hfront hpos hlen
  refine ⟨store, ho, hheld.imp id fun hat => ⟨e, hat, fun e' he' => ?_⟩⟩
  exact Option.some.inj (hPe.symm.trans (hP.entry index e' hcommit he'))

/-- The no-op of term 1, committed by node 1, when node 2 has been elected after it. -/
theorem committed_lasts_noop :
    ((stateAt secondTerm 5).node 1).store.entryAt 1 = some { term := 1, index := 1 } ∧
    ∃ V ⊆ ({1, 2, 3} : Finset Nat), 2 ≤ V.card ∧ ∀ v ∈ V,
      Outlives [1, 2, 3] ((stateAt secondTerm 5).node 1) 1 ((stateAt secondTerm 11).node v) := by
  obtain ⟨V, hsub, hmost, hlasts⟩ := committed_lasts threeNodes _ _ secondTerm_run
    (fun k act hact => (secondTerm_fixed k act hact).1)
    (fun k act hact => (secondTerm_fixed k act hact).2) 5 1 1 (by decide) (by decide +kernel)
  exact ⟨by decide +kernel, V, hsub, hmost, hlasts 11 (by decide)⟩

/-! ## Deposed leaders -/

/-- An entry of a node's own term that it takes for committed was committed in that term. -/
theorem Prefix.own_term {q : Prop} {a : Ghost} {i index : Nat} {n : Node}
    {P : List Entry} {e : Entry} (hP : Prefix a n P) (hi : GhostInv a) (hnode : NodeRel q a i n)
    (hle : index ≤ n.commitIndex) (he : n.store.entryAt index = some e) (hown : e.term = n.store.term) :
    ∃ c L, a.ldr n.store.term = some (c, L) ∧ L[index - 1]? = some e ∧
      0 < index ∧ index ≤ a.com n.store.term := by
  have hpos : 0 < index := Nat.zero_lt_of_lt (hnode.rel.entryAt_eq he).1
  have hat := hP.entry index e hle he
  rcases hP.settled with hnil | ⟨U, c, L, hU, hl, hpre, hcom⟩
  · rw [hnil] at hat
    cases hat
  have hbound := hi.boundLdr U c L hl e (List.mem_of_getElem? (TermLog.getElem?_mono hpre hat))
  obtain rfl : U = n.store.term := by omega
  rw [hP.length] at hcom
  exact ⟨c, L, hl, TermLog.getElem?_mono hpre hat, hpos, Nat.le_trans hle hcom⟩

/-- **A deposed leader is fenced.** Once a majority of the voters has gone beyond `term`, a node that is
    still in `term`, its leader above all, takes an entry of `term` for committed only if one of that
    majority had the entry when it left, or a snapshot that covers it. -/
theorem deposed_leader_fenced (cfg : Config) (σ : Nat → Cluster) (α : Nat → Option Action)
    (hrun : IsRun (Cluster.step cfg) (Cluster.init cfg) σ α)
    (fixed : ∀ k act, α k = some act → ¬act.Reconfigures (σ k))
    (free : ∀ k act, α k = some act → act.FaultFree) (j k i term index : Nat) (V : Finset Nat)
    (e : Entry) (hjk : j ≤ k) (hsub : V ⊆ cfg.peers.toFinset)
    (hmost : majority cfg.peers.toFinset.card ≤ V.card)
    (hleft : ∀ v ∈ V, term < ((σ j).node v).store.term)
    (hterm : ((σ k).node i).store.term = term) (hle : index ≤ ((σ k).node i).commitIndex)
    (he : ((σ k).node i).store.entryAt index = some e) (hown : e.term = term) :
    ∃ v ∈ V, index ≤ ((σ j).node v).store.snapIndex ∨
      ((σ j).node v).store.entryAt index = some e := by
  obtain ⟨γ, href, hext⟩ :=
    refined_run (q := False) hrun free (overlapping_fixed hrun fixed) False.elim
  have hnode := (href k).all.node i
  have hi := (href k).inv
  obtain ⟨P, hP⟩ := hnode.committed hi ((clean_run hrun free k).node i).2.store.1.stored
  subst hterm
  obtain ⟨c, L, hl, hget, hpos, hcom⟩ := hP.own_term hi hnode hle he hown
  have hcompos : 0 < (γ k).com ((σ k).node i).store.term := Nat.lt_of_lt_of_le hpos hcom
  -- somebody has counted, so every majority counts
  obtain ⟨W, hW, -⟩ := (href k).quorate.committed _ hcompos
  have hV := hW.of_majority hrun fixed hsub hmost
  have hbeyond : ∀ v ∈ V, ((σ k).node i).store.term < (γ j).term v := fun v hv => by
    rw [((href j).all.node v).rel.term]
    exact hleft v hv
  obtain ⟨v, hv, hfront⟩ :=
    (href k).quorate.fenced (overlapping_fixed hrun fixed).quorums (href j).inv hi (hext j k hjk) hV
      hbeyond hl hcompos
  refine ⟨v, hv, ((href j).all.node v).rel.holds hpos (TermLog.getElem?_mono hfront ?_)⟩
  rw [List.getElem?_take_of_lt (by omega)]
  exact hget

/-- Node 2 acknowledges the no-op of term 1 and leaves for term 2 with node 3, whose vote it gets; the
    acknowledgement reaches node 1 afterwards. -/
def ackAfterLeaving : List Action :=
  [sec (.tick 1 true fun _ => true), sec (.deliver 0), sec (.reply 0 0), sec (.deliver 2),
    sec (.tick 2 true fun _ => true), sec (.deliver 5), sec (.reply 2 0)]

theorem deposed_leader_fenced_late :
    ((stateAt ackAfterLeaving 7).node 1).role = .leader ∧
    ((stateAt ackAfterLeaving 6).node 1).commitIndex = 0 ∧
    ((stateAt ackAfterLeaving 7).node 1).commitIndex = 1 ∧
    ∃ v ∈ ({2, 3} : Finset Nat), 1 ≤ ((stateAt ackAfterLeaving 6).node v).store.snapIndex ∨
      ((stateAt ackAfterLeaving 6).node v).store.entryAt 1 = some { term := 1, index := 1 } := by
  have hcalm : ∀ (k : Nat) (act : Action), ackAfterLeaving[k]? = some act →
      ¬act.Reconfigures (stateAt ackAfterLeaving k) ∧ act.FaultFree :=
    fun k act h => Action.calm_of_mem (by decide) h _
  refine ⟨by decide +kernel, by decide +kernel, by decide +kernel, ?_⟩
  exact deposed_leader_fenced threeNodes _ _ (isRun_stateAt (by decide +kernel))
    (fun k act h => (hcalm k act h).1) (fun k act h => (hcalm k act h).2) 6 7 1 1 1 {2, 3} _
    (by decide) (by decide) (by decide) (by decide +kernel) (by decide +kernel) (by decide +kernel)
    (by decide +kernel) rfl

end Run

end Raft
end DistKV
