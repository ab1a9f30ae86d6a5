import DistKV.Raft.Agreement

/-!
# The ends of the log

A node's log is a slice with a base: `log[k]` has index `snapIndex + 1 + k`. Seven operations move one
of its ends or one of the marks on it (`lastApplied`, `commitIndex`), and the accessors of
`storage.go` subtract `firstIndex` from whatever index they are given. That nothing is read outside
the slice needs the protocol at one point only: an entry that is committed is never truncated, so
`commitIndex` stays at or below the last index.
-/

namespace DistKV
namespace Raft

open Run (IsRun)

/-- The applier reads nothing outside the slice as long as everything committed is there. -/
theorem Node.collectLoop_isSome {n : Node} (fuel : Nat)
    (h : ∀ index, n.store.snapIndex < index → index ≤ n.commitIndex →
      ∃ e, n.store.entryAt index = some e) : (Node.collectLoop fuel n).isSome := by
  induction fuel generalizing n with
  | zero => rfl
  | succ fuel ih =>
    rw [Node.collectLoop]
    split
    swap
    · rfl
    next hlt =>
    simp only
    split
    · exact ih h
    next hfirst =>
    obtain ⟨e, he⟩ := h (n.lastApplied + 1) (Nat.lt_of_succ_le (Nat.le_of_not_lt hfirst)) hlt
    simp only [he, Option.isSome_map]
    -- applying an entry moves neither the log nor `commitIndex`
    obtain ⟨hlog, hsnap⟩ := applyEntry_log (n := n) e
    have hcommit := (Node.applyEntry_frame (n := n) e).2.1
    refine ih fun index hlow hhigh => ?_
    have hlow' : (n.applyEntry e).1.store.snapIndex < index := hlow
    have hhigh' : index ≤ (n.applyEntry e).1.commitIndex := hhigh
    rw [hsnap] at hlow'
    rw [hcommit] at hhigh'
    obtain ⟨x, hx⟩ := h index hlow' hhigh'
    refine ⟨x, ?_⟩
    show (n.applyEntry e).1.store.entryAt index = some x
    rw [entryAt_above (by rw [hsnap]; exact hlow'), hsnap, hlog, ← entryAt_above hlow']
    exact hx

/-- An index between the ends is a position of the slice. -/
theorem position_lt {s : DiskStorage} (h : Chain s.snapIndex s.log) {index : Nat}
    (hfirst : s.firstIndex ≤ index) (hlast : index ≤ s.lastIndex) :
    index - s.firstIndex < s.log.length := by
  rw [lastIndex_of_chain h] at hlast
  rw [DiskStorage.firstIndex] at hfirst ⊢
  omega

/-- A leader's match values are indices of its own log. -/
theorem NodeRel.match_le {q : Prop} {a : Ghost} {i : Nat} {n : Node} (h : NodeRel q a i n)
    (hs : Stored n.store) (hrole : n.role = .leader) {p m : Nat} (hm : n.matchIndex p = some m) :
    m ≤ n.store.lastIndex := by
  have hleader := h.leader hrole
  have hlength : (a.log i).length = n.store.lastIndex := h.rel.length.trans hs.lastIndex.symm
  by_cases hp : p = i
  · subst hp
    rw [← hlength]
    exact hleader.self m hm
  · -- what a peer has acknowledged is on the log of the term's leader, which is this node
    obtain ⟨c, L, hL, hle, -⟩ := hleader.peers p m hp hm
    rw [hleader.own] at hL
    obtain ⟨-, rfl⟩ := Prod.mk.inj (Option.some.inj hL)
    rw [← hlength]
    exact hle

/-- **Nothing outside the slice.** In every run without configuration changes and storage failures, on
    every node at every moment: the indices of the log are consecutive from `snapIndex + 1` on,
    `snapIndex ≤ lastApplied ≤ commitIndex ≤ lastIndex`, the applier reads inside the slice, an index
    that `termAt` and `entriesFrom` let through is a position of it, and a leader's match values do
    not exceed its last index. -/
theorem index_bounds (cfg : Config) (σ : Nat → Cluster) (α : Nat → Option Action)
    (hrun : IsRun (Cluster.step cfg) (Cluster.init cfg) σ α)
    (fixed : ∀ k act, α k = some act → ¬act.Reconfigures (σ k))
    (free : ∀ k act, α k = some act → act.FaultFree) (k i : Nat) (n : Node)
    (hn : (σ k).node i = n) :
    (∀ (j : Nat) (e : Entry), n.store.log[j]? = some e → e.index = n.store.snapIndex + 1 + j) ∧
    n.store.snapIndex ≤ n.lastApplied ∧ n.lastApplied ≤ n.commitIndex ∧
    n.commitIndex ≤ n.store.lastIndex ∧
    (∀ index, n.lastApplied < index → index ≤ n.commitIndex →
      n.store.firstIndex ≤ index ∧ index - n.store.firstIndex < n.store.log.length) ∧
    n.collect.isSome = true ∧
    (∀ index, n.store.firstIndex ≤ index → index ≤ n.store.lastIndex →
      index - n.store.firstIndex < n.store.log.length) ∧
    (n.role = .leader → ∀ p m, n.matchIndex p = some m → m ≤ n.store.lastIndex) := by
  subst hn
  obtain ⟨γ, L, href, hL⟩ := committed_history hrun free (overlapping_fixed hrun fixed)
  have hstored := stored_run hrun free k i
  have hheld : Holds L ((σ k).node i) := (href k).holds (stored_run hrun free k) (hL k) i
  have hsnap : ((σ k).node i).store.snapIndex ≤ ((σ k).node i).lastApplied :=
    ((appliedRule cfg).run hrun (fun _ _ _ _ _ _ _ _ _ => trivial) k).node i
      (open_run hrun free k i)
  have hcommit := commitIndex_le_lastIndex hheld
  refine ⟨hheld.chain, hsnap, hheld.applied, hcommit, fun index hlow hhigh => ?_,
    Node.collectLoop_isSome _ hheld.held, fun index => position_lt hheld.chain, fun hrole p m => ?_⟩
  · have hfirst : ((σ k).node i).store.firstIndex ≤ index :=
      Nat.succ_le_of_lt (Nat.lt_of_le_of_lt hsnap hlow)
    exact ⟨hfirst, position_lt hheld.chain hfirst (Nat.le_trans hhigh hcommit)⟩
  · exact ((href k).all.node i).match_le hstored hrole

/-- The leader of term 2 has one committed entry and its own no-op. -/
theorem index_bounds_second : ((stateAt secondTerm 11).node 2).commitIndex = 1 ∧
    ((stateAt secondTerm 11).node 2).commitIndex ≤ ((stateAt secondTerm 11).node 2).store.lastIndex :=
  ⟨by decide +kernel, (index_bounds threeNodes _ _ secondTerm_run
    (fun k act hact => (secondTerm_fixed k act hact).1)
    (fun k act hact => (secondTerm_fixed k act hact).2) 11 2 _ rfl).2.2.2.1⟩

end Raft
end DistKV
