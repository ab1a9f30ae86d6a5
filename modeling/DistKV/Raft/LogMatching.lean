import DistKV.Raft.Agreement

/-!
# Log matching

Between two logs that only AppendEntries and elections have made, equal terms at an index mean equal
logs up to there. `saveSnapshot` keeps every entry above the snapshot's index without looking at
the term the node had at that index, so a log may be the front of one history and the end of
another. Where no such graft happens (`Action.Grafts`), the property includes the snapshot boundary.
-/

namespace DistKV
namespace Raft

open TermLog (Settled lastTerm)
open Run (IsRun)

/-- Terms do not fall along a log, from `snapTerm` on, and two logs with the same term at an index
    are the same up to there, as far as both go back. -/
structure LogMatching (c : Cluster) : Prop where
  sorted : ∀ a j k t t', j ≤ k → (c.node a).store.termAt j = some t →
    (c.node a).store.termAt k = some t' → t ≤ t'
  matching : ∀ a b index e e', (c.node a).store.entryAt index = some e →
    (c.node b).store.entryAt index = some e' → e.term = e'.term → ∀ j ≤ index,
    (∀ t t', (c.node a).store.termAt j = some t → (c.node b).store.termAt j = some t' → t = t') ∧
    ∀ x y, (c.node a).store.entryAt j = some x → (c.node b).store.entryAt j = some y → x = y

/-- A snapshot that would be installed under entries of another history: the node's log goes beyond
    it, and the term the node has at its index is not the snapshot's. -/
def Request.Grafts (n : Node) : Request → Prop
  | .installSnapshot req => n.store.term ≤ req.term ∧ n.store.snapIndex < req.lastIncludedIndex ∧
      req.lastIncludedIndex < n.store.lastIndex ∧
      n.store.termAt req.lastIncludedIndex ≠ some req.lastIncludedTerm
  | _ => False

instance (n : Node) : DecidablePred (Request.Grafts n)
  | .installSnapshot _ => inferInstanceAs (Decidable (_ ∧ _ ∧ _ ∧ _))
  | .requestVote _ => isFalse id
  | .appendEntries _ => isFalse id
  | .readIndex _ => isFalse id

def Event.delivers : Event → Option Nat
  | .deliver k => some k
  | _ => none

/-- The action, or the section a crash interrupts, installs such a snapshot. -/
def Action.Grafts (c : Cluster) (act : Action) : Prop :=
  ∃ p ∈ act.section?, ∃ k ∈ p.1.delivers, ∃ call ∈ c.calls[k]?, call.req.Grafts (c.node call.dest)

instance (c : Cluster) : DecidablePred (Action.Grafts c) := fun act =>
  inferInstanceAs (Decidable (∃ p ∈ act.section?, _))

theorem Action.within_fitting {c : Cluster} {act : Action} (h : ¬act.Grafts c) :
    act.Within fitting c := by
  rintro e faults i op hsec hres req rfl hterm habove hlong
  obtain ⟨k, call, rfl, hk, rfl, hreq⟩ := resolve_handle hres
  by_contra hne
  refine h ⟨_, hsec, k, rfl, call, hk, ?_⟩
  rw [hreq]
  exact ⟨hterm, habove, hlong, hne⟩

section Node

variable {a : Ghost} {i : Nat} {s : DiskStorage}

/-- Where the snapshot fits the log, every term the node knows is that of the whole log. -/
theorem Rel.termAt_take (h : Rel True a i s.view) (hs : Stored s) {index t : Nat}
    (ht : s.termAt index = some t) :
    lastTerm Entry.term ((a.log i).take index) = t ∧ index ≤ (a.log i).length := by
  have hlen : (a.log i).length = s.snapIndex + s.log.length := h.length
  rcases Nat.lt_trichotomy index s.snapIndex with hbelow | rfl | habove
  · rw [termAt_below hbelow] at ht
    cases ht
  · rw [termAt_snapIndex, Option.some.injEq] at ht
    obtain ⟨P, -, hPlen, hlast, hpre⟩ := h.snap
    have hsnap : s.snapIndex = P.length := hPlen.symm
    refine ⟨?_, by omega⟩
    rw [hsnap, ← TermLog.take_eq_of_isPrefix (hpre trivial) (Nat.le_refl _), List.take_length, hlast]
    exact ht
  · obtain ⟨k, rfl⟩ : ∃ k, index = k + 1 := ⟨index - 1, by omega⟩
    rw [h.termAt_eq hs (Nat.le_of_lt_succ habove), Option.map_eq_some_iff] at ht
    obtain ⟨e, he, rfl⟩ := ht
    exact ⟨TermLog.lastTerm_take he, (List.getElem?_eq_some_iff.mp he).1⟩

/-- The last terms of the prefixes of a sorted log do not fall. -/
theorem lastTerm_mono {L : List Entry} (h : TermLog.Sorted Entry.term L) {j k : Nat} (hjk : j ≤ k)
    (hk : k ≤ L.length) :
    lastTerm Entry.term (L.take j) ≤ lastTerm Entry.term (L.take k) := by
  cases j with
  | zero =>
    rw [List.take_zero]
    exact Nat.zero_le _
  | succ j =>
    obtain ⟨k, rfl⟩ : ∃ m, k = m + 1 := ⟨k - 1, by omega⟩
    have hj : L[j]? = some (L.get ⟨j, by omega⟩) := List.getElem?_eq_getElem (by omega)
    have hk' : L[k]? = some (L.get ⟨k, hk⟩) := List.getElem?_eq_getElem hk
    rw [TermLog.lastTerm_take hj, TermLog.lastTerm_take hk']
    exact h j k _ _ (by omega) hj hk'

end Node

theorem Refined.logMatching {Q : Finset Nat → Prop} {c : Cluster} {a : Ghost}
    (h : Refined True Q c a) (hs : ∀ i, Stored (c.node i).store) : LogMatching c where
  sorted i j k t t' hjk ht ht' := by
    have hrel := (h.all.node i).rel
    obtain ⟨hj, -⟩ := hrel.termAt_take (hs i) ht
    obtain ⟨hk, hbound⟩ := hrel.termAt_take (hs i) ht'
    rw [← hj, ← hk]
    exact lastTerm_mono (h.inv.sortedLog i) hjk hbound
  matching x y index e e' he he' hterm j hj := by
    have hx := (h.all.node x).rel
    have hy := (h.all.node y).rel
    obtain ⟨hlt, hex⟩ := hx.entryAt_eq he
    obtain ⟨-, hey⟩ := hy.entryAt_eq he'
    have htake := (h.inv.rootedLog x).matching (h.inv.rootedLog y) hex hey hterm
    rw [Nat.sub_add_cancel (by omega)] at htake
    have hfront : (a.log x).take j = (a.log y).take j := by
      rw [← Nat.min_eq_left hj, ← List.take_take, htake, List.take_take]
    refine ⟨fun t t' ht ht' => ?_, fun u v hu hv => ?_⟩
    · rw [← (hx.termAt_take (hs x) ht).1, ← (hy.termAt_take (hs y) ht').1, hfront]
    · obtain ⟨hpos, hu⟩ := hx.entryAt_eq hu
      obtain ⟨-, hv⟩ := hy.entryAt_eq hv
      have hlt' : j - 1 < j := by omega
      have heq : ((a.log x).take j)[j - 1]? = ((a.log y).take j)[j - 1]? := by rw [hfront]
      rw [List.getElem?_take_of_lt hlt', List.getElem?_take_of_lt hlt', hu, hv] at heq
      exact Option.some.inj heq

/-- **Log matching**, in every run without configuration changes and storage failures in which no
    snapshot is grafted on a log. -/
theorem log_matching (cfg : Config) (σ : Nat → Cluster) (α : Nat → Option Action)
    (hrun : IsRun (Cluster.step cfg) (Cluster.init cfg) σ α)
    (fixed : ∀ k act, α k = some act → ¬act.Reconfigures (σ k))
    (free : ∀ k act, α k = some act → act.FaultFree)
    (ungrafted : ∀ k act, α k = some act → ¬act.Grafts (σ k)) (k : Nat) : LogMatching (σ k) := by
  obtain ⟨γ, href, -⟩ := refined_run (q := True) hrun free (overlapping_fixed hrun fixed)
    fun _ k act hact => Action.within_fitting (ungrafted k act hact)
  exact (href k).logMatching fun i => ((clean_run hrun free k).node i).2.store.1.stored

/-- After `firstTerm` node 1 compacts its log and sends the snapshot to node 3, which has nothing. -/
def firstSnapshot : List Action :=
  firstTerm ++ [sec (.collect 1), sec (.snapshot 1 1 [9]), .abort 3, sec (.finish 3),
    sec (.tick 1 false fun _ => true), sec (.deliver 5)]

theorem log_matching_firstSnapshot :
    ((stateAt firstSnapshot 12).node 3).store.snapTerm = 1 ∧ LogMatching (stateAt firstSnapshot 12) := by
  have hcalm := fun k act (hact : firstSnapshot[k]? = some act) =>
    Action.calm_of_mem (by decide) hact (stateAt firstSnapshot k)
  refine ⟨by decide +kernel, log_matching threeNodes _ (fun k => firstSnapshot[k]?)
    (isRun_stateAt (by decide +kernel))
    (fun k act hact => (hcalm k act hact).1) (fun k act hact => (hcalm k act hact).2)
    (fun k act hact => ?_) 12⟩
  have hfits : ∀ k < 12, ∀ act ∈ firstSnapshot[k]?, ¬act.Grafts (stateAt firstSnapshot k) := by
    decide +kernel
  exact hfits k (List.getElem?_eq_some_iff.mp hact).1 act hact

/-- Node 3 leads term 1 and appends two entries nobody else gets; node 1 leads term 2, commits its
    no-op with node 2, compacts it away and sends the snapshot to node 3. -/
def graftedSnapshot : List Action :=
  [sec (.tick 3 true fun _ => true), sec (.deliver 0), sec (.reply 0 0), sec (.propose 3 [7]),
    sec (.tick 1 true fun _ => true), sec (.deliver 4), sec (.reply 4 0), sec (.deliver 6),
    sec (.reply 6 0), sec (.collect 1), sec (.snapshot 1 1 [9]), .abort 7, sec (.finish 7),
    sec (.tick 1 false fun _ => true), sec (.deliver 8)]

/-- Node 3 then has term 2 at index 1 and term 1 at index 2. -/
theorem install_grafts :
    IsRun (Cluster.step threeNodes) (Cluster.init threeNodes) (stateAt graftedSnapshot)
      (fun k => graftedSnapshot[k]?) ∧
    (∀ act ∈ graftedSnapshot, (∀ p ∈ act.section?, p.1.proposesConfChange = false) ∧
      act.FaultFree) ∧
    ((stateAt graftedSnapshot 15).node 3).store.termAt 1 = some 2 ∧
    ((stateAt graftedSnapshot 15).node 3).store.termAt 2 = some 1 ∧
    ¬LogMatching (stateAt graftedSnapshot 15) := by
  have hone : ((stateAt graftedSnapshot 15).node 3).store.termAt 1 = some 2 := by decide +kernel
  have htwo : ((stateAt graftedSnapshot 15).node 3).store.termAt 2 = some 1 := by decide +kernel
  refine ⟨isRun_stateAt (by decide +kernel), by decide, hone, htwo, fun h => ?_⟩
  exact absurd (h.sorted 3 1 2 2 1 (by decide) hone htwo) (by decide)

end Raft
end DistKV
