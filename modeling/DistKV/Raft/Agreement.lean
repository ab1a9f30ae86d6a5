import DistKV.Raft.ApplyStream
import DistKV.Raft.Election
import DistKV.Raft.Safety

/-!
# What the nodes agree on

Everything up to a node's `commitIndex` is a settled prefix of the ghost, and settled prefixes
agree; a leader has every prefix that was settled in an earlier term, even one that was settled
after its election. Both hold at any two moments of a run. The voters either stay as they were at
the start, or the configurations have to overlap.
-/

namespace DistKV
namespace Raft

open TermLog (Settled lastTerm)
open Run (IsRun)

/-! ## What a node has of a settled prefix -/

section Node

variable {q : Prop} {a : Ghost} {i : Nat} {n : Node} {s : DiskStorage}

/-- An entry of the storage in the whole log. -/
theorem Rel.entryAt_eq (h : Rel q a i s.view) {index : Nat} {e : Entry}
    (he : s.entryAt index = some e) : s.snapIndex < index ∧ (a.log i)[index - 1]? = some e := by
  have hlt : s.snapIndex < index := by
    by_contra hle
    have hbelow : index < s.firstIndex := Nat.lt_add_one_of_le (Nat.le_of_not_lt hle)
    rw [DiskStorage.entryAt, if_pos hbelow] at he
    cases he
  refine ⟨hlt, ?_⟩
  rw [entryAt_above hlt] at he
  have hentry := h.entry (index - s.snapIndex - 1)
  have hsum : s.snapIndex + (index - s.snapIndex - 1) = index - 1 := by omega
  rw [hsum] at hentry
  exact hentry.trans he

/-- The prefix a node believes committed, read off its storage. -/
structure Prefix (a : Ghost) (n : Node) (P : List Entry) : Prop where
  settled : Settled a n.store.term P
  length : P.length = n.commitIndex
  entry : ∀ index e, index ≤ n.commitIndex → n.store.entryAt index = some e →
    P[index - 1]? = some e
  term : ∀ index t, index ≤ n.commitIndex → n.store.termAt index = some t →
    lastTerm Entry.term (P.take index) = t
  held : ∀ index, n.store.snapIndex < index → index ≤ n.commitIndex →
    ∃ e, n.store.entryAt index = some e

theorem NodeRel.committed (hi : GhostInv a) (h : NodeRel q a i n) (hs : Stored n.store) :
    ∃ P, Prefix a n P := by
  obtain ⟨hsnap, P, hP, hlen, hlog⟩ := h.commit
  have hentry : ∀ index e, index ≤ n.commitIndex → n.store.entryAt index = some e →
      P[index - 1]? = some e := by
    intro index e hle he
    obtain ⟨hlt, hwhole⟩ := h.rel.entryAt_eq he
    have hview := h.rel.entry (index - 1 - n.store.snapIndex)
    rw [Nat.add_sub_cancel' (Nat.le_sub_one_of_lt hlt)] at hview
    have hbound : index - 1 - n.store.snapIndex < (P.drop n.store.snapIndex).length := by
      rw [List.length_drop]
      omega
    have hdrop := TermLog.getElem?_restrict hlog hbound (hview.symm.trans hwhole)
    rwa [List.getElem?_drop, Nat.add_sub_cancel' (Nat.le_sub_one_of_lt hlt)] at hdrop
  refine ⟨P, hP, hlen, hentry, fun index t hle ht => ?_, fun index hlt hle => ?_⟩
  swap
  · have hlong := hlog.length_le
    rw [List.length_drop] at hlong
    change P.length - n.store.snapIndex ≤ n.store.log.length at hlong
    rw [entryAt_above hlt]
    exact ⟨_, List.getElem?_eq_getElem (by omega)⟩
  rcases Nat.lt_trichotomy index n.store.snapIndex with hbelow | rfl | habove
  · rw [termAt_below hbelow] at ht
    cases ht
  · -- the snapshot stands for the same prefix
    rw [termAt_snapIndex, Option.some.injEq] at ht
    obtain ⟨S, hS, hSlen, hlast, -⟩ := h.rel.snap
    have hSn : S.length = n.store.snapIndex := hSlen
    have hSP : S <+: P := by
      rcases hi.settled_agree hS hP with hp | hp
      · exact hp
      · rw [hp.eq_of_length_le (by omega)]
    rw [← hSn, ← TermLog.take_eq_of_isPrefix hSP (Nat.le_refl _), List.take_length, hlast]
    exact ht
  · rw [termAt_above hs.chain habove, ← entryAt_above habove, Option.map_eq_some_iff] at ht
    obtain ⟨e, he, rfl⟩ := ht
    obtain ⟨k, rfl⟩ : ∃ k, index = k + 1 := ⟨index - 1, by omega⟩
    exact TermLog.lastTerm_take (hentry _ e hle he)

theorem Prefix.take_eq {a a' : Ghost} {m : Node} {P P' : List Entry} (hi : GhostInv a')
    (h : Prefix a n P) (h' : Prefix a' m P') (he : TermLog.Ext a a') {index : Nat}
    (hle : index ≤ n.commitIndex) (hle' : index ≤ m.commitIndex) :
    P.take index = P'.take index := by
  rw [← h.length] at hle
  rw [← h'.length] at hle'
  rcases hi.settled_agree (h.settled.mono he (Nat.le_refl _)) h'.settled with hp | hp
  · exact TermLog.take_eq_of_isPrefix hp hle
  · exact (TermLog.take_eq_of_isPrefix hp hle').symm

end Node

/-! ## Two moments of a run -/

/-- What two nodes hold at an index both take for committed. -/
structure Agree (n m : Node) (index : Nat) : Prop where
  entry : ∀ e e', n.store.entryAt index = some e → m.store.entryAt index = some e' → e = e'
  snapshot : ∀ t, n.store.snapIndex = index → m.store.termAt index = some t → n.store.snapTerm = t

section Run

variable {cfg : Config} {σ : Nat → Cluster} {α : Nat → Option Action} {Q : Finset Nat → Prop}
  {γ : Nat → Ghost}

/-- Two nodes agree on what both take for committed, at whatever moments. -/
theorem Refined.agree (href : ∀ k, Refined False Q (σ k) (γ k))
    (hext : ∀ j k, j ≤ k → TermLog.Ext (γ j) (γ k)) (hstored : ∀ k i, Stored ((σ k).node i).store)
    (j k a b index : Nat) (ha : index ≤ ((σ j).node a).commitIndex)
    (hb : index ≤ ((σ k).node b).commitIndex) : Agree ((σ j).node a) ((σ k).node b) index := by
  obtain ⟨P, hP⟩ := ((href j).all.node a).committed (href j).inv (hstored j a)
  obtain ⟨P', hP'⟩ := ((href k).all.node b).committed (href k).inv (hstored k b)
  have htake : P.take index = P'.take index := by
    rcases Nat.le_total j k with hjk | hkj
    · exact hP.take_eq (href k).inv hP' (hext j k hjk) ha hb
    · exact (hP'.take_eq (href j).inv hP (hext k j hkj) hb ha).symm
  refine ⟨fun e e' he he' => ?_, fun t hsnap ht => ?_⟩
  · have hpos := (((href j).all.node a).rel.entryAt_eq he).1
    have hlt : index - 1 < index := by omega
    have heq : (P.take index)[index - 1]? = (P'.take index)[index - 1]? := by rw [htake]
    rw [List.getElem?_take_of_lt hlt, List.getElem?_take_of_lt hlt, hP.entry index e ha he,
      hP'.entry index e' hb he'] at heq
    exact Option.some.inj heq
  · have hown : ((σ j).node a).store.termAt index = some ((σ j).node a).store.snapTerm := by
      rw [← hsnap]
      exact termAt_snapIndex
    rw [← hP.term index _ ha hown, htake]
    exact hP'.term index t hb ht

theorem committed_agree (hrun : IsRun (Cluster.step cfg) (Cluster.init cfg) σ α)
    (hfree : ∀ k act, α k = some act → act.FaultFree) (hover : Overlapping σ) (j k a b index : Nat)
    (ha : index ≤ ((σ j).node a).commitIndex) (hb : index ≤ ((σ k).node b).commitIndex) :
    Agree ((σ j).node a) ((σ k).node b) index := by
  obtain ⟨γ, href, hext⟩ := refined_run (q := False) hrun hfree hover False.elim
  exact Refined.agree href hext (stored_run hrun hfree) j k a b index ha hb

/-! ## The committed log -/

/-- Over a whole run there is one committed log: whatever the ghost ever takes for settled is the
    front of it. -/
theorem committed_log (href : ∀ k, Refined False Q (σ k) (γ k))
    (hext : ∀ j k, j ≤ k → TermLog.Ext (γ j) (γ k)) : ∃ L : Nat → Entry,
      ∀ k term P (m : Nat) e, Settled (γ k) term P → P[m]? = some e → L (m + 1) = e := by
  classical
  -- two settled prefixes agree, at whatever moments they are
  have hagree : ∀ j k t t' P P' (m : Nat) e e', Settled (γ j) t P → Settled (γ k) t' P' →
      P[m]? = some e → P'[m]? = some e' → e = e' := by
    intro j k t t' P P' m e e' hP hP' he he'
    have hi := (href (max j k)).inv
    have hj := hP.mono (hext j (max j k) (Nat.le_max_left _ _)) (Nat.le_refl _)
    have hk := hP'.mono (hext k (max j k) (Nat.le_max_right _ _)) (Nat.le_refl _)
    rcases hi.settled_agree hj hk with hp | hp
    · exact Option.some.inj ((TermLog.getElem?_mono hp he).symm.trans he')
    · exact Option.some.inj (he.symm.trans (TermLog.getElem?_mono hp he'))
  let L : Nat → Entry := fun index =>
    if h : ∃ e k t P, Settled (γ k) t P ∧ P[index - 1]? = some e then h.choose else default
  refine ⟨L, fun k t P m e hP he => ?_⟩
  have hex : ∃ e k t P, Settled (γ k) t P ∧ P[m + 1 - 1]? = some e := ⟨e, k, t, P, hP, he⟩
  have hchoice : L (m + 1) = hex.choose := dif_pos hex
  obtain ⟨j, t', P', hP', he'⟩ := hex.choose_spec
  rw [hchoice]
  exact hagree j k t' t P' P m _ e hP' hP he' he

theorem committed_history (hrun : IsRun (Cluster.step cfg) (Cluster.init cfg) σ α)
    (hfree : ∀ k act, α k = some act → act.FaultFree) (hover : Overlapping σ) :
    ∃ (γ : Nat → Ghost) (L : Nat → Entry), (∀ k, Refined False (RunQuorum σ) (σ k) (γ k)) ∧
      ∀ k term P (m : Nat) e, Settled (γ k) term P → P[m]? = some e → L (m + 1) = e := by
  obtain ⟨γ, href, hext⟩ := refined_run (q := False) hrun hfree hover False.elim
  obtain ⟨L, hL⟩ := committed_log href hext
  exact ⟨γ, L, href, hL⟩

/-- `L` is the log the node takes for committed. -/
structure Holds (L : Nat → Entry) (n : Node) : Prop where
  entry : ∀ index e, index ≤ n.commitIndex → n.store.entryAt index = some e → e = L index
  held : ∀ index, n.store.snapIndex < index → index ≤ n.commitIndex →
    ∃ e, n.store.entryAt index = some e
  applied : n.lastApplied ≤ n.commitIndex
  chain : Chain n.store.snapIndex n.store.log

theorem commitIndex_le_lastIndex {L : Nat → Entry} {n : Node} (h : Holds L n) :
    n.commitIndex ≤ n.store.lastIndex := by
  rw [lastIndex_of_chain h.chain]
  rcases Nat.lt_or_ge n.store.snapIndex n.commitIndex with hlt | hge
  · obtain ⟨e, he⟩ := h.held n.commitIndex hlt (Nat.le_refl _)
    rw [entryAt_above hlt] at he
    have hbound := (List.getElem?_eq_some_iff.mp he).1
    omega
  · exact Nat.le_trans hge (Nat.le_add_right _ _)

/-- What a node takes for committed is on that log. -/
theorem Refined.holds {c : Cluster} {a : Ghost} {L : Nat → Entry} (h : Refined False Q c a)
    (hs : ∀ i, Stored (c.node i).store)
    (hL : ∀ term P (m : Nat) e, Settled a term P → P[m]? = some e → L (m + 1) = e) (i : Nat) :
    Holds L (c.node i) := by
  obtain ⟨P, hP⟩ := (h.all.node i).committed h.inv (hs i)
  refine ⟨fun index e hle he => ?_, hP.held, (h.all.node i).applied, (hs i).chain⟩
  have hpos := ((h.all.node i).rel.entryAt_eq he).1
  have hentry := hL _ P (index - 1) e hP.settled (hP.entry index e hle he)
  rw [Nat.sub_add_cancel (Nat.lt_of_le_of_lt (Nat.zero_le _) hpos)] at hentry
  exact hentry.symm

/-! ## Leader completeness -/

/-- A section in which a leader's `commitIndex` rises applies nothing. -/
theorem exec_advance {n m : Node} {op : NodeOp} {eff : Effect} (hex : n.exec op = some (m, eff))
    (hl : m.role = .leader) (hlt : n.commitIndex < m.commitIndex) :
    m.lastApplied = n.lastApplied ∧ m.locked = false := by
  have hlock := Node.exec_unlocked hex
  by_cases hc : op = .collect
  · subst hc
    have hsame := (Node.collectLoop_frame (Node.exec_collect hex).1).2.2.1
    omega
  by_cases hi : ∃ req, op = .handle (.installSnapshot req)
  · obtain ⟨req, rfl⟩ := hi
    simp only [Node.exec, hlock, Bool.false_eq_true, if_false] at hex
    obtain ⟨rfl, -⟩ := Prod.mk.inj (Option.some.inj hex)
    rcases Node.handleInstallSnapshot_role (n := n) req with hf | ⟨-, hsame⟩
    · cases hf.symm.trans hl
    · exact ⟨congrArg Node.lastApplied hsame, (congrArg Node.locked hsame).trans hlock⟩
  · have hframe := Node.exec_frame hex hc fun req hreq => hi ⟨req, hreq⟩
    exact ⟨hframe.applied, hframe.locked.trans hlock⟩

/-- In one step the leader `a` of `term` raises its `commitIndex` over `index`. -/
structure AdvancesCommit (c c' : Cluster) (a term index : Nat) : Prop where
  leader : (c'.node a).role = .leader
  current : (c'.node a).store.term = term
  below : (c.node a).commitIndex < index
  covers : index ≤ (c'.node a).commitIndex

/-- The leader has not compacted what it commits. -/
theorem AdvancesCommit.above {c c' : Cluster} {act : Action} {a term index : Nat}
    (h : AdvancesCommit c c' a term index) (hs : c.step cfg act = some c')
    (happlied : (c.node a).lastApplied ≤ (c.node a).commitIndex)
    (happ : AppliedNode a (c'.node a)) : (c'.node a).store.snapIndex < index := by
  have hlt := Nat.lt_of_lt_of_le h.below h.covers
  have hl := h.leader
  have hnode := step_node hs a
  generalize c'.node a = m at hnode hl hlt happ ⊢
  cases hnode with
  | same => exact absurd hlt (Nat.lt_irrefl _)
  | ran e faults op eff runs resolves exec =>
    obtain ⟨hsame, hlock⟩ := exec_advance exec hl hlt
    have hle := happ hlock
    have hsame' : m.lastApplied = (c.node a).lastApplied := hsame
    have hbelow := h.below
    omega
  | restarted during faults point keep files store crashes found opens => cases hl

/-- A leader has every prefix that is settled in an earlier term, whenever that happens. -/
theorem leader_prefix (href : ∀ k, Refined False Q (σ k) (γ k))
    (hext : ∀ j k, j ≤ k → TermLog.Ext (γ j) (γ k)) {j k b term : Nat} {P : List Entry}
    (hP : Settled (γ j) term P) (hl : ((σ k).node b).role = .leader)
    (later : term < ((σ k).node b).store.term) : P <+: (γ k).log b := by
  have hb := ((href k).all.node b).leader hl
  obtain ⟨M, hM, hpre⟩ := hb.base
  -- compare at the later of the two moments
  have hj := hext j (max j k) (Nat.le_max_left _ _)
  have hk := hext k (max j k) (Nat.le_max_right _ _)
  have hi := (href (max j k)).inv
  obtain ⟨L, hL, -⟩ := hk.ldr hb.own
  exact (hi.settled_cand (hP.mono hj (Nat.le_refl _)) later hL (hk.cand hM)).trans hpre

theorem leader_complete (hrun : IsRun (Cluster.step cfg) (Cluster.init cfg) σ α)
    (hfree : ∀ k act, α k = some act → act.FaultFree) (href : ∀ k, Refined False Q (σ k) (γ k))
    (hext : ∀ j k, j ≤ k → TermLog.Ext (γ j) (γ k))
    (j a term index : Nat) (hadv : AdvancesCommit (σ j) (σ (j + 1)) a term index) :
    ∃ e, ((σ (j + 1)).node a).store.entryAt index = some e ∧
      ∀ k b, ((σ k).node b).role = .leader → term < ((σ k).node b).store.term →
        index ≤ ((σ k).node b).store.snapIndex ∨ ((σ k).node b).store.entryAt index = some e := by
  have habove : ((σ (j + 1)).node a).store.snapIndex < index := by
    have happ := ((appliedRule cfg).run hrun (fun _ _ _ _ _ _ _ _ _ => trivial) (j + 1)).node a
    cases ha : α j with
    | none =>
      have hlt := Nat.lt_of_lt_of_le hadv.below hadv.covers
      rw [hrun.idle j ha] at hlt
      exact absurd hlt (Nat.lt_irrefl _)
    | some act => exact hadv.above (hrun.next j act ha) ((href j).all.node a).applied happ
  obtain ⟨P, hP⟩ := ((href (j + 1)).all.node a).committed (href (j + 1)).inv
    (stored_run hrun hfree (j + 1) a)
  obtain ⟨e, he⟩ := hP.held index habove hadv.covers
  refine ⟨e, he, fun k b hl later => ?_⟩
  rcases Nat.lt_or_ge ((σ k).node b).store.snapIndex index with hlt | hge
  swap
  · exact .inl hge
  have hsettled := hP.settled
  rw [hadv.current] at hsettled
  have hpre := leader_prefix href hext hsettled hl later
  have hlog := TermLog.getElem?_mono hpre (hP.entry index e hadv.covers he)
  refine .inr ?_
  have hentry := ((href k).all.node b).rel.entry (index - ((σ k).node b).store.snapIndex - 1)
  have hsum : ((σ k).node b).store.snapIndex + (index - ((σ k).node b).store.snapIndex - 1) =
      index - 1 := by omega
  rw [hsum, hlog] at hentry
  rw [entryAt_above hlt]
  exact hentry.symm

end Run

/-! ## A fixed set of voters -/

section Fixed

variable {cfg : Config} {σ : Nat → Cluster} {α : Nat → Option Action}

theorem overlapping_fixed (hrun : IsRun (Cluster.step cfg) (Cluster.init cfg) σ α)
    (fixed : ∀ k act, α k = some act → ¬act.Reconfigures (σ k)) : Overlapping σ := by
  have hconf : ∀ k i, ((σ k).node i).conf = .newConfState cfg.peers :=
    fun k i => ((fixed_run hrun fixed k).node i).2.1
  refine ⟨fun j k a b V W hV hW => ?_, fun k i _ _ => (hconf (k + 1) i).trans (hconf k i).symm⟩
  obtain ⟨-, hV⟩ := hV
  obtain ⟨-, hW⟩ := hW
  rw [hconf] at hV hW
  exact newConfState_meet hV hW

/-- **State machine safety.** In every run without configuration changes and storage failures, two
    nodes that take `index` for committed, at whatever moments, hold the same entry there, and the
    term of a snapshot at `index` is the term of that entry. -/
theorem state_machine_safety (cfg : Config) (σ : Nat → Cluster) (α : Nat → Option Action)
    (hrun : IsRun (Cluster.step cfg) (Cluster.init cfg) σ α)
    (fixed : ∀ k act, α k = some act → ¬act.Reconfigures (σ k))
    (free : ∀ k act, α k = some act → act.FaultFree) (j k a b index : Nat)
    (ha : index ≤ ((σ j).node a).commitIndex) (hb : index ≤ ((σ k).node b).commitIndex) :
    (∀ e e', ((σ j).node a).store.entryAt index = some e →
      ((σ k).node b).store.entryAt index = some e' → e = e') ∧
    ∀ t, ((σ j).node a).store.snapIndex = index → ((σ k).node b).store.termAt index = some t →
      ((σ j).node a).store.snapTerm = t := by
  have hagree := committed_agree hrun free (overlapping_fixed hrun fixed) j k a b index ha hb
  exact ⟨hagree.entry, hagree.snapshot⟩

/-- After `firstTerm` a heartbeat tells node 2 what is committed; then node 2 is elected in term 2
    with the vote of node 3. -/
def secondTerm : List Action :=
  firstTerm ++ [sec (.tick 1 false fun _ => true), sec (.deliver 4),
    sec (.tick 2 true fun _ => true), sec (.deliver 6), sec (.reply 6 0)]

theorem secondTerm_run : IsRun (Cluster.step threeNodes) (Cluster.init threeNodes)
    (stateAt secondTerm) (fun k => secondTerm[k]?) :=
  isRun_stateAt (by decide +kernel)

theorem secondTerm_fixed (k : Nat) (act : Action) (h : secondTerm[k]? = some act) :
    ¬act.Reconfigures (stateAt secondTerm k) ∧ act.FaultFree :=
  Action.calm_of_mem (by decide) h _

/-- Nodes 1 and 2 have committed the no-op of term 1. -/
theorem state_machine_safety_noop :
    ((stateAt secondTerm 8).node 1).store.entryAt 1 = some { term := 1, index := 1 } ∧
    ∀ e, ((stateAt secondTerm 8).node 2).store.entryAt 1 = some e →
      ({ term := 1, index := 1 } : Entry) = e := by
  refine ⟨by decide +kernel, fun e he => ?_⟩
  exact (state_machine_safety threeNodes _ _ secondTerm_run
    (fun k act hact => (secondTerm_fixed k act hact).1)
    (fun k act hact => (secondTerm_fixed k act hact).2) 8 8 1 2 1 (by decide +kernel)
    (by decide +kernel)).1 _ e (by decide +kernel) he

/-- **Leader completeness.** If the leader of some term raises its `commitIndex` over `index`, then
    every leader of a later term, at whatever moment, holds the entry the first one has there, or
    has a snapshot that covers it. -/
theorem leader_completeness (cfg : Config) (σ : Nat → Cluster) (α : Nat → Option Action)
    (hrun : IsRun (Cluster.step cfg) (Cluster.init cfg) σ α)
    (fixed : ∀ k act, α k = some act → ¬act.Reconfigures (σ k))
    (free : ∀ k act, α k = some act → act.FaultFree) (j a term index : Nat)
    (hadv : AdvancesCommit (σ j) (σ (j + 1)) a term index) :
    ∃ e, ((σ (j + 1)).node a).store.entryAt index = some e ∧
      ∀ k b, ((σ k).node b).role = .leader → term < ((σ k).node b).store.term →
        index ≤ ((σ k).node b).store.snapIndex ∨ ((σ k).node b).store.entryAt index = some e := by
  obtain ⟨γ, href, hext⟩ :=
    refined_run (q := False) hrun free (overlapping_fixed hrun fixed) False.elim
  exact leader_complete hrun free href hext j a term index hadv

/-- The leader of term 2 has what the leader of term 1 committed. -/
theorem leader_completeness_noop :
    ((stateAt secondTerm 11).node 2).role = .leader ∧
    ∃ e, ((stateAt secondTerm 5).node 1).store.entryAt 1 = some e ∧
      (1 ≤ ((stateAt secondTerm 11).node 2).store.snapIndex ∨
        ((stateAt secondTerm 11).node 2).store.entryAt 1 = some e) := by
  have hlead : ((stateAt secondTerm 11).node 2).role = .leader := by decide +kernel
  obtain ⟨e, he, hlater⟩ := leader_completeness threeNodes _ _
    secondTerm_run
    (fun k act hact => (secondTerm_fixed k act hact).1)
    (fun k act hact => (secondTerm_fixed k act hact).2) 4 1 1 1
    ⟨by decide +kernel, by decide +kernel, by decide +kernel, by decide +kernel⟩
  exact ⟨hlead, e, he, hlater 11 2 hlead (by decide +kernel)⟩

/-- A leader writes above everything that is committed, if the entry is ever committed itself. -/
theorem written_above_committed (hrun : IsRun (Cluster.step cfg) (Cluster.init cfg) σ α)
    (fixed : ∀ k act, α k = some act → ¬act.Reconfigures (σ k))
    (free : ∀ k act, α k = some act → act.FaultFree) {k i : Nat} {e : Entry}
    (hl : ((σ k).node i).role = .leader) (hterm : e.term = ((σ k).node i).store.term)
    (hindex : e.index = ((σ k).node i).store.lastIndex + 1) {t a : Nat}
    (hcommit : e.index ≤ ((σ t).node a).commitIndex)
    (hat : ((σ t).node a).store.entryAt e.index = some e) {j b : Nat} (hjk : j ≤ k) :
    ((σ j).node b).commitIndex < e.index := by
  obtain ⟨γ, href, hext⟩ :=
    refined_run (q := False) hrun free (overlapping_fixed hrun fixed) False.elim
  have hfront : ∀ k a, ∃ P, Prefix (γ k) ((σ k).node a) P := fun k a =>
    ((href k).all.node a).committed (href k).inv (stored_run hrun free k a)
  by_contra hreached
  replace hreached := Nat.le_of_not_lt hreached
  obtain ⟨P, hP⟩ := hfront j b
  obtain ⟨P', hP'⟩ := hfront t a
  have hpos : 0 < e.index := by omega
  have hcut : P.take e.index = P'.take e.index := by
    rcases Nat.le_total j t with hjt | htj
    · exact hP.take_eq (href t).inv hP' (hext j t hjt) hreached hcommit
    · exact (hP'.take_eq (href j).inv hP (hext t j htj) hcommit hreached).symm
  have hlt : e.index - 1 < e.index := Nat.sub_lt hpos Nat.one_pos
  have hget : P[e.index - 1]? = some e := by
    have hsame : (P.take e.index)[e.index - 1]? = (P'.take e.index)[e.index - 1]? := by rw [hcut]
    rw [List.getElem?_take_of_lt hlt, List.getElem?_take_of_lt hlt,
      hP'.entry e.index e hcommit hat] at hsame
    exact hsame
  -- so the entry is already on what the leader of its term has written
  rcases hP.settled with hnil | ⟨U, c, L, -, hldr, hpre, -⟩
  · rw [hnil] at hget
    cases hget
  obtain ⟨c', M, hM, hroot⟩ := (href j).inv.rootedLdr U c L hldr (e.index - 1) e
    (TermLog.getElem?_mono hpre hget)
  obtain ⟨M', hM', hgrown⟩ := (hext j k hjk).ldr hM
  rw [hterm, (((href k).all.node i).leader hl).own, Option.some.injEq, Prod.mk.injEq] at hM'
  obtain ⟨-, rfl⟩ := hM'
  have hlong : e.index ≤ ((γ k).log i).length := by
    have hreach := (List.getElem?_eq_some_iff.mp (TermLog.getElem?_mono hgrown
      (TermLog.getElem?_mono hroot
        (show (L.take (e.index - 1 + 1))[e.index - 1]? = some e by
          rw [Nat.sub_add_cancel hpos, List.getElem?_take_of_lt hlt]
          exact TermLog.getElem?_mono hpre hget)))).1
    omega
  rw [((href k).all.node i).rel.length] at hlong
  rw [(stored_run hrun free k i).lastIndex] at hindex
  have hview : ((σ k).node i).store.view.snapIndex + ((σ k).node i).store.view.log.length =
      ((σ k).node i).store.snapIndex + ((σ k).node i).store.log.length := rfl
  omega

end Fixed

end Raft
end DistKV
