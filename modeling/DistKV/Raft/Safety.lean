import DistKV.Raft.Polls
import DistKV.Raft.Refinement

/-!
# Runs are followed by the ghost

`Refined` relates a whole cluster to the ghost: every node, every request and reply in flight, and
the votes that have been counted. Without storage failures an action keeps it (`Refined.step`), with
steps of the ghost that are those of the acting node, provided that what the node counts may be
counted (`Licensed`). That is so in every run in which any two sets of nodes that some configuration
in force takes for a quorum have a member in common (`refined_run`). What was settled at one moment
is settled at every later one, so statements about two moments of a run reduce to statements about
one ghost.
-/

namespace DistKV
namespace Raft

open TermLog (Settled)
open Run (IsRun)

/-! ## One action -/

def simulated (q : Prop) (a : Ghost) : Assertion where
  node := NodeRel q a
  call := GhostRequest a
  reply := GhostReply a

theorem simulated_keeps {q : Prop} {a a' : Ghost} {i : Nat} (he : TermLog.Ext a a')
    (ho : TermLog.Off i a a') (c : Cluster) : (simulated q a).Keeps (simulated q a') c i where
  call _ _ _ h := h.mono he
  reply _ _ _ h := h.mono he
  node _ hj h := h.other he ho hj
  waiting _ _ _ _ h := h

/-- The votes the ghost knows of. -/
def Ghost.ballots (a : Ghost) : Ballots := fun v term x => a.voted v term = some x

structure Refined (q : Prop) (Q : Finset Nat → Prop) (c : Cluster) (a : Ghost) : Prop where
  inv : GhostInv a
  quorate : TermLog.Quorate Q a
  all : All (simulated q a) c
  polls : Polls Q a.ballots c

/-- What the node counts may be counted, and what it accepts may be appended. -/
structure Licensed (G : GhostGuard) (a : Ghost) (i : Nat) (n : Node) (op : NodeOp) : Prop where
  commits : Commits G a n
  wins : n.role = .candidate → ∀ V, n.Counting V → Winning G a n.store.term V
  entry : ∀ cc, op = .proposeConfChange cc → n.AcceptsConfChange cc →
    G.entry (a.log i) (n.changeEntry cc)

/-- A snapshot that is about to be installed fits the log of the node. -/
def fitting (n : Node) (op : NodeOp) (_ : List Bool) : Prop :=
  ∀ req, op = .handle (.installSnapshot req) → n.store.term ≤ req.term →
    n.store.snapIndex < req.lastIncludedIndex →
    n.store.Fits req.lastIncludedIndex req.lastIncludedTerm

section Step

variable {cfg : Config} {q : Prop} {Q : Finset Nat → Prop} {c c' : Cluster} {a : Ghost}
  {G : Nat → GhostGuard}

theorem Refined.op (h : Refined q Q c a) (hclean : All (clean cfg) c) {e : Event} {i : Nat}
    {op : NodeOp} (hlic : Licensed (G i) a i (c.node i) op)
    (hres : c.resolve e = some (i, op)) (hfit : q → fitting (c.node i) op []) :
    OpRel q (G i) cfg.peers a i ((c.node i).withFaults []) op := by
  cases op with
  | handle req =>
    obtain ⟨source, hreq⟩ := h.all.op hres
    obtain ⟨_, hchain⟩ := hclean.op hres
    refine ⟨hchain, ⟨source, hreq⟩, fun r hr hq => hfit hq r ?_⟩
    rw [hr]
  | reply peer req resp =>
    obtain ⟨hreq, -, hreply⟩ := h.all.op hres
    refine ⟨hreq, hreply, ?_⟩
    rintro vr resp' rfl rfl candidate current granted hquorum
    have hwins := hlic.wins candidate
    have hcur : (c.node i).store.term = vr.term := current
    rw [hcur] at hwins
    exact h.polls.wins hres candidate current granted hquorum hwins fun _ _ _ hv => hv
  | proposeConfChange cc => exact hlic.entry cc rfl
  | _ => trivial

theorem Refined.section (h : Refined q Q c a) (hclean : All (clean cfg) c) {e : Event} {i : Nat}
    {op : NodeOp} (hplain : Permits (G i)) (hlic : Licensed (G i) a i (c.node i) op)
    (hres : c.resolve e = some (i, op)) (hne : i ≠ 0) (hfit : q → fitting (c.node i) op [])
    {n : Node} {eff : Effect} (hex : ((c.node i).withFaults []).exec op = some (n, eff)) :
    ∃ a', Simulates q (G i) cfg.peers a a' i n ∧
      ∀ req r, op = .handle req → eff.resp = some r → GhostReply a' i req r := by
  obtain ⟨hid, hcn⟩ := hclean.node i
  have hbegin := NodeRel.begin (G := G i) h.inv (h.all.node i) hcn
  exact hbegin.exec h.inv hcn.withFaults hid hne hplain hlic.commits (h.op hclean hlic hres hfit) hex

/-- The votes after a step are those the ghost has by then. -/
theorem Refined.votes {a' : Ghost} (h : Refined q Q c a) (hclean : All (clean cfg) c)
    (hclean' : All (clean cfg) c') (hcounts : ∀ i V, (c.node i).Counting V → Q V)
    {act : Action} (hs : c.step cfg act = some c')
    (hsteady : ∀ i, (c'.node i).role = .candidate → (c'.node i).conf = (c.node i).conf)
    (he : TermLog.Ext a a') (hall : All (simulated q a') c') : Polls Q a'.ballots c' := by
  refine h.polls.step (fun i => (hclean.node i).1) hcounts hs hsteady (fun _ _ _ hv => he.voted hv)
    (fun v t x hx hrec => ?_) fun v t x hv => ?_
  · have hhard := (hclean'.node v).2.store.1.hard
    rw [hrec, Prod.mk.injEq] at hhard
    obtain ⟨rfl, rfl⟩ := hhard
    exact (hall.node v).rel.vote hx
  · by_contra hlt
    have hterm : a.term v = (c.node v).store.term := (h.all.node v).rel.term
    have hnone := (h.inv.frozen v t (by rw [hterm]; exact Nat.lt_of_not_le hlt)).2.1
    rw [Ghost.ballots, hnone] at hv
    cases hv

/-- **An action is followed by the ghost.** -/
theorem Refined.step (h : Refined q Q c a) (hclean : All (clean cfg) c)
    (hclean' : All (clean cfg) c') (hcounts : ∀ i V, (c.node i).Counting V → Q V)
    (hplain : ∀ i, Permits (G i)) (hQ : ∀ i V, (G i).quorum V → Q V) {act : Action}
    (hlic : ∀ e faults i op, act.section? = some (e, faults) → c.resolve e = some (i, op) →
      Licensed (G i) a i (c.node i) op)
    (hfree : act.FaultFree) (hfit : q → act.Within fitting c) (hs : c.step cfg act = some c')
    (hsteady : ∀ i, (c'.node i).role = .candidate → (c'.node i).conf = (c.node i).conf) :
    ∃ i a', GhostSteps (G i) i a a' ∧ Refined q Q c' a' := by
  have hdone : ∀ {a' i}, GhostSteps (G i) i a a' → All (simulated q a') c' →
      ∃ i a', GhostSteps (G i) i a a' ∧ Refined q Q c' a' := by
    intro a' i hsteps hall
    obtain ⟨hi', he, -⟩ := h.inv.steps hsteps
    exact ⟨i, a', hsteps, hi', h.quorate.steps h.inv (hQ i) hsteps, hall,
      h.votes hclean hclean' hcounts hs hsteady he hall⟩
  cases act with
  | run e faults =>
    obtain rfl := hfree (e, faults) rfl
    obtain ⟨i, n, eff, ho, rfl⟩ := step_run hs
    obtain ⟨op, hres, hi, hex⟩ := outcome_some ho
    obtain ⟨a', hsim, hreply⟩ := h.section hclean (hplain i) (hlic e [] i op rfl hres) hres hi
      (fun hq => hfit hq e [] i op rfl hres) hex
    obtain ⟨hi', he, hoff⟩ := h.inv.steps hsim.tracks.steps
    refine hdone hsim.tracks.steps
      (h.all.section hres (simulated_keeps he hoff c) hsim.node (fun _ _ _ => trivial) ?_ hreply)
    intro s hsent
    have hid : n.id = i := (Node.exec_id hex).trans (hclean.node i).1
    have hsends := Node.exec_sends hex
    have hpeer := (hsends.peer s hsent).2
    rw [hid] at hpeer
    exact ⟨hsim.node.sent hi' hsim.tracks.clean.1.stored hid hi (hsends.sent s hsent) hpeer, trivial⟩
  | restart i during faults point keep =>
    obtain ⟨hi, files, store, hf, ho, rfl⟩ := step_restart hs
    obtain ⟨hcrash, hfiles⟩ : CrashSafe q (G i) a i files ∧ CleanFiles files := by
      obtain ⟨hid, hcn⟩ := hclean.node i
      rcases filesAt_some hf with ⟨-, rfl⟩ | ⟨e, n, eff, rfl, hout, hmem⟩
      · exact ⟨(NodeRel.begin h.inv (h.all.node i) hcn).tracks.files, hcn.store.1.files⟩
      · obtain rfl := hfree (e, faults) rfl
        obtain ⟨op, hres, hne, hex⟩ := outcome_some hout
        obtain ⟨a', hsim, -⟩ := h.section hclean (hplain i) (hlic e [] i op rfl hres) hres hne
          (fun hq => hfit hq e [] i op rfl hres) hex
        exact ⟨hsim.tracks.trail files hmem, hsim.tracks.clean.2 files hmem⟩
    obtain ⟨a', hsteps, hnode⟩ := hcrash.recover hfiles ho cfg.addrs
    obtain ⟨-, he, hoff⟩ := h.inv.steps hsteps
    exact hdone hsteps (h.all.restarted (simulated_keeps he hoff c) hnode)
  | _ =>
    have hall := h.all.silent hs rfl (by simp) fun _ _ _ _ _ _ _ _ hreq =>
      ⟨by rw [hreq]; trivial, trivial⟩
    exact hdone (i := 0) .refl hall

theorem Refined.init : Refined q Q (Cluster.init cfg) (TermLog.State.init Nat Entry) where
  inv := TermLog.Inv.init
  quorate := TermLog.Quorate.init
  all := by
    refine ⟨fun i => ?_, by simp [Cluster.init], by simp [Cluster.init],
      by simp [Cluster.init, Process.start]⟩
    have hstored : Stored { conf := ConfState.newConfState cfg.peers : DiskStorage } :=
      ((chainRule cfg).init i).2
    exact (Rel.init i).newNode hstored rfl cfg.addrs
  polls := Polls.init

/-- Quorums that meet are all that is needed. -/
theorem Refined.licensed (h : Refined q Q c a) (hmeet : TermLog.Meet Q)
    (hcounts : ∀ i V, (c.node i).Counting V → Q V) (i : Nat) (op : NodeOp) :
    Licensed ⟨Q, fun _ _ => True⟩ a i (c.node i) op where
  commits _ V hV := ⟨hcounts i V hV, h.quorate.overtaken hmeet (hcounts i V hV) _⟩
  wins _ V hV := ⟨hcounts i V hV, fun c L hl => hmeet V _ (hcounts i V hV) (h.quorate.voters _ c L hl),
    h.quorate.informed hmeet (hcounts i V hV) _⟩
  entry _ _ _ := trivial

end Step

/-! ## Whole runs -/

/-- What is asked of the configurations in a run: two sets of nodes that candidates or leaders would
    ever take for a quorum meet, and no candidate switches to another configuration. -/
structure Overlapping (σ : Nat → Cluster) : Prop where
  meet : ∀ j k a b V W, ((σ j).node a).Counting V → ((σ k).node b).Counting W →
    ∃ v, v ∈ V ∧ v ∈ W
  steady : ∀ k i, ((σ k).node i).role = .candidate → ((σ (k + 1)).node i).role = .candidate →
    ((σ (k + 1)).node i).conf = ((σ k).node i).conf

/-- The sets some candidate or leader of the run would take for a quorum. -/
def RunQuorum (σ : Nat → Cluster) (V : Finset Nat) : Prop :=
  ∃ k i, ((σ k).node i).Counting V

theorem Overlapping.quorums {σ : Nat → Cluster} (h : Overlapping σ) :
    TermLog.Meet (RunQuorum σ) := by
  rintro V W ⟨j, a, hV⟩ ⟨k, b, hW⟩
  exact h.meet j k a b V W hV hW

section Run

variable {cfg : Config} {σ : Nat → Cluster} {α : Nat → Option Action}

theorem clean_run (hrun : IsRun (Cluster.step cfg) (Cluster.init cfg) σ α)
    (hfree : ∀ k act, α k = some act → act.FaultFree) (k : Nat) : All (clean cfg) (σ k) :=
  (cleanRule cfg).run hrun (fun j act hact => (hfree j act hact).within (σ j)) k

theorem stored_run (hrun : IsRun (Cluster.step cfg) (Cluster.init cfg) σ α)
    (hfree : ∀ k act, α k = some act → act.FaultFree) (k i : Nat) :
    Stored ((σ k).node i).store :=
  ((clean_run hrun hfree k).node i).2.store.1.stored

/-- An installation without failures releases the mutex. -/
theorem CleanNode.exec_open {peers : List Nat} {n m : Node} {op : NodeOp} {eff : Effect}
    (h : CleanNode peers n) (hex : n.exec op = some (m, eff)) : m.locked = false := by
  have hlock := Node.exec_unlocked hex
  by_cases hc : op = .collect
  · subst hc
    exact (Node.collectLoop_frame (Node.exec_collect hex).1).2.1.trans hlock
  by_cases hi : ∃ req, op = .handle (.installSnapshot req)
  swap
  · exact (Node.exec_frame hex hc fun req hreq => hi ⟨req, hreq⟩).locked.trans hlock
  obtain ⟨req, rfl⟩ := hi
  simp only [Node.exec, hlock, Bool.false_eq_true, if_false] at hex
  obtain ⟨rfl, -⟩ := Prod.mk.inj (Option.some.inj hex)
  have hclean : Kept (Clean peers) CleanFiles (n.follow req.term req.leaderId).store :=
    (Node.follow_store (.finish 0) req.term req.leaderId).keep h.store
      fun hstep hs => hstep.clean (by simp) h.proper (by simp) hs
  have hfollow : (n.follow req.term req.leaderId).locked = false :=
    (Node.follow_frame _ _).locked.trans hlock
  show (n.handleInstallSnapshot req).1.locked = false
  simp only [Node.handleInstallSnapshot]
  split
  · exact hlock
  split
  · exact hfollow
  next hlt =>
  rw [DiskStorage.saveSnapshot_calm hclean.1.calm (Nat.lt_of_not_le hlt)]
  exact hfollow

theorem open_run (hrun : IsRun (Cluster.step cfg) (Cluster.init cfg) σ α)
    (hfree : ∀ k act, α k = some act → act.FaultFree) (k i : Nat) :
    ((σ k).node i).locked = false := by
  refine hrun.invariant (P := fun c => ∀ i, (c.node i).locked = false) (fun _ => rfl)
    (fun k act ha hopen => ?_) k i
  have hclean := (clean_run hrun hfree k).node
  intro i
  have hnode := step_node (hrun.next k act ha) i
  generalize (σ (k + 1)).node i = m at hnode ⊢
  cases hnode with
  | same => exact hopen i
  | ran e faults op eff runs resolves exec =>
    subst runs
    have hnone : faults = [] := hfree k _ ha (e, faults) rfl
    subst hnone
    exact (hclean i).2.withFaults.exec_open exec
  | restarted during faults point keep files store crashes found opens => rfl

/-- Nobody becomes a candidate and switches to another configuration in one section. -/
theorem exec_candidate {n m : Node} {op : NodeOp} {eff : Effect} (hex : n.exec op = some (m, eff))
    (hm : m.role = .candidate) (hn : n.role ≠ .candidate) : m.conf = n.conf := by
  by_cases hc : op = .collect
  · subst hc
    obtain ⟨-, -, hf | hsame⟩ := Node.collectLoop_role (Node.exec_collect hex).1
    · rw [hf] at hm
      cases hm
    · exact absurd (hsame.symm.trans hm) hn
  by_cases hi : ∃ req, op = .handle (.installSnapshot req)
  · obtain ⟨req, rfl⟩ := hi
    have hlock := Node.exec_unlocked hex
    simp only [Node.exec, hlock, Bool.false_eq_true, if_false] at hex
    obtain ⟨rfl, -⟩ := Prod.mk.inj (Option.some.inj hex)
    rcases Node.handleInstallSnapshot_role (n := n) req with hf | ⟨-, hsame⟩
    · cases hf.symm.trans hm
    · exact congrArg Node.conf hsame
  · exact (Node.exec_frame hex hc fun req hreq => hi ⟨req, hreq⟩).conf

theorem Overlapping.steady_step (h : Overlapping σ)
    (hrun : IsRun (Cluster.step cfg) (Cluster.init cfg) σ α) (k i : Nat)
    (hc : ((σ (k + 1)).node i).role = .candidate) :
    ((σ (k + 1)).node i).conf = ((σ k).node i).conf := by
  by_cases hold : ((σ k).node i).role = .candidate
  · exact h.steady k i hold hc
  cases ha : α k with
  | none => rw [hrun.idle k ha]
  | some act =>
    have hnode := step_node (hrun.next k act ha) i
    generalize (σ (k + 1)).node i = m at hnode hc ⊢
    cases hnode with
    | same => rfl
    | ran e faults op eff runs resolves exec =>
      have hconf := exec_candidate exec hc hold
      exact hconf
    | restarted during faults point keep files store crashes found opens => cases hc

/-- **A run without storage failures is followed by the ghost**, which only grows. -/
theorem refined_run {q : Prop} (hrun : IsRun (Cluster.step cfg) (Cluster.init cfg) σ α)
    (hfree : ∀ k act, α k = some act → act.FaultFree) (hover : Overlapping σ)
    (hfit : q → ∀ k act, α k = some act → act.Within fitting (σ k)) :
    ∃ γ : Nat → Ghost, (∀ k, Refined q (RunQuorum σ) (σ k) (γ k)) ∧
      ∀ j k, j ≤ k → TermLog.Ext (γ j) (γ k) := by
  have hinit : Refined q (RunQuorum σ) (Cluster.init cfg) (TermLog.State.init Nat Entry) :=
    Refined.init
  obtain ⟨γ, -, hγ⟩ := hrun.simulate (R := Refined q (RunQuorum σ)) TermLog.Ext.refl hinit
    fun k act a ha h => by
      have hcounts : ∀ i V, ((σ k).node i).Counting V → RunQuorum σ V := fun i V hV => ⟨k, i, hV⟩
      obtain ⟨i, a', hsteps, h'⟩ := h.step (G := fun _ => ⟨RunQuorum σ, fun _ _ => True⟩)
        (clean_run hrun hfree k) (clean_run hrun hfree (k + 1)) hcounts (fun _ _ _ _ => trivial)
        (fun _ _ hV => hV) (fun _ _ i op _ _ => h.licensed hover.quorums hcounts i op) (hfree k act ha)
        (fun hq => hfit hq k act ha) (hrun.next k act ha) (hover.steady_step hrun k)
      exact ⟨a', (h.inv.steps hsteps).2.1, h'⟩
  exact ⟨γ, fun k => (hγ k).1, fun j k hjk =>
    Run.le_of_step TermLog.Ext.refl (fun h h' => h.trans h') (fun k => (hγ k).2) hjk⟩

end Run

end Raft
end DistKV
