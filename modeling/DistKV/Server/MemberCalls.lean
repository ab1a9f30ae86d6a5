import DistKV.Server.Waiters

/-!
# Acknowledged membership changes

`ProposeConfChange` checks a change against the configuration the leader has applied; what is decided
is what the applier finds when the entry comes up. In between, other changes can be in the log, and
the applier sends its message whether it has accepted the change or not. So a call can be told that
its change is done when it was rejected (`rejected_addition_acknowledged`).

In a run of careful actions no change is pending whenever one is accepted for the log, so the
configuration the log makes up to the change is the one the leader has checked, and that is the one
an applier meets that comes to the change for the first time. A process that starts again, or installs
a snapshot, may come to it a second time, and reject it then. A call does not live through a restart
of its server; that its server installs no such snapshot has to be asked for (`Undisturbed`).
-/

namespace DistKV
namespace Server

open Raft
open TermLog (Settled)
open Run (IsRun)

/-! ## A run and its committed log -/

/-- How far everybody has come in a run of the service. -/
def reached (cfg : Config) (σ : Nat → Servers) (α : Nat → Option ServiceAction) (k : Nat) : Reach :=
  reachAt (fun k => (σ k).cluster) (raftActions cfg σ α) k

/-- A run of careful actions next to the ghost and the committed log. -/
structure Traced (cfg : Config) (σ : Nat → Servers) (α : Nat → Option ServiceAction)
    (γ : Nat → Ghost) (L : Nat → Entry) : Prop where
  run : IsRun (Servers.step cfg) (Servers.init cfg) σ α
  careful : ∀ k act, raftActions cfg σ α k = some act →
    Careful cfg (σ k).cluster (reached cfg σ α k) act
  tracked : ∀ k, ∃ ver,
    Tracked (.newConfState cfg.peers) (σ k).cluster (reached cfg σ α k) (γ k) ver
  ext : ∀ j k, j ≤ k → TermLog.Ext (γ j) (γ k)
  log : ∀ k term P (m : Nat) e, Settled (γ k) term P → P[m]? = some e → L (m + 1) = e

/-- The verdict is about the membership that the committed log up to its entry makes. -/
structure Verdict.On (boot : ConfState) (L : Nat → Entry) (known : Nat → Prop) (v : Verdict) :
    Prop where
  positive : 0 < v.index
  known : known v.index
  term : (L v.index).term = v.term
  change : (L v.index).change? = some v.cc
  conf : v.conf = foldConf boot L (v.index - 1)

section Appended

variable {n m : Node} {e : Entry}

theorem Appended.entryAt (h : Appended n m e) (hs : Chain n.store.snapIndex n.store.log) :
    m.store.entryAt e.index = some e := by
  have hindex := h.index
  rw [lastIndex_of_chain hs] at hindex
  have hplace : e.index - n.store.snapIndex - 1 = n.store.log.length := by omega
  rw [entryAt_above (by rw [h.snap]; omega), h.snap, h.log, hplace]
  exact List.getElem?_concat_length

end Appended

section Traced

variable {cfg : Config} {σ : Nat → Servers} {α : Nat → Option ServiceAction} {γ : Nat → Ghost}
  {L : Nat → Entry} {t i index term : Nat}

theorem Traced.free (h : Traced cfg σ α γ L) (k : Nat) (act : Action)
    (ha : raftActions cfg σ α k = some act) : act.FaultFree :=
  (h.careful k act ha).free

theorem Traced.sound (h : Traced cfg σ α γ L) (k : Nat) : Sound cfg (σ k).cluster :=
  sound_run (cluster_run h.run) h.free k

theorem Traced.refined (h : Traced cfg σ α γ L) (k : Nat) :
    Refined False (fun _ => True) (σ k).cluster (γ k) := by
  obtain ⟨ver, htracked⟩ := h.tracked k
  exact htracked.refined

theorem Traced.applied (h : Traced cfg σ α γ L) (k i : Nat) :
    ((σ k).cluster.node i).lastApplied ≤ ((σ k).cluster.node i).commitIndex :=
  ((h.refined k).all.node i).applied

theorem Traced.commits (h : Traced cfg σ α γ L) (k i : Nat) :
    Commits L (Known γ) ((σ k).cluster.node i) :=
  commits_run (fun k => (h.sound k).stored) h.refined h.log k i

theorem Traced.judges (h : Traced cfg σ α γ L) {v : Verdict}
    (hv : v ∈ verdicts ((σ t).cluster.node i)) : Judges ((σ t).cluster.node i) v :=
  verdicts_judge ((h.sound t).applied i) ((h.sound t).stored i).chain hv

/-- **An applier that comes to a change for the first time** finds what the log makes. -/
theorem Traced.on (h : Traced cfg σ α γ L) {v : Verdict} (hv : v ∈ verdicts ((σ t).cluster.node i))
    (hfirst : (reached cfg σ α t).node i < v.index) :
    v.On (.newConfState cfg.peers) L (Known γ) := by
  obtain ⟨ver, htracked⟩ := h.tracked t
  have hj := h.judges hv
  obtain ⟨e, he, hcc, hterm⟩ := hj.entry
  obtain ⟨-, hpos, heL, hknown⟩ := h.commits t i v.index e hj.committed he
  have habove := hj.above
  have hcommit := hj.committed
  refine ⟨hpos, hknown, by rw [← heL]; exact hterm, by rw [← heL]; exact hcc, ?_⟩
  rw [hj.conf]
  exact htracked.confAt_fold (h.sound t) (h.log t) (by omega) (by omega) (by omega)

/-- What step `t` does to how far process `i` has come. -/
inductive Comes (cfg : Config) (σ : Nat → Servers) (α : Nat → Option ServiceAction) (t i : Nat) : Prop
  | rests
      (applied : ((σ (t + 1)).cluster.node i).lastApplied = ((σ t).cluster.node i).lastApplied)
      (reach : (reached cfg σ α (t + 1)).node i = (reached cfg σ α t).node i)
      (same : (σ (t + 1)).verdicts i = (σ t).verdicts i)
  | collects
      (applied : ((σ (t + 1)).cluster.node i).lastApplied = ((σ t).cluster.node i).commitIndex)
      (reach : (reached cfg σ α (t + 1)).node i =
        max ((reached cfg σ α t).node i) ((σ t).cluster.node i).commitIndex)
      (more : (σ (t + 1)).verdicts i = (σ t).verdicts i ++ verdicts ((σ t).cluster.node i))
  | installs (e : Event) (x : Nat × InstallSnapshotRequest)
      (action : raftActions cfg σ α t = some (.run e []))
      (installs : (σ t).cluster.installs i e = some x)
      (applied : ((σ (t + 1)).cluster.node i).lastApplied = x.2.lastIncludedIndex)
      (reach : (reached cfg σ α (t + 1)).node i = (reached cfg σ α t).call x.1)
      (same : (σ (t + 1)).verdicts i = (σ t).verdicts i)
  | restarts (during : Option Event) (faults : List Bool) (point keep : Nat)
      (action : α t = some (.raft (.restart i during faults point keep)))
      (none : (σ (t + 1)).verdicts i = [])

theorem reached_none (h : raftActions cfg σ α t = none) :
    reached cfg σ α (t + 1) = reached cfg σ α t := by
  unfold reached
  rw [reachAt, h]

theorem reached_some {act : Action} (h : raftActions cfg σ α t = some act) :
    reached cfg σ α (t + 1) =
      (reached cfg σ α t).next (σ t).cluster act (σ (t + 1)).cluster := by
  unfold reached
  rw [reachAt, h]

/-- The applier passes verdicts when it collects, and a restart forgets them. -/
theorem Traced.verdicts_step (h : Traced cfg σ α γ L) (t i : Nat) :
    ((σ (t + 1)).verdicts i = (σ t).verdicts i ∧
      (∀ faults, raftActions cfg σ α t ≠ some (.run (.collect i) faults)) ∧
      ∀ during faults point keep,
        raftActions cfg σ α t ≠ some (.restart i during faults point keep)) ∨
    (∃ faults, raftActions cfg σ α t = some (.run (.collect i) faults) ∧
      (σ (t + 1)).verdicts i = (σ t).verdicts i ++ verdicts ((σ t).cluster.node i)) ∨
    ∃ during faults point keep, α t = some (.raft (.restart i during faults point keep)) ∧
      (σ (t + 1)).verdicts i = [] := by
  cases ha : α t with
  | none =>
    have hnone : raftActions cfg σ α t = none := by rw [raftActions, ha]; rfl
    exact .inl ⟨by rw [h.run.idle t ha], by simp [hnone], by simp [hnone]⟩
  | some a =>
    have hact : raftActions cfg σ α t = (σ t).raftAction cfg a := by rw [raftActions, ha]; rfl
    rcases step_verdicts (h.run.next t a ha) i with
      ⟨hsame, hcollect, hrestart⟩ | ⟨faults, rfl, hmore⟩ | ⟨during, faults, point, keep, rfl, hnone⟩
    · refine .inl ⟨hsame, fun faults heq => ?_, fun during faults point keep heq => ?_⟩
      · rcases raftAction_cases (hact.symm.trans heq) with rfl | hp | ⟨j, hr⟩
        · exact hcollect faults rfl
        · cases hp
        · cases hr
      · rcases raftAction_cases (hact.symm.trans heq) with rfl | hp | ⟨j, hr⟩
        · exact hrestart during faults point keep rfl
        · cases hp
        · cases hr
    · exact .inr (.inl ⟨faults, hact, hmore⟩)
    · exact .inr (.inr ⟨during, faults, point, keep, rfl, hnone⟩)

theorem Traced.applied_reached (h : Traced cfg σ α γ L) (t i : Nat) :
    ((σ t).cluster.node i).lastApplied ≤ (reached cfg σ α t).node i := by
  obtain ⟨ver, htracked⟩ := h.tracked t
  rw [← htracked.reach i]
  exact (htracked.node i).applied

/-- A process that is left alone. -/
theorem comes_idle {act : Action} (hact : raftActions cfg σ α t = some act)
    (hnode : (σ (t + 1)).cluster.node i = (σ t).cluster.node i)
    (hgain : (reached cfg σ α t).gain (σ t).cluster act (σ (t + 1)).cluster i ≤
      (reached cfg σ α t).node i)
    (hsame : (σ (t + 1)).verdicts i = (σ t).verdicts i) : Comes cfg σ α t i := by
  refine .rests (by rw [hnode]) ?_ hsame
  rw [reached_some hact]
  exact Nat.max_eq_left hgain

/-- A process that runs a section other than the applier's. -/
theorem Traced.comes_section (h : Traced cfg σ α γ L) {e : Event} {op : NodeOp} {m : Node}
    {eff : Effect} (hact : raftActions cfg σ α t = some (.run e []))
    (hres : (σ t).cluster.resolve e = some (i, op)) (hcollect : op ≠ .collect)
    (hex : (((σ t).cluster.node i).withFaults []).exec op = some (m, eff))
    (hnode : (σ (t + 1)).cluster.node i = m) (hsame : (σ (t + 1)).verdicts i = (σ t).verdicts i) :
    Comes cfg σ α t i := by
  obtain ⟨ver, htracked⟩ := h.tracked t
  have happlied := h.applied_reached t i
  have hreach : (reached cfg σ α (t + 1)).node i = max ((reached cfg σ α t).node i)
      (max m.lastApplied ((((σ t).cluster.installs i e).map fun x =>
        (reached cfg σ α t).call x.1).getD 0)) := by
    rw [reached_some hact, ← hnode]
    rfl
  cases exec_applies (h.sound t) (h.applied t i) hres hex with
  | idle conf applied none quiet =>
    refine .rests (by rw [hnode, applied]) ?_ hsame
    rw [hreach, none, applied]
    exact Nat.max_eq_left (Nat.max_le.mpr ⟨happlied, Nat.zero_le _⟩)
  | collect runs conf applied none => exact absurd runs hcollect
  | install x hx conf applied reached role =>
    refine .installs e x hact hx (by rw [hnode, applied]) ?_ hsame
    obtain ⟨call, -, hcall, -, hreq, -⟩ := installs_some hx
    obtain ⟨P, hP⟩ := htracked.call x.1 call x.2 hcall (by rw [hreq]; rfl)
    have hahead := (h.careful t _ hact).ahead (e, []) rfl i x hx
    have hlen := hP.length
    have hindex := hP.index
    rw [hreach, hx, applied, Option.map_some, Option.getD_some]
    omega

/-- A process whose applier runs. -/
theorem Traced.comes_collect (h : Traced cfg σ α γ L) {faults : List Bool}
    (hact : raftActions cfg σ α t = some (.run (.collect i) faults))
    (hmore : (σ (t + 1)).verdicts i = (σ t).verdicts i ++ verdicts ((σ t).cluster.node i)) :
    Comes cfg σ α t i := by
  obtain rfl : faults = [] := h.free t _ hact (.collect i, faults) rfl
  obtain ⟨j, m, eff, hout, hc⟩ := step_run ((cluster_run h.run).next t _ hact)
  obtain ⟨op, hres, -, hex⟩ := outcome_some hout
  cases resolve_cases hres with
  | collect =>
    have hat : ((σ (t + 1)).cluster.node i).lastApplied = ((σ t).cluster.node i).commitIndex := by
      rw [hc, node_finishSection, if_pos rfl]
      exact (Node.collect_conf (n := ((σ t).cluster.node i).withFaults [])
        ((h.sound t).applied i) (h.applied t i) hex).1
    refine .collects hat ?_ hmore
    rw [reached_some hact]
    show max _ (max ((σ (t + 1)).cluster.node i).lastApplied _) = _
    rw [hat, installs_none hres (by simp), Option.map_none, Option.getD_none, Nat.max_zero]

theorem Traced.comes (h : Traced cfg σ α γ L) (t i : Nat) : Comes cfg σ α t i := by
  have hcluster := cluster_run h.run
  rcases h.verdicts_step t i with ⟨hsame, hcollect, hrestart⟩ | ⟨faults, hact, hmore⟩ |
    ⟨during, faults, point, keep, ha, hnone⟩
  swap
  · exact h.comes_collect hact hmore
  swap
  · exact .restarts during faults point keep ha hnone
  cases hact : raftActions cfg σ α t with
  | none =>
    have hidle : (σ (t + 1)).cluster = (σ t).cluster := hcluster.idle t hact
    exact .rests (by rw [hidle]) (by rw [reached_none hact]) hsame
  | some act =>
    have hstep : (σ t).cluster.step cfg act = some (σ (t + 1)).cluster := hcluster.next t act hact
    cases act with
    | restart j during faults point keep =>
      have hj : i ≠ j := by
        rintro rfl
        exact hrestart during faults point keep hact
      obtain ⟨-, files, store, -, -, hc⟩ := step_restart hstep
      refine comes_idle hact (by rw [hc, node_restarted, if_neg hj]) ?_ hsame
      show (if i = j then _ else 0) ≤ _
      rw [if_neg hj]
      exact Nat.zero_le _
    | run e faults =>
      obtain rfl : faults = [] := h.free t _ hact (e, faults) rfl
      obtain ⟨j, m, eff, hout, hc⟩ := step_run hstep
      obtain ⟨op, hres, -, hex⟩ := outcome_some hout
      by_cases hj : i = j
      · subst hj
        refine h.comes_section hact hres ?_ hex (by rw [hc, node_finishSection, if_pos rfl]) hsame
        rintro rfl
        cases resolve_cases hres
        exact hcollect [] hact
      · obtain ⟨ver, htracked⟩ := h.tracked t
        have hnode : (σ (t + 1)).cluster.node i = (σ t).cluster.node i := by
          rw [hc, node_finishSection, if_neg hj]
        exact comes_idle hact hnode (htracked.gain_other hres hj hnode) hsame
    | _ => exact comes_idle hact (silent_node hstep rfl (by simp) i) (Nat.zero_le _) hsame

/-- Nobody has passed a verdict beyond where they have come. -/
theorem Traced.verdicts_reached (h : Traced cfg σ α γ L) (t i : Nat) :
    ∀ v ∈ (σ t).verdicts i, v.index ≤ (reached cfg σ α t).node i := by
  induction t with
  | zero =>
    intro v hv
    rw [h.run.start] at hv
    cases hv
  | succ t ih =>
    intro v hv
    cases h.comes t i with
    | rests applied reach same =>
      rw [same] at hv
      exact Nat.le_trans (ih v hv) (Nat.le_of_eq reach.symm)
    | collects applied reach more =>
      rw [more] at hv
      rw [reach]
      rcases List.mem_append.mp hv with hv | hv
      · exact Nat.le_trans (ih v hv) (Nat.le_max_left _ _)
      · exact Nat.le_trans (h.judges hv).committed (Nat.le_max_right _ _)
    | installs e x action installs applied reach same =>
      rw [same] at hv
      exact Nat.le_trans (ih v hv) (reachAt_mono (Nat.le_succ t) i)
    | restarts during faults point keep action none =>
      rw [none] at hv
      cases hv

/-! ## What an applier will meet -/

/-- What the applier of process `i` makes of the entry at `index`: it has not come so far, or is
    beyond without having met it, or has met it and found what the log makes. -/
inductive Awaits (cfg : Config) (σ : Nat → Servers) (α : Nat → Option ServiceAction)
    (γ : Nat → Ghost) (L : Nat → Entry) (t i index : Nat) : Prop
  | ahead (below : (reached cfg σ α t).node i < index)
  | beyond (applied : index ≤ ((σ t).cluster.node i).lastApplied)
      (unmet : ∀ j ≤ t, ∀ v ∈ (σ j).verdicts i, v.index ≠ index)
  | met (j : Nat) (past : j ≤ t) (v : Verdict) (passed : v ∈ (σ j).verdicts i)
      (here : v.index = index) (on : v.On (.newConfState cfg.peers) L (Known γ))

/-- No verdict about what lies ahead. -/
theorem Traced.unmet (h : Traced cfg σ α γ L) (hlt : (reached cfg σ α t).node i < index) :
    ∀ j ≤ t, ∀ v ∈ (σ j).verdicts i, v.index ≠ index := by
  intro j hj v hv heq
  have hle := Nat.le_trans (h.verdicts_reached j i v hv) (reachAt_mono hj i)
  rw [heq] at hle
  exact absurd hlt (Nat.not_lt.mpr hle)

/-- A change that the applier comes to gets its verdict. -/
theorem Traced.meets (h : Traced cfg σ α γ L) {cc : ConfChange} (hcc : (L index).change? = some cc)
    (hlow : ((σ t).cluster.node i).lastApplied < index)
    (hhigh : index ≤ ((σ t).cluster.node i).commitIndex) :
    ∃ v ∈ verdicts ((σ t).cluster.node i), v.index = index := by
  have hheld := (h.refined t).holds (h.sound t).stored (h.log t) i
  have hsnap := (h.sound t).applied i
  have hall : ∀ m, ((σ t).cluster.node i).lastApplied < m → m ≤ ((σ t).cluster.node i).commitIndex →
      ∃ e, ((σ t).cluster.node i).store.entryAt m = some e :=
    fun m hm => hheld.held m (Nat.lt_of_le_of_lt hsnap hm)
  obtain ⟨e, he⟩ := hall index hlow hhigh
  have hvisit : e ∈ pendingEntries ((σ t).cluster.node i)
      (((σ t).cluster.node i).commitIndex - ((σ t).cluster.node i).lastApplied) :=
    visits_all hsnap hall hlow hhigh (by omega) he
  have hchange : e.change? = some cc := by rw [hheld.entry index e hhigh he, hcc]
  obtain ⟨v, hv, -, hindex, -⟩ := visits_verdict hvisit hchange
  exact ⟨v, hv, by rw [hindex, entryAt_index hheld.chain he]⟩

theorem Awaits.step (h : Traced cfg σ α γ L) (ha : Awaits cfg σ α γ L t i index) {cc : ConfChange}
    (hcc : (L index).change? = some cc)
    (alive : ∀ during faults point keep, α t ≠ some (.raft (.restart i during faults point keep)))
    (undisturbed : ∀ e, raftActions cfg σ α t = some (.run e []) →
      ∀ x ∈ (σ t).cluster.installs i e,
        (reached cfg σ α t).call x.1 < index ∨ index ≤ x.2.lastIncludedIndex) :
    Awaits cfg σ α γ L (t + 1) i index := by
  -- the history of the verdicts goes on
  have hunmet : (∀ j ≤ t, ∀ v ∈ (σ j).verdicts i, v.index ≠ index) →
      (∀ v ∈ (σ (t + 1)).verdicts i, v.index ≠ index) →
      ∀ j ≤ t + 1, ∀ v ∈ (σ j).verdicts i, v.index ≠ index := by
    intro hold hnew j hj
    rcases Nat.of_le_succ hj with hle | rfl
    · exact hold j hle
    · exact hnew
  have hkept : (∀ j ≤ t, ∀ v ∈ (σ j).verdicts i, v.index ≠ index) →
      (σ (t + 1)).verdicts i = (σ t).verdicts i →
      ∀ j ≤ t + 1, ∀ v ∈ (σ j).verdicts i, v.index ≠ index :=
    fun hold same => hunmet hold (by rw [same]; exact hold t (Nat.le_refl _))
  cases ha with
  | met j past v passed here on => exact .met j (Nat.le_succ_of_le past) v passed here on
  | ahead below =>
    have hnone := h.unmet below
    cases h.comes t i with
    | rests applied reach same => exact .ahead (reach ▸ below)
    | collects applied reach more =>
      rcases Nat.lt_or_ge ((σ t).cluster.node i).commitIndex index with hlt | hge
      · exact .ahead (by rw [reach]; exact Nat.max_lt.mpr ⟨below, hlt⟩)
      have hlow := Nat.lt_of_le_of_lt (h.applied_reached t i) below
      obtain ⟨v, hv, hindex⟩ := h.meets hcc hlow hge
      refine .met (t + 1) (Nat.le_refl _) v ?_ hindex (h.on hv (hindex ▸ below))
      rw [more]
      exact List.mem_append_right _ hv
    | installs e x action installs applied reach same =>
      rcases undisturbed e action x installs with hlt | hge
      · exact .ahead (by rw [reach]; exact hlt)
      · exact .beyond (by rw [applied]; exact hge) (hkept hnone same)
    | restarts during faults point keep action => exact absurd action (alive during faults point keep)
  | beyond applied unmet =>
    cases h.comes t i with
    | rests applied' reach same =>
      exact .beyond (by rw [applied']; exact applied) (hkept unmet same)
    | collects applied' reach more =>
      refine .beyond ?_ (hunmet unmet fun v hv heq => ?_)
      · rw [applied']
        exact Nat.le_trans applied (h.applied t i)
      · rw [more] at hv
        rcases List.mem_append.mp hv with hv | hv
        · exact unmet t (Nat.le_refl _) v hv heq
        · have habove := (h.judges hv).above
          omega
    | installs e x action installs applied' reach same =>
      have happlied := h.applied_reached t i
      have hahead := (h.careful t _ action).ahead (e, []) rfl i x installs
      rcases undisturbed e action x installs with hlt | hge
      · omega
      · exact .beyond (by rw [applied']; exact hge) (hkept unmet same)
    | restarts during faults point keep action => exact absurd action (alive during faults point keep)

/-! ## A call on its way -/

/-- The handler has not returned. -/
def RpcCall.Open (call : RpcCall) : Prop := ∀ out, call.stage ≠ .returned out

/-- A step keeps what a call has proposed, or adds one proposal. -/
structure Grows (cfg : Config) (s : Servers) (a : ServiceAction) (s' : Servers) (k : Nat)
    (call call' : RpcCall) : Prop where
  server : call'.server = call.server
  rpc : call'.rpc = call.rpc
  open' : call'.Open → call.Open
  proposals : call'.proposals = call.proposals ∨ ∃ cc index term faults, a = .propose k faults ∧
    call.stage = .entered (some cc) ∧
    (s.proposal call.server faults call.rpc (some cc)).2 = .ok (index, term) ∧
    s.cluster.step cfg (.run (s.proposal call.server faults call.rpc (some cc)).1 faults) =
      some s'.cluster ∧ call'.proposals = call.proposals ++ [(cc, index, term)]

theorem Moves.grows {s s' : Servers} {a : ServiceAction} {k : Nat} {call call' : RpcCall}
    (h : Moves cfg s a s' k call call') : Grows cfg s a s' k call call' := by
  -- a handler that moves on was not at its end
  have hmoved : ∀ stage, (∀ out, call.stage ≠ .returned out) →
      Grows cfg s a s' k call { call with stage := stage } :=
    fun stage hopen => ⟨rfl, rfl, fun _ => hopen, .inl rfl⟩
  cases h with
  | stay => exact ⟨rfl, rfl, id, .inl rfl⟩
  | fail err => exact ⟨rfl, rfl, fun ho => absurd rfl (ho _), .inl rfl⟩
  | place cc index term faults action stage out step =>
    refine ⟨rfl, rfl, fun _ => by rw [RpcCall.Open, stage]; simp, ?_⟩
    cases cc with
    | none => exact .inl (List.append_nil _)
    | some cc => exact .inr ⟨cc, index, term, faults, action, stage, out, step, rfl⟩
  | register cc index term action stage => exact hmoved _ (by rw [stage]; simp)
  | answer cc index term i key failed msg ans action stage => exact hmoved _ (by rw [stage]; simp)
  | done cc index term ans action stage => exact hmoved _ (by rw [stage]; simp)
  | second cc index term ans action stage => exact hmoved _ (by rw [stage]; simp)
  | ask action stage => exact hmoved _ (by rw [stage]; simp)
  | read r index rd action stage => exact hmoved _ (by rw [stage]; simp)
  | look readIdx action stage => exact hmoved _ (by rw [stage]; simp)

end Traced

/-! ## The two steps of a call -/

/-- The applier of the call's server has met `cc`, an entry the call has proposed, and has taken it:
    the configuration `conf` became `next`. -/
def Effected (σ : Nat → Servers) (t : Nat) (call : RpcCall) (cc : ConfChange)
    (conf next : ConfState) : Prop :=
  ∃ j ≤ t, ∃ v ∈ (σ j).verdicts call.server, v.cc = cc ∧ (cc, v.index, v.term) ∈ call.proposals ∧
    v.conf = conf ∧ conf.applyConfChange cc = .ok next

/-- Of the changes a call has proposed, `cc` has been taken. -/
def Carried (σ : Nat → Servers) (t : Nat) (call : RpcCall) (cc : ConfChange) : Prop :=
  ∃ conf next, Effected σ t call cc conf next

/-- A call on its way: the change `cc` that it works on is the one it was made for, which has its
    place in the log from the proposal on, or the one that follows when that is carried. -/
def Works (σ : Nat → Servers) (t : Nat) (call : RpcCall) (cc : Option ConfChange)
    (placed : ConfChange → Prop) : Prop :=
  ∀ cc₀, call.rpc.change? = some cc₀ →
    (cc = some cc₀ ∧ placed cc₀) ∨ (cc = some { type := .leaveJoint } ∧ Carried σ t call cc₀)

/-- What is known of a call at a stage. -/
def AtStage (σ : Nat → Servers) (t : Nat) (call : RpcCall) : Stage → Prop
  | .entered cc => Works σ t call cc fun _ => True
  | .proposed cc index term => Works σ t call cc fun cc₀ => (cc₀, index, term) ∈ call.proposals
  | .waiting cc index term => Works σ t call cc fun cc₀ => (cc₀, index, term) ∈ call.proposals
  | .answered cc index term _ => Works σ t call cc fun cc₀ => (cc₀, index, term) ∈ call.proposals
  | .asking => call.rpc.change? = none
  | .reading _ => call.rpc.change? = none
  | .lagging _ => call.rpc.change? = none
  | .returned (.error _) => True
  | .returned (.ok _) => ∀ cc₀, call.rpc.change? = some cc₀ → Carried σ t call cc₀

section Run

variable {cfg : Config} {σ : Nat → Servers} {α : Nat → Option ServiceAction} {γ : Nat → Ghost}
  {L : Nat → Entry} {t t' : Nat} {call call' : RpcCall}

/-- Calls keep what they have. -/
theorem Carried.mono {cc : ConfChange} (h : Carried σ t call cc) (htt : t ≤ t')
    (hserver : call'.server = call.server) (hproposals : call.proposals ⊆ call'.proposals) :
    Carried σ t' call' cc := by
  obtain ⟨conf, next, j, hj, v, hv, hcc, hmem, heffect⟩ := h
  exact ⟨conf, next, j, Nat.le_trans hj htt, v, by rw [hserver]; exact hv, hcc, hproposals hmem,
    heffect⟩

theorem Works.mono {cc : Option ConfChange} {placed placed' : ConfChange → Prop}
    (h : Works σ t call cc placed) (htt : t ≤ t') (hserver : call'.server = call.server)
    (hrpc : call'.rpc = call.rpc) (hproposals : call.proposals ⊆ call'.proposals)
    (hplaced : ∀ cc₀, cc = some cc₀ → placed cc₀ → placed' cc₀) : Works σ t' call' cc placed' := by
  intro cc₀ hcc₀
  rw [hrpc] at hcc₀
  rcases h cc₀ hcc₀ with ⟨hcc, hp⟩ | ⟨hcc, hcarried⟩
  · exact .inl ⟨hcc, hplaced cc₀ hcc hp⟩
  · exact .inr ⟨hcc, hcarried.mono htt hserver hproposals⟩

/-- A call that moves to another stage without a new proposal. -/
theorem AtStage.move (stage : Stage) (h : AtStage σ t call stage) (htt : t ≤ t') :
    AtStage σ t' { call with stage := stage } stage := by
  have hsub : call.proposals ⊆ call.proposals := List.Subset.refl _
  have hworks : ∀ {cc index term},
      Works σ t call cc (fun cc₀ => (cc₀, index, term) ∈ call.proposals) →
      Works σ t' { call with stage := stage } cc
        (fun cc₀ => (cc₀, index, term) ∈ call.proposals) :=
    fun hw => hw.mono htt rfl rfl hsub fun _ _ hp => hp
  cases stage with
  | entered cc => exact Works.mono h htt rfl rfl hsub fun _ _ hp => hp
  | proposed cc index term => exact hworks h
  | waiting cc index term => exact hworks h
  | answered cc index term ans => exact hworks h
  | asking => exact h
  | reading r => exact h
  | lagging r => exact h
  | returned out =>
    cases out with
    | error err => trivial
    | ok r => exact fun cc₀ hcc₀ => (h cc₀ hcc₀).mono htt rfl hsub

theorem Effected.applied {σ : Nat → Servers} {t : Nat} {call : RpcCall} {cc : ConfChange}
    {conf next : ConfState} (h : Effected σ t call cc conf next) :
    conf.applyConfChange cc = .ok next := by
  obtain ⟨-, -, -, -, -, -, -, happ⟩ := h
  exact happ

end Run

/-! ## Two additions in turn -/

end Server
end DistKV
