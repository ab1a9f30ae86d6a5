import DistKV.Raft.ConfHistory
import DistKV.Server.Steps

/-!
# What is sent on `applyCh`

The applier goes through the committed entries in order (`visits`), makes a message of each and a
verdict of each that is a membership change. So everything a server takes from `applyCh`, the
snapshots apart, is an entry of the committed log, and for a membership change there is a verdict
(`Announced`). A verdict is about the configuration that the node comes to before that entry
(`Judges`).
-/

namespace DistKV
namespace Server

open Raft
open TermLog (Settled)
open Run (IsRun)

/-! ## The applier -/

/-- The message the applier makes of an entry. -/
def message (e : Entry) : ApplyMsg :=
  match e.change? with
  | some cc => .confChange cc e.index e.term
  | none => .command e.data e.index e.term

theorem applyEntry_message (n : Node) (e : Entry) : (n.applyEntry e).2 = message e := by
  cases ht : e.type with
  | normal => simp only [Node.applyEntry, message, Entry.change?, ht]
  | confChange =>
    cases hcc : e.confChange with
    | none => simp only [Node.applyEntry, message, Entry.change?, ht, hcc]
    | some cc => simp only [Node.applyEntry, message, Entry.change?, ht, hcc]

theorem verdict_eq (n : Node) (e : Entry) :
    verdict n e = (e.change?.map fun cc => { cc, index := e.index, term := e.term, conf := n.conf :
      Verdict }).toList := by
  cases ht : e.type with
  | normal => simp only [verdict, Entry.change?, ht, Option.map_none, Option.toList_none]
  | confChange =>
    cases hcc : e.confChange with
    | none => simp only [verdict, Entry.change?, ht, hcc, Option.map_none, Option.toList_none]
    | some cc => simp only [verdict, Entry.change?, ht, hcc, Option.map_some, Option.toList_some]

/-- The entries `collectLoop` applies from `lastApplied` on. -/
def visits (s : DiskStorage) (commitIndex : Nat) : Nat → Nat → List Entry
  | 0, _ => []
  | fuel + 1, lastApplied =>
    if lastApplied < commitIndex then
      if lastApplied + 1 < s.firstIndex then visits s commitIndex fuel s.snapIndex
      else
        match s.entryAt (lastApplied + 1) with
        | none => []
        | some e => e :: visits s commitIndex fuel (lastApplied + 1)
    else []

/-- What the next collection of a node applies. -/
def pendingEntries (n : Node) (fuel : Nat) : List Entry :=
  visits n.store n.commitIndex fuel n.lastApplied

section Applier

variable {fuel : Nat} {n m : Node}

/-- Only the log and the snapshot index decide what is visited. -/
theorem visits_congr {s s' : DiskStorage} (hlog : s'.log = s.log)
    (hsnap : s'.snapIndex = s.snapIndex) (commitIndex lastApplied : Nat) :
    visits s' commitIndex fuel lastApplied = visits s commitIndex fuel lastApplied := by
  have hfirst : s'.firstIndex = s.firstIndex := by
    rw [DiskStorage.firstIndex, DiskStorage.firstIndex, hsnap]
  have hentry : ∀ index, s'.entryAt index = s.entryAt index := by
    intro index
    rw [DiskStorage.entryAt, DiskStorage.entryAt, hfirst, hlog]
  induction fuel generalizing lastApplied with
  | zero => rfl
  | succ fuel ih => rw [visits, visits, hfirst, hentry, hsnap, ih, ih]

theorem pendingEntries_withFaults (faults : List Bool) :
    pendingEntries (n.withFaults faults) fuel = pendingEntries n fuel := by
  have hlog : (n.withFaults faults).store.log = n.store.log := rfl
  have hsnap : (n.withFaults faults).store.snapIndex = n.store.snapIndex := rfl
  exact visits_congr hlog hsnap _ _

theorem visits_applyEntry (e : Entry) (next : Nat) :
    pendingEntries { (n.applyEntry e).1 with lastApplied := next } fuel =
      visits n.store n.commitIndex fuel next := by
  obtain ⟨hlog, hsnap⟩ := applyEntry_log (n := n) e
  have hcommit := (Node.applyEntry_frame (n := n) e).2.1
  show visits (n.applyEntry e).1.store (n.applyEntry e).1.commitIndex fuel next = _
  rw [hcommit]
  exact visits_congr hlog hsnap _ _

theorem collectLoop_messages {msgs : List ApplyMsg} (h : Node.collectLoop fuel n = some (m, msgs)) :
    msgs = (pendingEntries n fuel).map message := by
  induction fuel generalizing n m msgs with
  | zero =>
    obtain ⟨-, rfl⟩ := Prod.mk.inj (Option.some.inj h)
    rfl
  | succ fuel ih =>
    rw [Node.collectLoop] at h
    rw [pendingEntries, visits]
    split at h
    swap
    · next hle =>
      obtain ⟨-, rfl⟩ := Prod.mk.inj (Option.some.inj h)
      rw [if_neg hle]
      rfl
    next hlt =>
    rw [if_pos hlt]
    simp only at h
    split at h
    · next hbelow =>
      rw [if_pos hbelow]
      exact ih h
    next habove =>
    rw [if_neg habove]
    cases he : n.store.entryAt (n.lastApplied + 1) with
    | none =>
      rw [he] at h
      cases h
    | some e =>
      rw [he] at h
      obtain ⟨⟨m', rest⟩, hrest, hq⟩ := Option.map_eq_some_iff.mp h
      obtain ⟨-, rfl⟩ := Prod.mk.inj hq
      simp only [List.map_cons, applyEntry_message]
      rw [ih hrest, visits_applyEntry]

/-- Every change the applier visits gets a verdict. -/
theorem visits_verdict {e : Entry} {cc : ConfChange} (he : e ∈ pendingEntries n fuel)
    (hcc : e.change? = some cc) :
    ∃ v ∈ verdictLoop fuel n, v.cc = cc ∧ v.index = e.index ∧ v.term = e.term := by
  induction fuel generalizing n with
  | zero => cases he
  | succ fuel ih =>
    rw [pendingEntries, visits] at he
    rw [verdictLoop]
    split at he
    swap
    · cases he
    next hlt =>
    rw [if_pos hlt]
    simp only
    split at he
    · next hbelow =>
      rw [if_pos hbelow]
      exact ih he
    next habove =>
    rw [if_neg habove]
    cases hx : n.store.entryAt (n.lastApplied + 1) with
    | none =>
      rw [hx] at he
      cases he
    | some x =>
      rw [hx] at he
      simp only
      rcases List.mem_cons.mp he with rfl | he
      · refine ⟨{ cc, index := e.index, term := e.term, conf := n.conf }, ?_, rfl, rfl, rfl⟩
        rw [verdict_eq, hcc]
        exact List.mem_append_left _ (List.mem_singleton.mpr rfl)
      · rw [← visits_applyEntry (n := n) x] at he
        obtain ⟨v, hv, hsame⟩ := ih he
        exact ⟨v, List.mem_append_right _ hv, hsame⟩

/-- What is visited is in the log, up to `commitIndex`. -/
theorem visits_held {s : DiskStorage} {commitIndex lastApplied : Nat} {e : Entry}
    (he : e ∈ visits s commitIndex fuel lastApplied) :
    ∃ index ≤ commitIndex, s.entryAt index = some e := by
  induction fuel generalizing lastApplied with
  | zero => cases he
  | succ fuel ih =>
    rw [visits] at he
    split at he
    swap
    · cases he
    next hlt =>
    split at he
    · exact ih he
    split at he
    · cases he
    next x hx =>
    rcases List.mem_cons.mp he with rfl | he
    · exact ⟨lastApplied + 1, hlt, hx⟩
    · exact ih he

/-- What a node takes for committed is in the log `L`, at indices that are `known` to be so. -/
def Commits (L : Nat → Entry) (known : Nat → Prop) (n : Node) : Prop :=
  ∀ index e, index ≤ n.commitIndex → n.store.entryAt index = some e →
    e.index = index ∧ 0 < index ∧ e = L index ∧ known index

/-- Along `collectLoop` a verdict is about an entry of the log, and about the configuration that the
    log `M` before it makes of what the node has. -/
theorem verdictLoop_spec {c : ConfState} {M : Nat → Entry}
    (hsnap : n.store.snapIndex ≤ n.lastApplied) (hchain : Chain n.store.snapIndex n.store.log)
    (hM : ∀ index e, n.lastApplied < index → n.store.entryAt index = some e →
      e.change? = (M index).change?)
    (hn : n.conf = foldConf c M n.lastApplied) :
    ∀ v ∈ verdictLoop fuel n, n.lastApplied < v.index ∧ v.index ≤ n.commitIndex ∧
      (∃ e, n.store.entryAt v.index = some e ∧ e.change? = some v.cc ∧ e.term = v.term) ∧
      v.conf = foldConf c M (v.index - 1) := by
  induction fuel generalizing n with
  | zero =>
    intro v hv
    cases hv
  | succ fuel ih =>
    intro v hv
    rw [verdictLoop] at hv
    split at hv
    swap
    · cases hv
    next hlt =>
    simp only at hv
    split at hv
    · next hbelow => exact absurd hbelow (Nat.not_lt.mpr (Nat.succ_le_succ hsnap))
    split at hv
    · cases hv
    next e he =>
    have hindex : e.index = n.lastApplied + 1 := entryAt_index hchain he
    rcases List.mem_append.mp hv with hv | hv
    · rw [verdict_eq] at hv
      cases hcc : e.change? with
      | none => rw [hcc] at hv; cases hv
      | some cc =>
        rw [hcc] at hv
        obtain rfl := List.mem_singleton.mp hv
        simp only [hindex]
        exact ⟨Nat.lt_succ_self _, hlt, ⟨e, he, hcc, rfl⟩, by rw [hn, Nat.add_sub_cancel]⟩
    · obtain ⟨hlog, hsame⟩ := applyEntry_log (n := n) e
      have hcommit := (Node.applyEntry_frame (n := n) e).2.1
      have hentry : ∀ index, (n.applyEntry e).1.store.entryAt index = n.store.entryAt index := by
        intro index
        rw [DiskStorage.entryAt, DiskStorage.entryAt, DiskStorage.firstIndex,
          DiskStorage.firstIndex, hlog, hsame]
      have hrest := ih (n := { (n.applyEntry e).1 with lastApplied := n.lastApplied + 1 })
        (by rw [hsame]; exact Nat.le_succ_of_le hsnap) (by rw [hsame, hlog]; exact hchain)
        (fun index x hlow hx => hM index x (Nat.lt_of_succ_lt hlow) (hentry index ▸ hx))
        (by rw [Node.applyEntry_conf, foldConf, ← hn]
            exact ConfState.absorb_congr (hM _ e (Nat.lt_succ_self _) he)) v hv
      obtain ⟨hlow, hhigh, ⟨x, hx, hxcc, hxterm⟩, hconf⟩ := hrest
      refine ⟨Nat.lt_of_succ_lt hlow, hcommit ▸ hhigh, ⟨x, ?_, hxcc, hxterm⟩, hconf⟩
      rw [← hentry]
      exact hx

/-- A verdict of the next collection: it is about an entry of the log, and about the configuration
    the node comes to before it. -/
structure Judges (n : Node) (v : Verdict) : Prop where
  above : n.lastApplied < v.index
  committed : v.index ≤ n.commitIndex
  entry : ∃ e, n.store.entryAt v.index = some e ∧ e.change? = some v.cc ∧ e.term = v.term
  conf : v.conf = n.confAt (v.index - 1)

theorem verdicts_judge (hsnap : n.store.snapIndex ≤ n.lastApplied)
    (hchain : Chain n.store.snapIndex n.store.log) {v : Verdict} (hv : v ∈ verdicts n) :
    Judges n v := by
  obtain ⟨habove, hcommit, hentry, hconf⟩ := verdictLoop_spec (M := n.ahead) hsnap hchain
    (fun index e hlow he => by
      rw [Node.ahead, if_neg (Nat.not_le.mpr hlow), he]
      rfl) n.confAt_applied.symm v hv
  exact ⟨habove, hcommit, hentry, hconf⟩

/-- Nothing in the log is passed over. -/
theorem visits_all {s : DiskStorage} {commitIndex lastApplied index : Nat} {e : Entry}
    (hsnap : s.snapIndex ≤ lastApplied)
    (hheld : ∀ m, lastApplied < m → m ≤ commitIndex → ∃ e, s.entryAt m = some e)
    (hlow : lastApplied < index) (hhigh : index ≤ commitIndex) (hfuel : index - lastApplied ≤ fuel)
    (he : s.entryAt index = some e) : e ∈ visits s commitIndex fuel lastApplied := by
  induction fuel generalizing lastApplied with
  | zero => omega
  | succ fuel ih =>
    have hnext : ¬lastApplied + 1 < s.firstIndex := Nat.not_lt.mpr (Nat.succ_le_succ hsnap)
    obtain ⟨x, hx⟩ := hheld (lastApplied + 1) (Nat.lt_succ_self _) (Nat.le_trans hlow hhigh)
    rw [visits, if_pos (Nat.lt_of_lt_of_le hlow hhigh), if_neg hnext, hx]
    rcases Nat.eq_or_lt_of_le (Nat.succ_le_of_lt hlow) with heq | hlt
    · subst heq
      obtain rfl := Option.some.inj (hx.symm.trans he)
      exact List.mem_cons_self
    · exact List.mem_cons_of_mem _ (ih (Nat.le_succ_of_le hsnap)
        (fun m hm => hheld m (Nat.lt_of_succ_lt hm)) hlt (by omega))

end Applier

/-! ## Runs -/

/-- What a server may receive: a snapshot, or an entry of the committed log `L` at an index that is
    `known` to be committed, with a verdict if it is a membership change. -/
def Announced (L : Nat → Entry) (known : Nat → Prop) (vs : List Verdict) (m : ApplyMsg) : Prop :=
  (∃ data index term, m = .snapshot data index term) ∨
    ∃ e, m = message e ∧ e = L e.index ∧ 0 < e.index ∧ known e.index ∧
      ∀ cc, e.change? = some cc → ∃ v ∈ vs, v.cc = cc ∧ v.index = e.index ∧ v.term = e.term

theorem Announced.mono {L : Nat → Entry} {known : Nat → Prop} {vs vs' : List Verdict} {m : ApplyMsg}
    (h : Announced L known vs m) (hsub : vs ⊆ vs') : Announced L known vs' m := by
  rcases h with hsnap | ⟨e, hm, heL, hpos, hknown, hv⟩
  · exact .inl hsnap
  · refine .inr ⟨e, hm, heL, hpos, hknown, fun cc hcc => ?_⟩
    obtain ⟨v, hmem, hsame⟩ := hv cc hcc
    exact ⟨v, hsub hmem, hsame⟩

/-- Only snapshots are announced by handlers. -/
theorem installs_step {cfg : Config} {c c' : Cluster} {act : Action} {j : Nat}
    (hs : c.step cfg act = some c')
    (h : ∀ q ∈ (c.procs j).installs, ∃ data index term, q.2.2 = .snapshot data index term) :
    ∀ q ∈ (c'.procs j).installs, ∃ data index term, q.2.2 = .snapshot data index term := by
  intro q hq
  cases act with
  | run e faults =>
    obtain ⟨i, n, eff, ho, rfl⟩ := step_run hs
    obtain ⟨op, hres, -, hex⟩ := outcome_some ho
    rcases installs_finishSection hq with hq | ⟨-, he, -, hinstall⟩
    · exact h q hq
    by_cases hop : ∃ req, op = .handle (.installSnapshot req)
    · obtain ⟨req, rfl⟩ := hop
      have hinst := Node.exec_install hex
      generalize eff.install = msg at hinst hinstall
      cases hinst with
      | refused => cases hinstall
      | failed => cases hinstall
      | installed => exact ⟨_, _, _, (Option.some.inj hinstall).symm⟩
    · rw [Node.exec_no_install hex fun req heq => hop ⟨req, heq⟩] at hinstall
      cases hinstall
  | restart i during faults point keep =>
    obtain ⟨-, files, store, -, -, rfl⟩ := step_restart hs
    simp only [Cluster.restarted, Function.update_apply] at hq
    split at hq
    · cases hq
    · exact h q hq
  | _ => exact h q (installs_silent hs rfl (by simp) j hq)

/-- Everything the process has sent or is about to send satisfies `P`, and only snapshots wait in its
    handlers. -/
structure Carries (P : ApplyMsg → Prop) (p : Process) : Prop where
  sent : ∀ m ∈ p.applyCh, P m
  batch : ∀ m ∈ p.batch, P m
  installs : ∀ q ∈ p.installs, ∃ data index term, q.2.2 = .snapshot data index term

/-- What has to be shown of the batches the applier makes. -/
theorem Carries.step {cfg : Config} {c c' : Cluster} {act : Action} {i : Nat}
    {P P' : ApplyMsg → Prop} (h : Carries P (c.procs i)) (hs : c.step cfg act = some c')
    (hmono : (∀ during faults point keep, act ≠ .restart i during faults point keep) →
      ∀ m, P m → P' m)
    (hsnap : ∀ data index term, P' (.snapshot data index term))
    (hcollect : ∀ faults n eff, act = .run (.collect i) faults →
      ((c.node i).withFaults faults).exec .collect = some (n, eff) → ∀ m ∈ eff.collected, P' m) :
    Carries P' (c'.procs i) := by
  have hinstalls := installs_step hs h.installs
  cases cluster_sends hs i with
  | same alive batch applyCh start =>
    have hsub := hmono alive
    refine ⟨?_, ?_, hinstalls⟩
    · rw [applyCh]; exact fun m hm => hsub m (h.sent m hm)
    · rw [batch]; exact fun m hm => hsub m (h.batch m hm)
  | collect faults n eff action sent exec node batch applyCh start =>
    have hsub := hmono (by rw [action]; simp)
    refine ⟨?_, ?_, hinstalls⟩
    · rw [applyCh]; exact fun m hm => hsub m (h.sent m hm)
    · rw [batch]; exact hcollect faults n eff action exec
  | emit m rest action held batch applyCh start =>
    have hsub := hmono (by rw [action]; simp)
    refine ⟨?_, ?_, hinstalls⟩
    · rw [applyCh]
      intro x hx
      rcases List.mem_append.mp hx with hx | hx
      · exact hsub x (h.sent x hx)
      · rw [List.mem_singleton.mp hx]
        exact hsub m (h.batch m (by rw [held]; exact List.mem_cons_self))
    · rw [batch]
      exact fun x hx => hsub x (h.batch x (by rw [held]; exact List.mem_cons_of_mem _ hx))
  | install k q action held batch applyCh start =>
    have hsub := hmono (by rw [action]; simp)
    refine ⟨?_, ?_, hinstalls⟩
    · rw [applyCh]
      intro x hx
      rcases List.mem_append.mp hx with hx | hx
      · exact hsub x (h.sent x hx)
      · rw [List.mem_singleton.mp hx]
        obtain ⟨data, index, term, hq⟩ := h.installs q (List.mem_of_getElem? held)
        rw [hq]
        exact hsnap data index term
    · rw [batch]
      exact fun x hx => hsub x (h.batch x hx)
  | restart during faults point keep store action proc =>
    refine ⟨?_, ?_, ?_⟩ <;> rw [proc] <;> exact fun _ hm => by cases hm

theorem Carries.start {cfg : Config} {P : ApplyMsg → Prop} (i : Nat) :
    Carries P ((Cluster.init cfg).procs i) := by
  refine ⟨?_, ?_, ?_⟩
  all_goals
    intro _ hm
    cases hm

/-- Everything process `i` has sent or is about to send is announced. -/
structure Streams (L : Nat → Entry) (known : Nat → Prop) (s : Servers) (i : Nat) : Prop where
  sent : ∀ m ∈ (s.cluster.procs i).applyCh, Announced L known (s.verdicts i) m
  batch : ∀ m ∈ (s.cluster.procs i).batch, Announced L known (s.verdicts i) m
  installs : ∀ q ∈ (s.cluster.procs i).installs, ∃ data index term,
    q.2.2 = .snapshot data index term

theorem streams_iff {L : Nat → Entry} {known : Nat → Prop} {s : Servers} {i : Nat} :
    Streams L known s i ↔ Carries (Announced L known (s.verdicts i)) (s.cluster.procs i) :=
  ⟨fun h => ⟨h.sent, h.batch, h.installs⟩, fun h => ⟨h.sent, h.batch, h.installs⟩⟩

theorem Streams.collected {L : Nat → Entry} {known : Nat → Prop} {s s' : Servers} {i : Nat}
    {faults : List Bool} {n : Node} {eff : Effect} (hc : Commits L known (s.cluster.node i))
    (hex : ((s.cluster.node i).withFaults faults).exec .collect = some (n, eff))
    (hv : s'.verdicts i = s.verdicts i ++ verdicts (s.cluster.node i)) :
    ∀ m ∈ eff.collected, Announced L known (s'.verdicts i) m := by
  intro m hm
  rw [collectLoop_messages (Node.exec_collect hex).1] at hm
  obtain ⟨e, he, rfl⟩ := List.mem_map.mp hm
  obtain ⟨index, hle, hat⟩ := visits_held he
  obtain ⟨hindex, hpos, heL, hknown⟩ := hc index e hle hat
  subst hindex
  refine .inr ⟨e, rfl, heL, hpos, hknown, fun cc hcc => ?_⟩
  rw [pendingEntries_withFaults] at he
  obtain ⟨v, hv', hsame⟩ := visits_verdict he hcc
  exact ⟨v, by rw [hv]; exact List.mem_append_right _ hv', hsame⟩

theorem Streams.step {cfg : Config} {L : Nat → Entry} {known : Nat → Prop} {s s' : Servers}
    {a : ServiceAction} {i : Nat} (h : Streams L known s i)
    (hc : Commits L known (s.cluster.node i)) (hs : s.step cfg a = some s') :
    Streams L known s' i := by
  rcases step_cluster hs with ⟨hnone, hsame⟩ | ⟨act, hact, hstep⟩
  · -- the raft layer rests, and so does the applier
    rcases step_verdicts hs i with ⟨hv, -⟩ | ⟨faults, rfl, -⟩ | ⟨_, _, _, _, rfl, -⟩
    · exact ⟨by rw [hsame, hv]; exact h.sent, by rw [hsame, hv]; exact h.batch,
        by rw [hsame]; exact h.installs⟩
    · cases hnone
    · cases hnone
  refine streams_iff.mpr ((streams_iff.mp h).step hstep (fun halive m hm => hm.mono ?_)
    (fun data index term => .inl ⟨data, index, term, rfl⟩) fun faults n eff action exec => ?_)
  · rcases step_verdicts hs i with ⟨hv, -⟩ | ⟨faults, -, hv⟩ | ⟨_, _, _, _, rfl, -⟩
    · rw [hv]; exact List.Subset.refl _
    · rw [hv]; exact List.subset_append_left _ _
    · exact absurd (Option.some.inj hact).symm (halive _ _ _ _)
  · subst action
    refine Streams.collected hc exec ?_
    rcases step_verdicts hs i with ⟨-, hno, -⟩ | ⟨_, -, hv⟩ | ⟨_, _, _, _, rfl, -⟩
    · rcases raftAction_cases hact with rfl | hproposal | ⟨j, hread⟩
      · exact absurd rfl (hno faults)
      · cases hproposal
      · cases hread
    · exact hv
    · cases hact

/-- The raft layer of a run of the service. -/
def raftActions (cfg : Config) (σ : Nat → Servers) (α : Nat → Option ServiceAction) (k : Nat) :
    Option Action :=
  (α k).bind ((σ k).raftAction cfg)

/-- The index is in a prefix that the ghost settles sooner or later. -/
def Known (γ : Nat → Ghost) (index : Nat) : Prop :=
  ∃ k term P, Settled (γ k) term P ∧ index ≤ P.length

section History

variable {cfg : Config} {σ : Nat → Servers} {α : Nat → Option ServiceAction} {γ : Nat → Ghost}
  {L : Nat → Entry} {Q : Finset Nat → Prop}

theorem commits_run (hstored : ∀ k i, Stored ((σ k).cluster.node i).store)
    (href : ∀ k, Refined False Q (σ k).cluster (γ k))
    (hL : ∀ k term P (m : Nat) e, Settled (γ k) term P → P[m]? = some e → L (m + 1) = e)
    (k i : Nat) : Commits L (Known γ) ((σ k).cluster.node i) := by
  intro index e hle he
  obtain ⟨P, hP⟩ := ((href k).all.node i).committed (href k).inv (hstored k i)
  have hpos := Nat.lt_of_le_of_lt (Nat.zero_le _) (((href k).all.node i).rel.entryAt_eq he).1
  have hentry := hL k _ P (index - 1) e hP.settled (hP.entry index e hle he)
  rw [Nat.sub_add_cancel hpos] at hentry
  exact ⟨entryAt_index (hstored k i).chain he, hpos, hentry.symm, k, _, P, hP.settled,
    by rw [hP.length]; exact hle⟩

end History

end Server
end DistKV
