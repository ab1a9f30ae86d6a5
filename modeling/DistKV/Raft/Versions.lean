import DistKV.Raft.Reach
import DistKV.Raft.Standing

/-!
# Careful runs go by versions of one log

In a run whose actions are all careful every process goes by a committed prefix of the log, its
version: the longest one that it, or whoever it has its snapshot from, has ever applied. After a
restart its configuration is not that of the version yet, but it counts the same quorums, and what
it applies again leads there (`GoesBy`). So the guards of `Lib/Reconfigure.lean` hold
(`Tracked.guarded`, `Tracked.licensed`), the ghost follows the run although the quorums change, and
the versions are kept up (`Tracked.step`).
-/

namespace DistKV
namespace Raft

open TermLog (Settled)
open Run (IsRun)

/-! ## The front of a log -/

/-- What a node takes for committed, next to its log and the configurations it will come to. -/
structure Front (a : Ghost) (n : Node) (P : List Entry) : Prop where
  settled : Settled a n.store.term P
  length : P.length = n.commitIndex
  between : ∀ low high, n.store.snapIndex ≤ low → high ≤ n.commitIndex →
    n.between low high = (P.take high).drop low
  confAt : ∀ l, n.lastApplied ≤ l → l ≤ n.commitIndex →
    n.confAt l = n.conf.after ((P.take l).drop n.lastApplied)

section Front

variable {q : Prop} {a a' : Ghost} {i : Nat} {n : Node} {P : List Entry}

theorem between_front (hchain : Chain n.store.snapIndex n.store.log)
    (hlog : P.drop n.store.snapIndex <+: n.store.log) {low high : Nat}
    (hlow : n.store.snapIndex ≤ low) (hhigh : high ≤ P.length) :
    n.between low high = (P.take high).drop low := by
  have hlen : high - n.store.snapIndex ≤ (P.drop n.store.snapIndex).length := by
    rw [List.length_drop]
    omega
  rw [Node.between, hchain.filter_index, ← TermLog.take_eq_of_isPrefix hlog hlen, List.take_drop,
    List.drop_drop]
  rcases Nat.le_total n.store.snapIndex high with hle | hle
  · rw [Nat.add_sub_cancel' hle, Nat.add_sub_cancel' hlow]
  · rw [List.drop_of_length_le (by rw [List.length_take]; omega),
      List.drop_of_length_le (by rw [List.length_take]; omega)]

theorem confAt_front (hlog : P.drop n.store.snapIndex <+: n.store.log)
    (hsnap : n.store.snapIndex ≤ n.lastApplied) {l : Nat} (hlow : n.lastApplied ≤ l)
    (hhigh : l ≤ P.length) : n.confAt l = n.conf.after ((P.take l).drop n.lastApplied) := by
  induction l, hlow using Nat.le_induction with
  | base =>
    rw [n.confAt_applied, List.drop_of_length_le (List.length_take_le _ _)]
    rfl
  | succ l hlow ih =>
    have hlt : l < P.length := hhigh
    have hheld : n.store.entryAt (l + 1) = some P[l] := by
      have hpos : (P.drop n.store.snapIndex)[l - n.store.snapIndex]? = some P[l] := by
        rw [List.getElem?_drop, Nat.add_sub_cancel' (Nat.le_trans hsnap hlow)]
        exact List.getElem?_eq_getElem hlt
      rw [entryAt_above (Nat.lt_succ_of_le (Nat.le_trans hsnap hlow))]
      have hsub : l + 1 - n.store.snapIndex - 1 = l - n.store.snapIndex := by omega
      rw [hsub]
      exact TermLog.getElem?_mono hlog hpos
    have hahead : n.ahead (l + 1) = P[l] := by
      rw [Node.ahead, if_neg (Nat.not_le.mpr (Nat.lt_succ_of_le hlow)), hheld]
      rfl
    have hstep : n.confAt (l + 1) = (n.confAt l).absorb P[l] := by
      rw [Node.confAt, foldConf, hahead]
      rfl
    rw [hstep, ih (Nat.le_of_lt hlt), List.take_succ_eq_append_getElem hlt,
      List.drop_append_of_le_length (by rw [List.length_take]; omega), ConfState.after_append]
    rfl

theorem NodeRel.front (h : NodeRel q a i n) (hs : Stored n.store)
    (hsnap : n.store.snapIndex ≤ n.lastApplied) : ∃ P, Front a n P := by
  obtain ⟨-, P, hP, hlen, hlog⟩ := h.commit
  refine ⟨P, hP, hlen, fun low high hlow hhigh => ?_, fun l hlow hhigh => ?_⟩
  · exact between_front hs.chain hlog hlow (hlen.symm ▸ hhigh)
  · exact confAt_front hlog hsnap hlow (hlen.symm ▸ hhigh)

end Front

/-! ## Versions -/

section Lists

variable {boot c : ConfState} {ver P : List Entry} {low l : Nat}

theorem drop_split (h : low ≤ l) (L : List Entry) : L.drop low = (L.take l).drop low ++ L.drop l := by
  conv => lhs; rw [← List.take_append_drop l L]
  rcases Nat.le_total l L.length with hl | hl
  · rw [List.drop_append_of_le_length (by rw [List.length_take]; omega)]
  · rw [List.drop_of_length_le hl, List.append_nil, List.append_nil]

/-- A node that goes by `ver` applies the committed prefix `P` up to `l`. -/
theorem Resumes.advance (h : Resumes (boot.after ver) c (ver.drop low)) (hver : low ≤ ver.length)
    (hlow : low ≤ l) (hl : l ≤ P.length) (hagree : ver <+: P ∨ P <+: ver) :
    ∃ ver', (ver' = ver ∨ ver' <+: P) ∧ ver'.length = max ver.length l ∧
      Resumes (boot.after ver') (c.after ((P.take l).drop low)) (ver'.drop l) := by
  rcases Nat.le_total l ver.length with hle | hle
  · refine ⟨ver, .inl rfl, (Nat.max_eq_left hle).symm, ?_⟩
    have htake : P.take l = ver.take l := by
      rcases hagree with hp | hp
      · exact (TermLog.take_eq_of_isPrefix hp hle).symm
      · exact TermLog.take_eq_of_isPrefix hp hl
    rw [htake]
    refine Resumes.skip ?_
    rw [← drop_split hlow]
    exact h
  · -- it applies all of its version, and then what is new
    have hp : ver <+: P.take l := by
      refine List.prefix_take_iff.mpr ⟨?_, hle⟩
      rcases hagree with hp | hp
      · exact hp
      · rw [hp.eq_of_length_le (Nat.le_trans hle hl)]
    obtain ⟨rest, hrest⟩ := hp
    refine ⟨P.take l, .inr (List.take_prefix _ _), ?_, ?_⟩
    · rw [List.length_take, Nat.min_eq_left hl, Nat.max_eq_right hle]
    · rw [List.drop_of_length_le (List.length_take_le _ _), ← hrest,
        List.drop_append_of_le_length hver, ConfState.after_append, ConfState.after_append, h.done]
      rfl

/-- What can be applied again may be still to be applied. -/
theorem Resumes.again (h : Resumes (boot.after ver) c (ver.drop l)) (hboot : boot.Formed)
    (hlow : low ≤ l) (hre : c.Replays (((ver.take l).drop low).filterMap Entry.change?)) :
    Resumes (boot.after ver) c (ver.drop low) := by
  rw [drop_split hlow]
  exact (hre.resumes (h.alike (hboot.after ver)).formed).trans h (hboot.after ver)

end Lists

/-- Node `i` goes by the version `P`. -/
structure GoesBy (boot : ConfState) (a : Ghost) (P : List Entry) (n : Node) : Prop where
  applied : n.lastApplied ≤ P.length
  conf : Resumes (boot.after P) n.conf (P.drop n.lastApplied)
  stands : n.Stands
  /-- A candidate had its version, and what it takes for committed, before its term. -/
  early : n.role = .candidate → ∃ U < n.store.term, Settled a U P ∧
    ∃ F, Settled a U F ∧ F.length = n.commitIndex

/-- What the receiver of a snapshot can go by. -/
structure Conveys (boot : ConfState) (a : Ghost) (len : Nat) (req : InstallSnapshotRequest)
    (P : List Entry) : Prop where
  settled : Settled a req.term P
  length : P.length = len
  index : req.lastIncludedIndex ≤ P.length
  conf : Resumes (boot.after P) req.confState (P.drop req.lastIncludedIndex)

/-- The cluster next to the ghost and the versions. -/
structure Tracked (boot : ConfState) (c : Cluster) (r : Reach) (a : Ghost) (ver : Nat → List Entry) :
    Prop where
  refined : Refined False (fun _ => True) c a
  configured : TermLog.Configured (voting boot) a ver
  node : ∀ i, GoesBy boot a (ver i) (c.node i)
  reach : ∀ i, (ver i).length = r.node i
  call : ∀ (k : Nat) (call : Call) req, c.calls[k]? = some call → call.req.snapshot? = some req →
    ∃ P, Conveys boot a (r.call k) req P

section GoesBy

variable {boot : ConfState} {a a' : Ghost} {P P' F : List Entry} {n m : Node} {op : NodeOp}
  {eff : Effect}

theorem GoesBy.mono (h : GoesBy boot a P n) (he : TermLog.Ext a a') : GoesBy boot a' P n := by
  refine { h with early := fun hc => ?_ }
  obtain ⟨U, hU, hP, F, hF, hlen⟩ := h.early hc
  exact ⟨U, hU, hP.mono he (Nat.le_refl _), F, hF.mono he (Nat.le_refl _), hlen⟩

theorem Conveys.mono {len : Nat} {req : InstallSnapshotRequest} (h : Conveys boot a len req P)
    (he : TermLog.Ext a a') : Conveys boot a' len req P :=
  { h with settled := h.settled.mono he (Nat.le_refl _) }

theorem GoesBy.alike (h : GoesBy boot a P n) (hboot : boot.Formed) : n.conf.Alike (boot.after P) :=
  h.conf.alike (hboot.after P)

/-- A section moves a candidate to a version that consists of what it had before. -/
theorem GoesBy.early_exec (h : GoesBy boot a P n) (hi : GhostInv a)
    (hver : Settled a n.store.term P) (hfront : Front a n F) (hex : n.exec op = some (m, eff))
    (he : TermLog.Ext a a') (hnew : P' = P ∨ P' <+: F) (hm : m.role = .candidate) :
    ∃ U < m.store.term, Settled a' U P' ∧ ∃ F, Settled a' U F ∧ F.length = m.commitIndex := by
  have hcommit := Node.exec_rests hex hm
  have hdone : ∀ U, U < m.store.term → Settled a U P → Settled a U F →
      ∃ U < m.store.term, Settled a' U P' ∧ ∃ F, Settled a' U F ∧ F.length = m.commitIndex := by
    intro U hU hP hF
    have hP' : Settled a U P' := by
      rcases hnew with rfl | hp
      · exact hP
      · exact hF.restrict hp
    exact ⟨U, hU, hP'.mono he (Nat.le_refl _), F, hF.mono he (Nat.le_refl _),
      hfront.length.trans hcommit.symm⟩
  rcases Node.exec_candidate_term hex hm with ⟨hn, hterm⟩ | hlt
  · obtain ⟨U, hU, hP, F', hF', hlen⟩ := h.early hn
    refine hdone U (hterm ▸ hU) hP ?_
    have hle := hi.settled_le hfront.settled hF' (by rw [hlen, hfront.length])
    rw [hle.eq_of_length_le (by rw [hlen, hfront.length])]
    exact hF'
  · exact hdone _ hlt hver hfront.settled

end GoesBy

/-! ## The guards hold -/

/-- What process `i` counts, and what is asked of a change it writes. -/
def watch (boot : ConfState) (c : Cluster) (ver : Nat → List Entry) (i : Nat) : GhostGuard where
  quorum := (c.node i).Counting
  entry L e := ((voting boot).change e → (voting boot).Below L L.length (ver i).length) ∧
    ((voting boot).major e → ∀ m, (voting boot).member (ver m) m ∨ (voting boot).member L m →
      (voting boot).Below L L.length (ver m).length)

section Guards

variable {boot : ConfState} {cfg : Config} {c c' : Cluster} {r : Reach} {a a' : Ghost}
  {ver : Nat → List Entry} {i : Nat}

theorem watch_permits : Permits (watch boot c ver i) := by
  intro L e hnormal
  have hplain : e.change? = none := by
    unfold Entry.change?
    rw [hnormal]
  refine ⟨fun hchange => absurd hplain hchange, fun hmajor => ?_⟩
  obtain ⟨cc, hcc, -⟩ := hmajor
  rw [hplain] at hcc
  cases hcc

section

variable (hboot : boot.Formed) (h : Tracked boot c r a ver) (hid : ∀ i, (c.node i).id = i)
include hboot h hid

theorem Tracked.member (hrole : (c.node i).role ≠ .follower) : (voting boot).member (ver i) i := by
  have hin := (h.node i).stands hrole
  rw [((h.node i).alike hboot).voters, hid] at hin
  exact hin

omit hboot hid in
theorem Tracked.term (i : Nat) : a.term i = (c.node i).store.term := (h.refined.all.node i).rel.term

omit hboot hid in
theorem Tracked.version (i : Nat) : Settled a (c.node i).store.term (ver i) := by
  rw [← h.term i]
  exact h.configured.version i

omit hboot hid in
/-- Its version was committed before the term in which a process stands or leads. -/
theorem Tracked.current (hrole : (c.node i).role ≠ .follower) : TermLog.Current a ver i := by
  cases hr : (c.node i).role with
  | follower => exact absurd hr hrole
  | candidate =>
    obtain ⟨U, hU, hP, -⟩ := (h.node i).early hr
    exact ⟨U, hP, .inl (by rw [h.term]; exact hU)⟩
  | leader =>
    refine ⟨a.term i, h.configured.version i, .inr ⟨Nat.le_refl _, a.log i, ?_⟩⟩
    rw [h.term]
    exact ((h.refined.all.node i).leader hr).own

theorem Tracked.guarded (i : Nat) :
    TermLog.Guarded (voting boot) ver i (watch boot c ver i) a where
  quorum _ hV := ⟨((h.node i).alike hboot).counts (hboot.after _) hV.2, h.member hboot hid hV.1,
    h.current hV.1⟩
  entry _ _ he := he.1
  major _ _ he := he.2

omit hboot h hid in
theorem Node.ChangesWithin.below {q : Prop} {n : Node} (hrel : Rel q a i n.store.view)
    (hchain : Chain n.store.snapIndex n.store.log) {k : Nat} (hw : n.ChangesWithin k) :
    (voting boot).Below (a.log i) (a.log i).length k := by
  intro j e _ he hchange
  rcases Nat.lt_or_ge j n.store.snapIndex with hlt | hge
  · exact Nat.lt_of_lt_of_le hlt hw.1
  have hpos := hrel.entry (j - n.store.snapIndex)
  have hj : n.store.snapIndex + (j - n.store.snapIndex) = j := Nat.add_sub_cancel' hge
  have hlog : n.store.log[j - n.store.snapIndex]? = some e := by
    refine hpos.symm.trans ?_
    show (a.log i)[n.store.snapIndex + (j - n.store.snapIndex)]? = some e
    rw [hj]
    exact he
  have hindex := hchain _ e hlog
  have hle := hw.2 e (List.mem_of_getElem? hlog) hchange
  omega

omit hboot hid in
/-- A leader that has applied the changes of its log goes by the whole log. -/
theorem Tracked.conf_log (hl : (c.node i).role = .leader)
    (hbelow : (voting boot).Below (a.log i) (a.log i).length (c.node i).lastApplied) :
    boot.after (a.log i) = (c.node i).conf := by
  have hown := ((h.refined.all.node i).leader hl).own
  obtain ⟨rest, hrest⟩ := h.refined.inv.settled (h.version i) (Nat.le_refl _) hown
  have happlied := (h.node i).applied
  have hplain : ∀ e ∈ (ver i).drop (c.node i).lastApplied ++ rest, e.change? = none := by
    rw [← List.drop_append_of_le_length happlied, hrest]
    intro e he
    by_contra hchange
    obtain ⟨j, hj⟩ := List.getElem?_of_mem he
    rw [List.getElem?_drop] at hj
    have hlt := hbelow _ e (List.getElem?_eq_some_iff.mp hj).1 hj hchange
    omega
  have hdone := (h.node i).conf.done
  rw [ConfState.after_plain fun e he => hplain e (List.mem_append_left _ he)] at hdone
  rw [← hrest, ConfState.after_append,
    ConfState.after_plain fun e he => hplain e (List.mem_append_right _ he), hdone]

/-- **What a careful action counts and writes is licensed.** -/
theorem Tracked.licensed {act : Action} (ho : Careful cfg c r act)
    (hstored : ∀ i, Stored (c.node i).store) {e : Event} {faults : List Bool} {op : NodeOp}
    (hsec : act.section? = some (e, faults)) (hres : c.resolve e = some (i, op)) : Licensed (watch boot c ver i) a i (c.node i) op := by
  have hC := voting_lawful hboot
  have hcounts : ∀ {V}, (c.node i).Counting V → (voting boot).quorum (ver i) V := fun hV =>
    ((h.node i).alike hboot).counts (hboot.after _) hV.2
  refine ⟨fun hl V hV => ⟨hV, ?_⟩, fun hc V hV => ?_, fun cc hop haccept => ?_⟩
  · exact h.configured.overtaken hC h.refined.inv (h.member hboot hid hV.1) (h.version i)
      (Nat.le_refl _) (hcounts hV)
  · obtain ⟨U, hU, hP, -⟩ := (h.node i).early hc
    have hm := h.member hboot hid hV.1
    exact ⟨hV, fun c L hl => h.configured.meets_ballot hC h.refined.inv hm hP hU hl (hcounts hV),
      h.configured.informed hC h.refined.inv hm hP hU (hcounts hV)⟩
  · subst hop
    have hevent : e = .proposeConfChange i cc := by
      cases resolve_cases hres
      rfl
    have hrel := (h.refined.all.node i).rel
    have hbelow : ∀ {k}, (c.node i).ChangesWithin k →
        (voting boot).Below (a.log i) (a.log i).length k := fun hw =>
      hw.below hrel (hstored i).chain
    have hquiet := hbelow (ho.quiet (e, faults) hsec i cc hevent haccept)
    have hown := hquiet.mono (h.node i).applied
    refine ⟨fun _ => hown, fun hmajor m hm => ?_⟩
    obtain ⟨cc', hcc', htype⟩ := hmajor
    obtain rfl : cc = cc' := Option.some.inj hcc'
    rw [h.reach m]
    refine hbelow (ho.known (e, faults) hsec i cc hevent haccept htype m (hm.imp ?_ ?_))
    · intro hin
      rw [((h.node m).alike hboot).voters]
      exact hin
    · intro hin
      rw [← h.conf_log haccept.1 hquiet]
      exact hin

end

end Guards

/-! ## Installations -/

section Installations

variable {c : Cluster} {i : Nat} {e : Event} {op : NodeOp} {x : Nat × InstallSnapshotRequest}

theorem Request.snapshot?_some {req : Request} {snap : InstallSnapshotRequest}
    (h : req.snapshot? = some snap) : req = .installSnapshot snap := by
  cases req with
  | installSnapshot r => rw [Option.some.inj h]
  | _ => cases h

theorem installs_some (h : c.installs i e = some x) : ∃ call, e = .deliver x.1 ∧
    c.calls[x.1]? = some call ∧ call.dest = i ∧ call.req = .installSnapshot x.2 ∧
    (c.node i).store.term ≤ x.2.term ∧ (c.node i).store.snapIndex < x.2.lastIncludedIndex := by
  unfold Cluster.installs at h
  split at h
  swap
  · cases h
  obtain ⟨call, hcall, h⟩ := Option.bind_eq_some_iff.mp h
  obtain ⟨req, hreq, h⟩ := Option.bind_eq_some_iff.mp h
  obtain ⟨⟨hdest, hterm, habove⟩, h⟩ := Option.ite_none_right_eq_some.mp h
  obtain rfl := Option.some.inj h
  exact ⟨call, rfl, hcall, hdest, Request.snapshot?_some hreq, hterm, habove⟩

theorem installs_op (hres : c.resolve e = some (i, op)) (h : c.installs i e = some x) :
    op = .handle (.installSnapshot x.2) := by
  obtain ⟨call, rfl, hcall, hdest, hreq, -⟩ := installs_some h
  obtain ⟨call', hcall', -, hop⟩ := resolve_deliver hres
  rw [hcall, Option.some.injEq] at hcall'
  rw [hop, ← hcall', hreq]

theorem installs_none (hres : c.resolve e = some (i, op))
    (hop : ∀ req, op ≠ .handle (.installSnapshot req)) : c.installs i e = none := by
  cases h : c.installs i e with
  | none => rfl
  | some x => exact absurd (installs_op hres h) (hop x.2)

theorem installs_handle {req : InstallSnapshotRequest}
    (hres : c.resolve e = some (i, .handle (.installSnapshot req)))
    (hterm : (c.node i).store.term ≤ req.term)
    (habove : (c.node i).store.snapIndex < req.lastIncludedIndex) :
    ∃ k call, c.calls[k]? = some call ∧ call.req.snapshot? = some req ∧
      c.installs i e = some (k, req) := by
  obtain ⟨k, call, rfl, hcall, hdest, hreq⟩ := resolve_handle hres
  have hsnap : call.req.snapshot? = some req := by rw [hreq]; rfl
  refine ⟨k, call, hcall, hsnap, ?_⟩
  simp only [Cluster.installs, hcall, Option.bind_some, hsnap]
  exact if_pos ⟨hdest, hterm, habove⟩

/-- An event is an installation for the process it is for. -/
theorem installs_other (hres : c.resolve e = some (i, op)) {j : Nat} (hj : j ≠ i) :
    c.installs j e = none := by
  cases hx : c.installs j e with
  | none => rfl
  | some x =>
    obtain ⟨call, rfl, hcall, hdest, -⟩ := installs_some hx
    obtain ⟨call', hcall', rfl, -⟩ := resolve_deliver hres
    rw [hcall, Option.some.injEq] at hcall'
    exact absurd (hcall' ▸ hdest.symm) hj

end Installations

/-! ## One action -/

/-- What holds of every cluster in a run without storage failures. -/
structure Sound (cfg : Config) (c : Cluster) : Prop where
  clean : All (clean cfg) c
  applied : ∀ i, (c.node i).store.snapIndex ≤ (c.node i).lastApplied

theorem Sound.stored {cfg : Config} {c : Cluster} (h : Sound cfg c) (i : Nat) :
    Stored (c.node i).store :=
  (h.clean.node i).2.store.1.stored

theorem sound_run {cfg : Config} {σ : Nat → Cluster} {α : Nat → Option Action}
    (hrun : IsRun (Cluster.step cfg) (Cluster.init cfg) σ α)
    (hfree : ∀ k act, α k = some act → act.FaultFree) (k : Nat) : Sound cfg (σ k) where
  clean := clean_run hrun hfree k
  applied i := ((appliedRule cfg).run hrun (fun _ _ _ _ _ _ _ _ _ => trivial) k).node i
    (open_run hrun hfree k i)

/-- The applier comes to `commitIndex`, with the configuration the log says. -/
theorem Node.collect_conf {n m : Node} {eff : Effect} (hsnap : n.store.snapIndex ≤ n.lastApplied)
    (hle : n.lastApplied ≤ n.commitIndex) (hex : n.exec .collect = some (m, eff)) :
    m.lastApplied = n.commitIndex ∧ m.conf = n.confAt n.commitIndex := by
  have hloop := (Node.exec_collect hex).1
  have hreach := collectLoop_reaches hloop hsnap hle (Nat.le_refl _)
  have hstart : n.confAt n.lastApplied = n.conf := n.confAt_applied
  have hconf : m.conf = foldConf n.conf n.ahead m.lastApplied := by
    refine collectLoop_conf hloop hsnap (fun index e hlow _ he => ?_) hstart.symm
    rw [Node.ahead, if_neg (Nat.not_le.mpr hlow), he]
    rfl
  exact ⟨hreach, by rw [hconf, hreach]; rfl⟩

/-- What the event does to the configuration of process `i` and to what it has applied. -/
inductive Applies (c : Cluster) (i : Nat) (e : Event) (op : NodeOp) (m : Node) : Prop
  | idle (conf : m.conf = (c.node i).conf) (applied : m.lastApplied = (c.node i).lastApplied)
      (none : c.installs i e = none) (quiet : op ≠ .collect)
  | collect (runs : op = .collect) (conf : m.conf = (c.node i).confAt (c.node i).commitIndex)
      (applied : m.lastApplied = (c.node i).commitIndex) (none : c.installs i e = none)
  | install (x : Nat × InstallSnapshotRequest) (installs : c.installs i e = some x)
      (conf : m.conf = x.2.confState) (applied : m.lastApplied = x.2.lastIncludedIndex)
      (reached : x.2.term ≤ m.store.term) (role : m.role = .follower)

theorem exec_applies {cfg : Config} {c : Cluster} {i : Nat} {e : Event} {op : NodeOp} {m : Node}
    {eff : Effect} (hs : Sound cfg c) (hle : (c.node i).lastApplied ≤ (c.node i).commitIndex)
    (hres : c.resolve e = some (i, op))
    (hex : ((c.node i).withFaults []).exec op = some (m, eff)) : Applies c i e op m := by
  by_cases hc : op = .collect
  · subst hc
    obtain ⟨happlied, hconf⟩ :=
      Node.collect_conf (n := (c.node i).withFaults []) (hs.applied i) hle hex
    exact .collect rfl hconf happlied (installs_none hres (by simp))
  by_cases hi : ∃ req, op = .handle (.installSnapshot req)
  swap
  · have hframe := Node.exec_frame hex hc fun req hreq => hi ⟨req, hreq⟩
    exact .idle hframe.conf hframe.applied (installs_none hres fun req hreq => hi ⟨req, hreq⟩) hc
  obtain ⟨req, rfl⟩ := hi
  have hopen := (hs.clean.node i).2.withFaults.exec_open hex
  have hlock := Node.exec_unlocked hex
  have hinst := Node.exec_install hex
  generalize eff.install = msg at hinst
  cases hinst with
  | refused frame _ unmet =>
    refine .idle frame.conf frame.applied ?_ hc
    cases hx : c.installs i e with
    | none => rfl
    | some x =>
      have hop := installs_op hres hx
      obtain ⟨call, -, -, -, -, hmet⟩ := installs_some hx
      obtain rfl : req = x.2 := Request.installSnapshot.inj (NodeOp.handle.inj hop)
      exact absurd hmet unmet
  | failed locked =>
    rw [locked] at hopen
    cases hopen
  | installed term above _ conf _ applied reached =>
    obtain ⟨k, call, -, -, hx⟩ := installs_handle hres term above
    refine .install (k, req) hx conf applied reached ?_
    simp only [Node.exec, hlock, Bool.false_eq_true, if_false] at hex
    obtain ⟨rfl, -⟩ := Prod.mk.inj (Option.some.inj hex)
    rcases Node.handleInstallSnapshot_role (n := (c.node i).withFaults []) req with hf | ⟨hlt, -⟩
    · exact hf
    · exact absurd hlt (Nat.not_lt.mpr term)

section Step

variable {boot : ConfState} {cfg : Config} {c c' : Cluster} {r : Reach} {a a' : Ghost}
  {ver : Nat → List Entry} {i : Nat} {P : List Entry} {n m : Node} {e : Event} {op : NodeOp}
  {eff : Effect}

theorem GoesBy.withFaults (h : GoesBy boot a P n) : GoesBy boot a P (n.withFaults []) :=
  ⟨h.applied, h.conf, h.stands, h.early⟩

theorem Front.withFaults (h : Front a n P) : Front a (n.withFaults []) P :=
  ⟨h.settled, h.length, h.between, h.confAt⟩

/-- The version of process `i` after an action, and how far it has come by then. -/
structure Advances (boot : ConfState) (a : Ghost) (ver : List Entry) (len : Nat) (m : Node)
    (P : List Entry) : Prop where
  settled : Settled a m.store.term P
  longer : ver.length ≤ P.length
  length : P.length = len
  goes : GoesBy boot a P m

theorem Tracked.front (h : Tracked boot c r a ver) (hs : Sound cfg c) (i : Nat) :
    ∃ F, Front a (c.node i) F :=
  (h.refined.all.node i).front (hs.stored i) (hs.applied i)

/-- **A section** of process `i`. -/
theorem Tracked.section (h : Tracked boot c r a ver) (hs : Sound cfg c)
    (ho : Careful cfg c r (.run e [])) (hres : c.resolve e = some (i, op))
    (hex : ((c.node i).withFaults []).exec op = some (m, eff)) (he : TermLog.Ext a a') :
    ∃ P, Advances boot a' (ver i)
      (max (r.node i) (max m.lastApplied (((c.installs i e).map fun x => r.call x.1).getD 0))) m P := by
  obtain ⟨F, hF⟩ := h.front hs i
  have hle : (c.node i).lastApplied ≤ (c.node i).commitIndex := (h.refined.all.node i).applied
  have hgoes := (h.node i).withFaults
  have hterm : (c.node i).store.term ≤ m.store.term :=
    (Node.exec_store hex).keep (P := fun s => (c.node i).store.term ≤ s.term) (Nat.le_refl _)
      fun hstep hle => Nat.le_trans hle hstep.grows.1
  have hstands : m.Stands := Node.exec_stands hex hgoes.stands
  have hreach := h.reach i
  have happ := (h.node i).applied
  cases exec_applies hs hle hres hex with
  | idle conf applied none _ =>
    refine ⟨ver i, (h.version i).mono he hterm, Nat.le_refl _, ?_, ?_, ?_, hstands, fun hm => ?_⟩
    · rw [none, applied, Option.map_none, Option.getD_none]
      omega
    · rw [applied]
      exact happ
    · rw [conf, applied]
      exact (h.node i).conf
    · exact hgoes.early_exec h.refined.inv (h.version i) hF.withFaults hex he (.inl rfl) hm
  | collect runs conf applied none =>
    have hagree := h.refined.inv.settled_agree (h.version i) hF.settled
    obtain ⟨P, hP, hlen, hresumes⟩ :=
      (h.node i).conf.advance happ hle (Nat.le_of_eq hF.length.symm) hagree
    have hPset : Settled a (c.node i).store.term P := by
      rcases hP with rfl | hp
      · exact h.version i
      · exact hF.settled.restrict hp
    refine ⟨P, hPset.mono he hterm, by omega, ?_, by omega, ?_, hstands, fun hm => ?_⟩
    · rw [none, applied, Option.map_none, Option.getD_none]
      omega
    · rw [conf, applied, hF.confAt _ hle (Nat.le_refl _)]
      exact hresumes
    · exact hgoes.early_exec h.refined.inv (h.version i) hF.withFaults hex he hP hm
  | install x hx conf applied reached role =>
    obtain ⟨call, -, hcall, -, hreq, -⟩ := installs_some hx
    obtain ⟨P, hP⟩ := h.call x.1 call x.2 hcall (by rw [hreq]; rfl)
    have hahead := ho.ahead (e, []) rfl i x hx
    have hlen := hP.length
    have hindex := hP.index
    refine ⟨P, hP.settled.mono he reached, by omega, ?_, ?_, ?_, hstands, fun hm => ?_⟩
    · rw [hx, applied]
      show P.length = max (r.node i) (max x.2.lastIncludedIndex (r.call x.1))
      omega
    · rw [applied]
      exact hindex
    · rw [conf, applied]
      exact hP.conf
    · -- whoever installs a snapshot follows
      rw [role] at hm
      cases hm

/-- What a restart finds, if it is not the snapshot that was being installed. -/
theorem Finds.applied_before {index t : Nat} {conf : ConfState} (h : Finds n op index t conf)
    (hsnap : n.store.snapIndex ≤ n.lastApplied) (hle : n.lastApplied ≤ n.commitIndex) :
    (n.store.snapIndex ≤ index ∧ index ≤ n.lastApplied ∧
      ∃ l, n.lastApplied ≤ l ∧ l ≤ n.commitIndex ∧ n.confAt l = conf) ∨
    ∃ req, op = .handle (.installSnapshot req) ∧ index = req.lastIncludedIndex ∧
      n.store.term ≤ req.term ∧ n.store.snapIndex < req.lastIncludedIndex ∧ req.term ≤ t := by
  cases h with
  | same =>
    exact .inl ⟨Nat.le_refl _, hsnap, n.lastApplied, Nat.le_refl _, hle, n.confAt_applied⟩
  | applied _ l request low high => exact .inl ⟨Nat.le_refl _, hsnap, l, low, high, rfl⟩
  | compacted _ _ data request above applied =>
    exact .inl ⟨Nat.le_of_lt above, applied, n.lastApplied, Nat.le_refl _, hle, n.confAt_applied⟩
  | installed _ req _ request term above reached =>
    exact .inr ⟨req, request, rfl, term, above, reached⟩

/-- The term of a snapshot gets to the disk before the snapshot does. -/
theorem Finds.reached {index t : Nat} {conf : ConfState} {req : InstallSnapshotRequest}
    (h : Finds n (.handle (.installSnapshot req)) index t conf) (habove : n.store.snapIndex < index) :
    req.term ≤ t := by
  cases h with
  | same => exact absurd habove (Nat.lt_irrefl _)
  | applied _ l request => cases request
  | compacted _ _ data request => cases request
  | installed _ req' _ request term above reached =>
    obtain rfl := Request.installSnapshot.inj (NodeOp.handle.inj request)
    exact reached

/-- Process `i` starts again above `index`, with a configuration it has been at. -/
theorem Tracked.resume (h : Tracked boot c r a ver) (hboot : boot.Formed) (hs : Sound cfg c)
    {store : DiskStorage} {l : Nat} (hlow : (c.node i).store.snapIndex ≤ store.snapIndex)
    (hindex : store.snapIndex ≤ (c.node i).lastApplied) (hl : (c.node i).lastApplied ≤ l)
    (hhigh : l ≤ (c.node i).commitIndex) (hconf : (c.node i).confAt l = store.conf)
    (hre : (c.node i).Replays store.snapIndex ((c.node i).appliedAs store.conf))
    (he : TermLog.Ext a a') (hterm : (c.node i).store.term ≤ store.term) :
    ∃ P, Advances boot a' (ver i) (max (r.node i) ((c.node i).appliedAs store.conf))
      (Node.newNode i cfg.addrs store) P := by
  obtain ⟨F, hF⟩ := h.front hs i
  obtain ⟨hmin, hmax, hat⟩ := Node.appliedAs_spec hl hhigh hconf
  unfold Node.Replays at hre
  generalize (c.node i).appliedAs store.conf = k at hmin hmax hat hre ⊢
  have hagree := h.refined.inv.settled_agree (h.version i) hF.settled
  have hk : k ≤ F.length := hF.length.symm ▸ hmax
  obtain ⟨P, hP, hlen, hresumes⟩ := (h.node i).conf.advance (h.node i).applied hmin hk hagree
  have hPset : Settled a (c.node i).store.term P := by
    rcases hP with rfl | hp
    · exact h.version i
    · exact hF.settled.restrict hp
  rw [← hF.confAt k hmin hmax, hat] at hresumes
  -- what lies between the two indices is the same in the log and in the version
  have hbetween : (c.node i).between store.snapIndex k = (P.take k).drop store.snapIndex := by
    have htake : F.take k = P.take k := by
      rcases h.refined.inv.settled_agree hF.settled hPset with hp | hp
      · exact TermLog.take_eq_of_isPrefix hp hk
      · exact (TermLog.take_eq_of_isPrefix hp (by omega)).symm
    rw [hF.between _ _ hlow hmax, htake]
  rw [hat, hbetween] at hre
  have hreach := h.reach i
  refine ⟨P, hPset.mono he hterm, by omega, by omega, ?_, ?_, fun hr => absurd rfl hr,
    fun hr => by cases hr⟩
  · show store.snapIndex ≤ P.length
    omega
  · exact hresumes.again hboot (Nat.le_trans hindex hmin) hre

/-- **A restart** of process `i`. -/
theorem Tracked.restart (h : Tracked boot c r a ver) (hboot : boot.Formed) (hs : Sound cfg c)
    {during : Option Event} {faults : List Bool} {point keep : Nat} {files : Files}
    {store : DiskStorage} (ho : Careful cfg c r (.restart i during faults point keep))
    (hf : c.filesAt i during faults point = some files)
    (hopen : DiskStorage.openDiskStorage (files.crash keep) cfg.peers = some store)
    (he : TermLog.Ext a a') (hterm : (c.node i).store.term ≤ store.term) :
    ∃ P, Advances boot a' (ver i)
      (max (r.node i) (match c.cutInstall i during store.snapIndex with
        | some x => r.call x.1
        | none => (c.node i).appliedAs store.conf)) (Node.newNode i cfg.addrs store) P := by
  have hle : (c.node i).lastApplied ≤ (c.node i).commitIndex := (h.refined.all.node i).applied
  have hmem : store ∈ c.recovers cfg i during faults point keep := by
    rw [Cluster.recovers, hf]
    exact hopen
  have hfound := recovered_conf hs.clean (hs.applied i) hle ho.free hf hopen
  cases hx : c.cutInstall i during store.snapIndex with
  | none =>
    have hre := ho.replays i during faults point keep rfl store hmem hx
    rcases hfound with ⟨hindex, hconf⟩ | ⟨e, hd, op, hres, hfinds⟩
    · refine h.resume hboot hs (Nat.le_of_eq hindex.symm) (hindex ▸ hs.applied i) (Nat.le_refl _) hle ?_
        hre he hterm
      rw [Node.confAt_applied, hconf]
    rcases hfinds.applied_before (hs.applied i) hle with
      ⟨hlow, hindex, l, hl, hhigh, hconf⟩ | ⟨req, rfl, hindex, hreq, habove, -⟩
    · exact h.resume hboot hs hlow hindex hl hhigh hconf hre he hterm
    · -- then the installation would have been seen
      obtain ⟨k, call, -, -, hinst⟩ := installs_handle hres hreq habove
      rw [Option.mem_def.mp hd, Cluster.cutInstall, Option.bind_some, hinst, hindex] at hx
      simp at hx
  | some x =>
    obtain ⟨hbind, hindex⟩ := Option.filter_eq_some_iff.mp hx
    obtain ⟨e, hd, hinst⟩ := Option.bind_eq_some_iff.mp hbind
    have hindex' : store.snapIndex = x.2.lastIncludedIndex := of_decide_eq_true hindex
    obtain ⟨call, hdeliver, hcall, hdest, hreq, hold, habove⟩ := installs_some hinst
    have hsec : (Action.restart i during faults point keep).section? = some (e, faults) := by
      rw [hd]
      rfl
    have hahead := ho.ahead (e, faults) hsec i x hinst
    have hconf := ho.whole i during faults point keep rfl store hmem x hx
    obtain ⟨P, hP⟩ := h.call x.1 call x.2 hcall (by rw [hreq]; rfl)
    have hreached : x.2.term ≤ store.term := by
      rcases hfound with ⟨hsame, -⟩ | ⟨e', hd', op, hres, hfinds⟩
      · omega
      obtain rfl : e = e' := Option.some.inj (hd.symm.trans hd')
      rw [installs_op hres hinst] at hfinds
      exact hfinds.reached (by omega)
    have hreach := h.reach i
    have hlen := hP.length
    have hin := hP.index
    refine ⟨P, hP.settled.mono he hreached, by omega, ?_, ?_, ?_, fun hr => absurd rfl hr,
      fun hr => by cases hr⟩
    · simp only
      omega
    · show store.snapIndex ≤ P.length
      omega
    · show Resumes (boot.after P) store.conf (P.drop store.snapIndex)
      rw [hconf, hindex']
      exact hP.conf

/-! ## What is sent -/

/-- A section that sends something applies nothing, installs nothing and compacts nothing. -/
theorem Node.exec_sends_op (hex : n.exec op = some (m, eff)) {sd : Send} (hsd : sd ∈ eff.sends) :
    op ≠ .collect ∧ (∀ req, op ≠ .handle req) ∧ ∀ index data, op ≠ .snapshot index data := by
  have hlock := Node.exec_unlocked hex
  simp only [Node.exec, hlock, Bool.false_eq_true, if_false] at hex
  refine ⟨?_, ?_, ?_⟩
  · rintro rfl
    obtain ⟨⟨m', msgs⟩, -, hq⟩ := Option.map_eq_some_iff.mp hex
    obtain ⟨-, rfl⟩ := Prod.mk.inj hq
    cases hsd
  · rintro req rfl
    obtain ⟨-, rfl⟩ := Prod.mk.inj (Option.some.inj hex)
    cases req <;> cases hsd
  · rintro index data rfl
    obtain ⟨-, rfl⟩ := Prod.mk.inj (Option.some.inj hex)
    cases hsd

theorem StoreStep.same_snapIndex {j : Nat} {conf : ConfState} {s s' : DiskStorage}
    (h : StoreStep j conf op s s') (hc : op ≠ .collect) (hreq : ∀ req, op ≠ .handle req)
    (hsnap : ∀ index data, op ≠ .snapshot index data) : s'.snapIndex = s.snapIndex := by
  cases h with
  | stepDown term later => exact setHardState_snapIndex ..
  | campaign member => exact setHardState_snapIndex ..
  | vote req request => exact absurd request (hreq _)
  | entry e next current type => exact (appendEntries_head _).snapIndex
  | accept req request => exact absurd request (hreq _)
  | sync => exact sync_head.snapIndex
  | install req request => exact absurd request (hreq _)
  | compact index term data request => exact absurd request (hsnap _ _)
  | applied request => exact absurd request hc

/-- **A snapshot that is sent** can be gone by. -/
theorem Tracked.sent (h : Tracked boot c r a ver) (hboot : boot.Formed) (hs : Sound cfg c)
    (hex : ((c.node i).withFaults []).exec op = some (m, eff)) {sd : Send} (hsd : sd ∈ eff.sends)
    {req : InstallSnapshotRequest} (hreq : sd.req.snapshot? = some req)
    (hre : (c.node i).Replays (c.node i).store.snapIndex (c.node i).lastApplied)
    {len : Nat} (hP : Advances boot a' (ver i) len m P) (he : TermLog.Ext a a')
    (hi' : GhostInv a') : Conveys boot a' len req P := by
  obtain ⟨hc, hhandle, hcompact⟩ := Node.exec_sends_op hex hsd
  have hframe := Node.exec_frame hex hc fun req => hhandle _
  have hsnap : m.store.snapIndex = (c.node i).store.snapIndex :=
    (Node.exec_store hex).keep (P := fun s => s.snapIndex = (c.node i).store.snapIndex) rfl
      fun hstep hsame => (hstep.same_snapIndex hc hhandle hcompact).trans hsame
  have hconf : m.conf = (c.node i).conf := hframe.conf
  have happlied : m.lastApplied = (c.node i).lastApplied := hframe.applied
  cases (Node.exec_sends hex).sent sd hsd with
  | vote role request => rw [request] at hreq; cases hreq
  | append role next prevTerm above prev request => rw [request] at hreq; cases hreq
  | snapshot role request =>
    rw [request] at hreq
    obtain rfl := Option.some.inj hreq
    obtain ⟨F, hF⟩ := h.front hs i
    have hle : (c.node i).lastApplied ≤ (c.node i).commitIndex := (h.refined.all.node i).applied
    have happ : (c.node i).lastApplied ≤ P.length := happlied ▸ hP.goes.applied
    have htake : F.take (c.node i).lastApplied = P.take (c.node i).lastApplied := by
      rcases hi'.settled_agree (hF.settled.mono he (Nat.le_refl _)) hP.settled with hp | hp
      · exact TermLog.take_eq_of_isPrefix hp (hF.length.symm ▸ hle)
      · exact (TermLog.take_eq_of_isPrefix hp happ).symm
    have hsnapla := hs.applied i
    refine ⟨hP.settled, hP.length, ?_, ?_⟩
    · show m.store.snapIndex ≤ P.length
      omega
    · show Resumes (boot.after P) m.conf (P.drop m.store.snapIndex)
      rw [hsnap]
      have hgoes := hP.goes.conf
      rw [happlied] at hgoes
      refine hgoes.again hboot hsnapla ?_
      rw [Node.Replays, Node.confAt_applied, hF.between _ _ (Nat.le_refl _) hle, htake] at hre
      rw [hconf]
      exact hre

/-! ## Putting it together -/

/-- A candidate keeps its configuration. -/
theorem Tracked.steady (h : Tracked boot c r a ver) (hs : Sound cfg c) {act : Action}
    (ho : Careful cfg c r act) (hstep : c.step cfg act = some c') (i : Nat)
    (hm : (c'.node i).role = .candidate) : (c'.node i).conf = (c.node i).conf := by
  have hle : (c.node i).lastApplied ≤ (c.node i).commitIndex := (h.refined.all.node i).applied
  have hnode := step_node hstep i
  generalize c'.node i = m at hnode hm ⊢
  cases hnode with
  | same => rfl
  | restarted during faults point keep files store crashes found opens => cases hm
  | ran e faults op eff runs resolves exec =>
    subst runs
    obtain rfl : faults = [] := ho.free (e, faults) rfl
    by_cases hn : (c.node i).role = .candidate
    swap
    · have hconf := exec_candidate exec hm hn
      exact hconf
    cases exec_applies hs hle resolves exec with
    | idle conf => exact conf
    | collect runs conf =>
      subst runs
      have hevent : e = .collect i := by
        cases resolve_cases resolves
        rfl
      obtain ⟨F, hF⟩ := h.front hs i
      rw [conf, hF.confAt _ hle (Nat.le_refl _), ← hF.between _ _ (hs.applied i) (Nat.le_refl _)]
      exact ConfState.after_plain (ho.steady (e, []) rfl i hevent hn)
    | install x installs conf applied reached role =>
      rw [role] at hm
      cases hm

/-- The calls: the old ones, and those of a section. -/
theorem Tracked.calls (h : Tracked boot c r a ver) {act : Action} (hstep : c.step cfg act = some c')
    (he : TermLog.Ext a a')
    (hsent : ∀ e faults i op m eff, act = .run e faults → c.resolve e = some (i, op) →
      ((c.node i).withFaults faults).exec op = some (m, eff) → ∀ sd ∈ eff.sends, ∀ req,
      sd.req.snapshot? = some req → ∃ P, Conveys boot a' ((r.next c act c').node i) req P)
    (k : Nat) (call : Call) (req : InstallSnapshotRequest) (hk : c'.calls[k]? = some call)
    (hreq : call.req.snapshot? = some req) :
    ∃ P, Conveys boot a' ((r.next c act c').call k) req P := by
  have hgrows := step_grows hstep
  by_cases hlt : k < c.calls.length
  · obtain ⟨call', hk', -, -, hsame, -⟩ := hgrows.old k _ (List.getElem?_eq_getElem hlt)
    obtain rfl : call = call' := Option.some.inj (hk.symm.trans hk')
    obtain ⟨P, hP⟩ := h.call k _ req (List.getElem?_eq_getElem hlt) (hsame ▸ hreq)
    have hcall : (r.next c act c').call k = r.call k := if_pos hlt
    rw [hcall]
    exact ⟨P, hP.mono he⟩
  · have hcall : (r.next c act c').call k = (r.next c act c').node call.source := by
      show (if k < c.calls.length then _ else _) = _
      rw [if_neg hlt, hk]
      rfl
    rw [hcall]
    rcases (hgrows.added k call hk).resolve_left hlt with
      ⟨e, faults, i, op, m, eff, sd, runs, resolves, exec, send, rfl⟩ | ⟨i, p, _, _, _, _, _, rfl⟩
    · exact hsent e faults i op m eff runs resolves exec sd send req hreq
    · cases hreq

/-- Process `i` takes up a new version and the others stay as they are. -/
theorem Tracked.renew (h : Tracked boot c r a ver) {act : Action} (he : TermLog.Ext a a')
    (href : Refined False (fun _ => True) c' a')
    (hconf : TermLog.Configured (voting boot) a' ver)
    (hP : Advances boot a' (ver i) ((r.next c act c').node i) (c'.node i) P)
    (hother : ∀ m, m ≠ i → c'.node m = c.node m ∧ r.gain c act c' m ≤ r.node m)
    (hcalls : ∀ (k : Nat) call req, c'.calls[k]? = some call → call.req.snapshot? = some req →
      ∃ P, Conveys boot a' ((r.next c act c').call k) req P) :
    Tracked boot c' (r.next c act c') a' (Function.update ver i P) := by
  have hterm : a'.term i = (c'.node i).store.term := (href.all.node i).rel.term
  refine ⟨href, hconf.advance (hterm ▸ hP.settled) hP.longer, fun m => ?_, fun m => ?_, hcalls⟩
  · by_cases hm : m = i
    · subst hm
      rw [Function.update_self]
      exact hP.goes
    · rw [Function.update_of_ne hm, (hother m hm).1]
      exact (h.node m).mono he
  · by_cases hm : m = i
    · subst hm
      rw [Function.update_self]
      exact hP.length
    · rw [Function.update_of_ne hm, h.reach m]
      exact (Nat.max_eq_left (hother m hm).2).symm

/-- A section brings no other process further. -/
theorem Tracked.gain_other (h : Tracked boot c r a ver) {faults : List Bool}
    (hres : c.resolve e = some (i, op)) {j : Nat} (hj : j ≠ i) (hsame : c'.node j = c.node j) :
    r.gain c (.run e faults) c' j ≤ r.node j := by
  show max (c'.node j).lastApplied _ ≤ r.node j
  rw [hsame, installs_other hres hj, ← h.reach j]
  exact Nat.max_le.mpr ⟨(h.node j).applied, Nat.zero_le _⟩

/-- A section of a process, with what the ghost has come to. -/
theorem Tracked.ran (hboot : boot.Formed) (h : Tracked boot c r a ver) (hs : Sound cfg c)
    (ho : Careful cfg c r (.run e [])) (hstep : c.step cfg (.run e []) = some c')
    (he : TermLog.Ext a a') (href : Refined False (fun _ => True) c' a')
    (hconf : TermLog.Configured (voting boot) a' ver) :
    ∃ ver', Tracked boot c' (r.next c (.run e []) c') a' ver' := by
  obtain ⟨i, m, eff, hout, rfl⟩ := step_run hstep
  obtain ⟨op, hres, hi, hex⟩ := outcome_some hout
  obtain ⟨P, hP⟩ := h.section hs ho hres hex he
  have hnode : (c.finishSection e i m eff).node i = m := by rw [node_finishSection, if_pos rfl]
  have hnext : (r.next c (.run e []) (c.finishSection e i m eff)).node i =
      max (r.node i) (max m.lastApplied (((c.installs i e).map fun x => r.call x.1).getD 0)) := by
    show max (r.node i) (max ((c.finishSection e i m eff).node i).lastApplied _) = _
    rw [hnode]
  refine ⟨_, h.renew he href hconf (i := i) (P := P) (by rw [hnode, hnext]; exact hP)
    (fun j hj => ?_) (h.calls hstep he ?_)⟩
  · have hsame : (c.finishSection e i m eff).node j = c.node j := by
      rw [node_finishSection, if_neg hj]
    exact ⟨hsame, h.gain_other hres hj hsame⟩
  · intro e' faults' i' op' m' eff' hrun hres' hex' sd hsd req hreq
    obtain ⟨rfl, rfl⟩ := Action.run.inj hrun
    obtain ⟨rfl, rfl⟩ := Prod.mk.inj (Option.some.inj (hres.symm.trans hres'))
    obtain ⟨rfl, rfl⟩ := Prod.mk.inj (Option.some.inj (hex.symm.trans hex'))
    have hre := ho.ships (e, []) rfl (i, m, eff) hout sd hsd (by rw [hreq]; simp)
    rw [hnext]
    exact ⟨P, h.sent hboot hs hex hsd hreq hre hP he href.inv⟩

/-- A restart of a process, with what the ghost has come to. -/
theorem Tracked.restarted (hboot : boot.Formed) (h : Tracked boot c r a ver) (hs : Sound cfg c)
    {during : Option Event} {faults : List Bool} {point keep : Nat}
    (ho : Careful cfg c r (.restart i during faults point keep))
    (hstep : c.step cfg (.restart i during faults point keep) = some c') (he : TermLog.Ext a a')
    (href : Refined False (fun _ => True) c' a')
    (hconf : TermLog.Configured (voting boot) a' ver) :
    ∃ ver', Tracked boot c' (r.next c (.restart i during faults point keep) c') a' ver' := by
  obtain ⟨hi, files, store, hf, hopen, rfl⟩ := step_restart hstep
  have hnode : (c.restarted cfg i store).node i = Node.newNode i cfg.addrs store := by
    rw [node_restarted, if_pos rfl]
  have hterm : (c.node i).store.term ≤ store.term := by
    have hnew : a'.term i = ((c.restarted cfg i store).node i).store.term :=
      (href.all.node i).rel.term
    rw [hnode] at hnew
    rw [← h.term i]
    exact Nat.le_trans (he.term i) (Nat.le_of_eq hnew)
  obtain ⟨P, hP⟩ := h.restart hboot hs ho hf hopen he hterm
  have hnext : (r.next c (.restart i during faults point keep) (c.restarted cfg i store)).node i =
      max (r.node i) (match c.cutInstall i during store.snapIndex with
        | some x => r.call x.1
        | none => (c.node i).appliedAs store.conf) := by
    show max (r.node i) (if i = i then _ else 0) = _
    rw [if_pos rfl, hnode]
    rfl
  refine ⟨_, h.renew he href hconf (i := i) (P := P) (by rw [hnode, hnext]; exact hP)
    (fun j hj => ⟨?_, ?_⟩) (h.calls hstep he ?_)⟩
  · rw [node_restarted, if_neg hj]
  · show (if j = i then _ else 0) ≤ r.node j
    rw [if_neg hj]
    exact Nat.zero_le _
  · intro e faults i op m eff hrun
    cases hrun

/-- **A careful action** keeps the cluster next to the ghost and the versions. -/
theorem Tracked.step (hboot : boot.Formed) (h : Tracked boot c r a ver) (hs : Sound cfg c)
    (hs' : Sound cfg c') {act : Action} (ho : Careful cfg c r act)
    (hstep : c.step cfg act = some c') :
    ∃ a' ver', TermLog.Ext a a' ∧ Tracked boot c' (r.next c act c') a' ver' := by
  have hid : ∀ i, (c.node i).id = i := fun i => (hs.clean.node i).1
  obtain ⟨j, a', hsteps, href⟩ := h.refined.step (G := watch boot c ver) hs.clean hs'.clean
    (fun _ _ _ => trivial) (fun _ => watch_permits) (fun _ _ _ => trivial)
    (fun e faults i op => h.licensed hboot hid ho hs.stored)
    ho.free False.elim hstep (h.steady hs ho hstep)
  obtain ⟨-, he, -⟩ := h.refined.inv.steps hsteps
  have hconf := h.configured.steps (voting_lawful hboot) h.refined.inv (h.guarded hboot hid j) hsteps
  suffices hver : ∃ ver', Tracked boot c' (r.next c act c') a' ver' by
    obtain ⟨ver', hver⟩ := hver
    exact ⟨a', ver', he, hver⟩
  cases act with
  | run e faults =>
    obtain rfl : faults = [] := ho.free (e, faults) rfl
    exact h.ran hboot hs ho hstep he href hconf
  | restart i during faults point keep => exact h.restarted hboot hs ho hstep he href hconf
  | _ =>
    have hnode := silent_node hstep rfl (by simp)
    refine ⟨_, h.renew he href hconf (i := 0) (P := ver 0) ⟨?_, Nat.le_refl _, ?_, ?_⟩
      (fun j _ => ⟨hnode j, Nat.zero_le _⟩)
      (h.calls hstep he fun e faults i op m eff hrun => by cases hrun)⟩
    · rw [hnode]
      exact (h.version 0).mono he (Nat.le_refl _)
    · exact (h.reach 0).trans (Nat.max_eq_left (Nat.zero_le _)).symm
    · rw [hnode]
      exact (h.node 0).mono he

end Step

/-! ## Whole runs -/

section Run

variable {cfg : Config} {σ : Nat → Cluster} {α : Nat → Option Action}

theorem Tracked.init (cfg : Config) :
    Tracked (.newConfState cfg.peers) (Cluster.init cfg) {} (TermLog.State.init Nat Entry)
      fun _ => [] where
  refined := Refined.init
  configured := TermLog.Configured.init
  node _ := ⟨Nat.le_refl _, rfl, fun hr => absurd rfl hr, fun hr => by cases hr⟩
  reach _ := rfl
  call k call req hk := by cases hk

end Run

end Raft
end DistKV
