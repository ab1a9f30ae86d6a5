import DistKV.Raft.Agreement

/-!
# `ReadIndex`

A read is confirmed by a quorum whose members had not passed the term of the leader when the read
was invoked (`confirmed_read`): a member acknowledges the term of the request or nothing, and terms
never go back. So no later leader had been elected at that moment, and everything that was committed
then had been committed by earlier leaders or by this one.

What this leader has committed is below its own `commitIndex`. What earlier leaders have committed
is in its log (leader completeness) but not necessarily below `commitIndex`: that is certain only
once it has committed an entry of its own term (`Node.Confirmed`), and `ReadIndex` does not wait for
that.
-/

namespace DistKV
namespace Raft

open Run (IsRun)
open TermLog (Settled lastTerm)

/-- The last entry the leader knows to be committed is one of its own term. -/
def Node.Confirmed (n : Node) : Prop := n.store.termAt n.commitIndex = some n.store.term

instance (n : Node) : Decidable n.Confirmed :=
  inferInstanceAs (Decidable (n.store.termAt n.commitIndex = some n.store.term))

/-! ## Acknowledgements -/

namespace Node

variable {n : Node}

/-- A member that has passed the term of the request does not acknowledge. -/
theorem handleReadIndex_ack {req : ReadIndexRequest} (h : (n.handleReadIndex req).2.ack = true) :
    n.store.term ≤ req.term := by
  simp only [handleReadIndex] at h
  split at h
  · cases h
  · next hge => exact Nat.le_of_not_lt hge

theorem exec_acks {req : Request} {resp : ReadIndexResponse} {m : Node} {eff : Effect}
    (h : n.exec (.handle req) = some (m, eff)) (hr : eff.resp = some (.readIndex resp))
    (hack : resp.ack = true) {ri : ReadIndexRequest} (hreq : req = .readIndex ri) :
    n.store.term ≤ ri.term := by
  subst hreq
  have hlock := exec_unlocked h
  simp only [exec, hlock, Bool.false_eq_true, if_false] at h
  obtain ⟨-, rfl⟩ := Prod.mk.inj (Option.some.inj h)
  obtain rfl := Response.readIndex.inj (Option.some.inj hr)
  exact handleReadIndex_ack hack

/-- Only a positive answer to a `ReadIndex` request is counted. -/
theorem exec_counts {op : NodeOp} {m : Node} {eff : Effect} (h : n.exec op = some (m, eff))
    (hack : eff.ack = true) : ∃ peer req resp, op = .reply peer (.readIndex req) (.readIndex resp) ∧
      resp.ack = true := by
  have hlock := exec_unlocked h
  simp only [exec, hlock, Bool.false_eq_true, if_false] at h
  cases op with
  | handle req =>
    obtain ⟨-, rfl⟩ := Prod.mk.inj (Option.some.inj h)
    cases req <;> cases hack
  | collect =>
    obtain ⟨_, -, hq⟩ := Option.map_eq_some_iff.mp h
    obtain ⟨-, rfl⟩ := Prod.mk.inj hq
    cases hack
  | reply peer req resp =>
    simp only [onReply] at h
    split at h
    case h_4 ri resp =>
      obtain ⟨-, rfl⟩ := Prod.mk.inj (Option.some.inj h)
      refine ⟨peer, ri, resp, rfl, ?_⟩
      simp only [onReadIndexReply] at hack
      split at hack
      · cases hack
      split at hack
      · cases hack
      · exact hack
    all_goals
      cases h
      try cases hack
  | _ =>
    obtain ⟨-, rfl⟩ := Prod.mk.inj (Option.some.inj h)
    cases hack

/-- What waits for a snapshot message is the answer to an `InstallSnapshot`. -/
theorem exec_install_resp {op : NodeOp} {m : Node} {eff : Effect} {resp : Response}
    {msg : ApplyMsg} (h : n.exec op = some (m, eff)) (hresp : eff.resp = some resp)
    (hinstall : eff.install = some msg) : ∃ ri, resp = .installSnapshot ri := by
  by_cases hop : ∃ req, op = .handle (.installSnapshot req)
  · obtain ⟨req, rfl⟩ := hop
    have hlock := exec_unlocked h
    simp only [exec, hlock, Bool.false_eq_true, if_false] at h
    obtain ⟨-, rfl⟩ := Prod.mk.inj (Option.some.inj h)
    exact ⟨_, (Option.some.inj hresp).symm⟩
  · rw [exec_no_install h fun req heq => hop ⟨req, heq⟩] at hinstall
    cases hinstall

/-- As many as a read waits for are a quorum. -/
theorem readQuorum_quorum {acks : Nat} (h : n.readQuorum ≤ acks) :
    n.conf.hasVoteQuorum acks = true := by
  simp only [readQuorum] at h
  rw [ConfState.hasVoteQuorum]
  split at h
  · next hj =>
    rw [if_pos hj, Bool.and_eq_true_iff]
    exact ⟨decide_eq_true (by omega), decide_eq_true (by omega)⟩
  · next hj =>
    rw [if_neg hj]
    have hlen : n.peerIDs.length = n.conf.voters.card := by
      rw [peerIDs, ConfState.allPeerIDs, if_neg hj, ConfState.voterIDs,
        ← List.toFinset_card_of_nodup (sortedKeys_nodup _)]
      congr 1
      ext p
      rw [List.mem_toFinset, mem_sortedKeys]
    rw [hlen] at h
    exact decide_eq_true h

end Node

/-! ## The requests of a read -/

/-- The call carries a request of read `r`. -/
def Call.Asks (r : Nat) (call : Call) : Prop := call.read = r ∧ ∃ req, call.req = .readIndex req

/-- Requests belong to reads that have been invoked, and what waits for a snapshot message is the
    answer to an `InstallSnapshot`. -/
structure Tidy (c : Cluster) : Prop where
  numbered : ∀ (k : Nat) call r, c.calls[k]? = some call → call.Asks r → r < c.reads.length
  installs : ∀ i, ∀ q ∈ (c.procs i).installs, ∃ resp, q.2.1 = .installSnapshot resp

/-- How a step changes a read. -/
inductive ReadStep (c c' : Cluster) (r : Nat) (rd : Read) : Read → Prop
  | same : ReadStep c c' r rd rd
  | ack (k : Nat) (call : Call) (resp : ReadIndexResponse)
      (held : c.calls[k]? = some call) (waiting : call.phase = .waiting) (asks : call.Asks r)
      (answer : .readIndex resp ∈ call.replies) (granted : resp.ack = true)
      (closed : ∃ call', c'.calls[k]? = some call' ∧ call'.phase ≠ .waiting) :
      ReadStep c c' r rd rd.addAck
  | returned (done : rd.done = true) :
      ReadStep c c' r rd { rd with status := .returned rd.readIdx }
  | failed : ReadStep c c' r rd { rd with status := .failed }

section Step

variable {cfg : Config} {c c' : Cluster} {act : Action}

theorem reads_finishSection (c : Cluster) (e : Event) (i : Nat) (n : Node) (eff : Effect) :
    (c.finishSection e i n eff).reads = c.reads ∨ ∃ k j call, e = .reply k j ∧ eff.ack = true ∧
      c.calls[k]? = some call ∧
      (c.finishSection e i n eff).reads = c.reads.modify call.read Read.addAck := by
  cases e with
  | deliver k =>
    simp only [Cluster.finishSection, Cluster.settle]
    split
    · exact .inl rfl
    split <;> exact .inl rfl
  | reply k j =>
    simp only [Cluster.finishSection, Cluster.settle]
    split
    · next hack =>
      split
      · next call hk => exact .inr ⟨k, j, call, rfl, hack, hk, rfl⟩
      · exact .inl rfl
    · exact .inl rfl
  | _ => exact .inl rfl

theorem step_reads (hs : c.step cfg act = some c') {r : Nat} {rd : Read}
    (hr : c.reads[r]? = some rd) : ∃ rd', c'.reads[r]? = some rd' ∧ ReadStep c c' r rd rd' := by
  cases act with
  | run e faults =>
    obtain ⟨i, n, eff, ho, rfl⟩ := step_run hs
    obtain ⟨op, hres, -, hex⟩ := outcome_some ho
    rcases reads_finishSection c e i n eff with hsame | ⟨k, j, call, rfl, hack, hk, hreads⟩
    · rw [hsame]
      exact ⟨rd, hr, .same⟩
    rw [hreads, List.getElem?_modify, hr]
    by_cases heq : call.read = r
    · obtain ⟨peer, req, resp, rfl, hgranted⟩ := Node.exec_counts hex hack
      obtain ⟨k', j', call', he, hk', hwait, -, -, hreq, hmem⟩ := resolve_reply hres
      obtain ⟨rfl, -⟩ := Event.reply.inj he
      rw [hk, Option.some.injEq] at hk'
      subst hk'
      exact ⟨rd.addAck, by simp [heq], .ack k call resp hk hwait ⟨heq, req, hreq⟩ hmem hgranted
        ⟨_, reply_finishSection hk, call.afterReply_ne⟩⟩
    · exact ⟨rd, by simp [heq], .same⟩
  | restart i during faults point keep =>
    obtain ⟨-, files, store, -, -, rfl⟩ := step_restart hs
    rw [Cluster.restarted, List.getElem?_map, hr, Option.map_some]
    split
    · exact ⟨_, rfl, .failed⟩
    · exact ⟨_, rfl, .same⟩
  | emit i =>
    simp only [Cluster.step] at hs
    split at hs
    · cases hs
    · obtain rfl := Option.some.inj hs
      exact ⟨rd, hr, .same⟩
  | emitInstall i k =>
    obtain ⟨q, -, rfl⟩ := Option.map_eq_some_iff.mp hs
    exact ⟨rd, hr, .same⟩
  | abort k =>
    obtain ⟨call, -, hs⟩ := Option.bind_eq_some_iff.mp hs
    split at hs
    · obtain rfl := Option.some.inj hs
      exact ⟨rd, hr, .same⟩
    · cases hs
  | readIndex i =>
    simp only [Cluster.step] at hs
    split at hs
    · cases hs
    · obtain rfl := Option.some.inj hs
      refine ⟨rd, ?_, .same⟩
      rw [Cluster.startRead, List.getElem?_append_left (List.getElem?_eq_some_iff.mp hr).1]
      exact hr
  | readReturn r₀ =>
    obtain ⟨rd₀, hr₀, hs⟩ := Option.bind_eq_some_iff.mp hs
    simp only at hs
    split at hs
    swap
    · cases hs
    next hdone =>
    obtain rfl := Option.some.inj hs
    rw [List.getElem?_set]
    split
    swap
    · exact ⟨rd, hr, .same⟩
    next heq =>
    subst heq
    rw [hr, Option.some.injEq] at hr₀
    subst hr₀
    rw [if_pos (List.getElem?_eq_some_iff.mp hr).1]
    refine ⟨_, rfl, ?_⟩
    split
    · exact .returned hdone.1
    · exact .failed
  | readAbort r₀ =>
    obtain ⟨rd₀, hr₀, hs⟩ := Option.bind_eq_some_iff.mp hs
    split at hs
    swap
    · cases hs
    obtain rfl := Option.some.inj hs
    rw [List.getElem?_set]
    split
    swap
    · exact ⟨rd, hr, .same⟩
    next heq =>
    subst heq
    rw [hr, Option.some.injEq] at hr₀
    subst hr₀
    rw [if_pos (List.getElem?_eq_some_iff.mp hr).1]
    exact ⟨_, rfl, .failed⟩

theorem reads_length_le (hs : c.step cfg act = some c') : c.reads.length ≤ c'.reads.length := by
  rcases Nat.eq_zero_or_pos c.reads.length with h0 | hpos
  · rw [h0]
    exact Nat.zero_le _
  · have hlast : c.reads[c.reads.length - 1]? = some c.reads[c.reads.length - 1] :=
      List.getElem?_eq_getElem (Nat.sub_one_lt_of_lt hpos)
    obtain ⟨rd', hr', -⟩ := step_reads hs hlast
    have := (List.getElem?_eq_some_iff.mp hr').1
    omega

/-- No section sends a `ReadIndex` request. -/
theorem exec_no_asks {n m : Node} {op : NodeOp} {eff : Effect} (h : n.exec op = some (m, eff))
    {s : Send} (hs : s ∈ eff.sends) {i r : Nat} : ¬(Cluster.openCall i s).Asks r := by
  rintro ⟨-, req, hreq⟩
  change s.req = _ at hreq
  cases (Node.exec_sends h).sent s hs with
  | vote role request => rw [hreq] at request; cases request
  | append role next prevTerm above prev request => rw [hreq] at request; cases request
  | snapshot role request => rw [hreq] at request; cases request

/-- What a request of read `r` has from before the step: an acknowledgement that is new comes from a
    member that has not passed the term. -/
structure Asked (c : Cluster) (r : Nat) (call call' : Call) : Prop where
  asks : call.Asks r
  dest : call'.dest = call.dest
  req : call'.req = call.req
  acks : ∀ resp, .readIndex resp ∈ call'.replies → resp.ack = true →
    .readIndex resp ∈ call.replies ∨
      ∀ req, call.req = .readIndex req → (c.node call.dest).store.term ≤ req.term

/-- A request after a step was there before, or the read has just been invoked. -/
theorem step_asks (h : Tidy c) (hs : c.step cfg act = some c') {k r : Nat} {call' : Call}
    (hk : c'.calls[k]? = some call') (hask : call'.Asks r) :
    (∃ call, c.calls[k]? = some call ∧ Asked c r call call') ∨
    (∃ i, act = .readIndex i ∧ r = c.reads.length ∧ c.calls.length ≤ k) := by
  have hg := step_grows hs
  by_cases hlt : k < c.calls.length
  · have hold := List.getElem?_eq_getElem hlt
    obtain ⟨call'', hk'', -, hdest, hreq, hread, -, hreplies, -⟩ := hg.old k _ hold
    rw [hk, Option.some.injEq] at hk''
    subst hk''
    refine .inl ⟨_, hold, ⟨hread.symm.trans hask.1, hreq ▸ hask.2⟩, hdest, hreq,
      fun resp hresp hack => ?_⟩
    rcases hreplies _ hresp with hin | hin
    · exact .inl hin
    cases hin with
    | handled faults call n eff runs held exec answer =>
      rw [hold, Option.some.injEq] at held
      subst held
      exact .inr fun req hreq => Node.exec_acks exec answer hack hreq
    | announced i q waits call answer =>
      obtain ⟨ri, hinst⟩ := h.installs i q waits
      rw [hinst] at answer
      cases answer
  · refine .inr ?_
    cases (hg.added k call' hk).resolve_left hlt with
    | sent e faults i op n eff s runs resolves exec send opened =>
      rw [opened] at hask
      exact absurd hask (exec_no_asks exec send)
    | read i p runs leader ne peer other opened =>
      rw [opened] at hask
      exact ⟨i, runs, hask.1.symm, Nat.le_of_not_lt hlt⟩

/-- Requests stay, and a call that has its reply stays so. -/
theorem asks_kept (hs : c.step cfg act = some c') {k r : Nat} {call : Call}
    (hk : c.calls[k]? = some call) (hask : call.Asks r) :
    ∃ call', c'.calls[k]? = some call' ∧ call'.Asks r ∧ call'.dest = call.dest ∧
      (call'.phase = .waiting → call.phase = .waiting) := by
  obtain ⟨call', hk', -, hdest, hreq, hread, hphase, -⟩ := (step_grows hs).old k call hk
  exact ⟨call', hk', ⟨hread.trans hask.1, hreq ▸ hask.2⟩, hdest, hphase⟩

theorem startRead_length (i : Nat) : (c.startRead i).reads.length = c.reads.length + 1 := by
  simp [Cluster.startRead]

theorem Tidy.step (h : Tidy c) (hs : c.step cfg act = some c') : Tidy c' where
  numbered k call' r hk hask := by
    rcases step_asks h hs hk hask with ⟨call, hcall, hold⟩ | ⟨i, rfl, rfl, -⟩
    · exact Nat.lt_of_lt_of_le (h.numbered k call r hcall hold.asks) (reads_length_le hs)
    · simp only [Cluster.step] at hs
      split at hs
      · cases hs
      · obtain rfl := Option.some.inj hs
        rw [startRead_length]
        exact Nat.lt_succ_self _
  installs j q hq := by
    cases act with
    | run e faults =>
      obtain ⟨i, n, eff, ho, rfl⟩ := step_run hs
      obtain ⟨op, hres, -, hex⟩ := outcome_some ho
      rcases installs_finishSection hq with hq | ⟨-, -, hresp, hinstall⟩
      · exact h.installs j q hq
      · exact Node.exec_install_resp hex hresp hinstall
    | restart i during faults point keep =>
      obtain ⟨-, files, store, -, -, rfl⟩ := step_restart hs
      simp only [Cluster.restarted, Function.update_apply] at hq
      split at hq
      · cases hq
      · exact h.installs j q hq
    | _ => exact h.installs j q (installs_silent hs rfl (by simp) j hq)

/-! ## One read -/

/-- What a read was invoked with, and what it says of its acknowledgements. -/
structure Read.Sound (rd : Read) (n : Node) : Prop where
  readIdx : rd.readIdx = n.commitIndex
  need : rd.need = n.readQuorum
  quorum : rd.done = true → rd.need ≤ rd.acks
  result : ∀ index, rd.status = .returned index → index = rd.readIdx ∧ rd.done = true

theorem ReadStep.sound {r : Nat} {rd rd' : Read} {n : Node} (hs : ReadStep c c' r rd rd')
    (h : rd.Sound n) : rd'.Sound n := by
  cases hs with
  | same => exact h
  | ack k call resp held waiting asks answer granted closed =>
    refine ⟨h.readIdx, h.need, fun hdone => ?_, fun index hret => ?_⟩
    · simp only [Read.addAck, Bool.or_eq_true, decide_eq_true_eq] at hdone ⊢
      rcases hdone with hdone | hdone
      · exact Nat.le_succ_of_le (h.quorum hdone)
      · exact hdone
    · obtain ⟨hidx, hdone⟩ := h.result index hret
      exact ⟨hidx, by simp [Read.addAck, hdone]⟩
  | returned done =>
    refine ⟨h.readIdx, h.need, h.quorum, fun index hret => ?_⟩
    exact ⟨(ReadStatus.returned.inj hret).symm, done⟩
  | failed => exact ⟨h.readIdx, h.need, h.quorum, by simp⟩

/-- The request of read `r` to `v` has been answered. -/
def Answered (c : Cluster) (r v : Nat) : Prop :=
  ∃ (k : Nat) (call : Call), c.calls[k]? = some call ∧ call.Asks r ∧ call.dest = v ∧
    call.phase ≠ .waiting

/-- Read `r` of node `n`, with the acknowledgements it has so far: as many as there are members, all
    of them in `S`, whose only request has been answered. -/
structure Confirming (S : Nat → Prop) (n : Node) (r : Nat) (c : Cluster) : Prop where
  asked : ∀ (k : Nat) call, c.calls[k]? = some call → call.Asks r →
    call.req = .readIndex ⟨n.store.term, n.id⟩ ∧ call.dest ∈ n.peerIDs ∧ call.dest ≠ n.id ∧
      ∀ resp, .readIndex resp ∈ call.replies → resp.ack = true → S call.dest
  once : ∀ (k k' : Nat) call call', c.calls[k]? = some call → c.calls[k']? = some call' →
    call.Asks r → call'.Asks r → call.dest = call'.dest → k = k'
  read : ∃ rd, c.reads[r]? = some rd ∧ rd.Sound n ∧
    ∃ V : Finset Nat, rd.acks ≤ V.card + 1 ∧ ∀ v ∈ V, Answered c r v ∧ S v

theorem Answered.step {r v : Nat} (h : Answered c r v) (hs : c.step cfg act = some c') :
    Answered c' r v := by
  obtain ⟨k, call, hk, hask, hdest, hphase⟩ := h
  obtain ⟨call', hk', hask', hdest', hphase'⟩ := asks_kept hs hk hask
  exact ⟨k, call', hk', hask', hdest'.trans hdest, fun hw => hphase (hphase' hw)⟩

/-- The calls a read is invoked with. -/
theorem startRead_asks (h : Tidy c) {i k : Nat} {call : Call}
    (hk : (c.startRead i).calls[k]? = some call) (hask : call.Asks c.reads.length) :
    ∃ p, c.calls.length ≤ k ∧
      ((c.node i).peerIDs.filter (· ≠ (c.node i).id))[k - c.calls.length]? = some p ∧
      call = { source := i, dest := p, read := c.reads.length,
               req := .readIndex ⟨(c.node i).store.term, (c.node i).id⟩ } := by
  rcases Nat.lt_or_ge k c.calls.length with hlt | hge
  · rw [Cluster.startRead, List.getElem?_append_left hlt] at hk
    exact absurd (h.numbered k call _ hk hask) (Nat.lt_irrefl _)
  · rw [Cluster.startRead, List.getElem?_append_right hge, List.getElem?_map,
      Option.map_eq_some_iff] at hk
    obtain ⟨p, hp, rfl⟩ := hk
    exact ⟨p, hge, hp, rfl⟩

theorem Confirming.start (h : Tidy c) (S : Nat → Prop) (i : Nat) :
    Confirming S (c.node i) c.reads.length (c.startRead i) where
  asked k call hk hask := by
    obtain ⟨p, -, hp, rfl⟩ := startRead_asks h hk hask
    have hmem := List.mem_filter.mp (List.mem_of_getElem? hp)
    exact ⟨rfl, hmem.1, by simpa using hmem.2, fun _ hr => absurd hr List.not_mem_nil⟩
  once k k' call call' hk hk' hask hask' hdest := by
    obtain ⟨p, hge, hp, rfl⟩ := startRead_asks h hk hask
    obtain ⟨p', hge', hp', rfl⟩ := startRead_asks h hk' hask'
    obtain rfl : p = p' := hdest
    have hnodup : ((c.node i).peerIDs.filter (· ≠ (c.node i).id)).Nodup :=
      ConfState.allPeerIDs_nodup.filter _
    have hsame := (List.getElem?_inj (List.getElem?_eq_some_iff.mp hp).1 hnodup).mp
      (hp.trans hp'.symm)
    omega
  read := by
    refine ⟨_, List.getElem?_concat_length, ⟨rfl, rfl, by simp, by simp⟩, ∅, Nat.le_refl _, ?_⟩
    exact fun v hv => absurd hv (Finset.notMem_empty v)

/-- **One step** of a cluster in which acknowledging members are in `S`. -/
theorem Confirming.step {S : Nat → Prop} {n : Node} {r : Nat} (h : Confirming S n r c)
    (ht : Tidy c) (hs : c.step cfg act = some c')
    (hS : ∀ v, (c.node v).store.term ≤ n.store.term → S v) : Confirming S n r c' := by
  obtain ⟨rd, hr, hsound, V, hcard, hV⟩ := h.read
  have hlt := (List.getElem?_eq_some_iff.mp hr).1
  -- no new request belongs to this read
  have hold : ∀ (k : Nat) call', c'.calls[k]? = some call' → call'.Asks r →
      ∃ call, c.calls[k]? = some call ∧ Asked c r call call' := by
    intro k call' hk hask
    rcases step_asks ht hs hk hask with hold | ⟨-, -, hnew, -⟩
    · exact hold
    · exact absurd hnew (Nat.ne_of_lt hlt)
  refine ⟨fun k call' hk hask => ?_, fun k k' call call' hk hk' hask hask' hdest => ?_, ?_⟩
  · obtain ⟨call, hcall, hsame⟩ := hold k call' hk hask
    obtain ⟨hreq, hpeer, hne, hacks⟩ := h.asked k call hcall hsame.asks
    rw [hsame.req, hsame.dest]
    refine ⟨hreq, hpeer, hne, fun resp hresp hack => ?_⟩
    rcases hsame.acks resp hresp hack with hin | hterm
    · exact hacks resp hin hack
    · exact hS _ (hterm _ hreq)
  · obtain ⟨call₀, hcall₀, hsame₀⟩ := hold k call hk hask
    obtain ⟨call₁, hcall₁, hsame₁⟩ := hold k' call' hk' hask'
    exact h.once k k' call₀ call₁ hcall₀ hcall₁ hsame₀.asks hsame₁.asks
      (hsame₀.dest.symm.trans (hdest.trans hsame₁.dest))
  obtain ⟨rd', hr', hstep⟩ := step_reads hs hr
  refine ⟨rd', hr', hstep.sound hsound, ?_⟩
  have hkept : ∀ v ∈ V, Answered c' r v ∧ S v := fun v hv => ⟨(hV v hv).1.step hs, (hV v hv).2⟩
  cases hstep with
  | ack k call resp held waiting asks answer granted closed =>
    -- the member has not been counted, because its only request was still open
    have hfresh : call.dest ∉ V := by
      intro hmem
      obtain ⟨k₀, call₀, hk₀, hask₀, hdest₀, hphase₀⟩ := (hV _ hmem).1
      obtain rfl := h.once k k₀ call call₀ held hk₀ asks hask₀ hdest₀.symm
      rw [held, Option.some.injEq] at hk₀
      exact hphase₀ (hk₀ ▸ waiting)
    refine ⟨insert call.dest V, ?_, fun v hv => ?_⟩
    · rw [Finset.card_insert_of_notMem hfresh]
      exact Nat.succ_le_succ hcard
    · rcases Finset.mem_insert.mp hv with rfl | hv
      · obtain ⟨call', hk', hask', hdest', -⟩ := asks_kept hs held asks
        obtain ⟨call'', hk'', hphase⟩ := closed
        rw [hk', Option.some.injEq] at hk''
        subst hk''
        exact ⟨⟨k, call', hk', hask', hdest', hphase⟩,
          (h.asked k call held asks).2.2.2 resp answer granted⟩
      · exact hkept v hv
  | same => exact ⟨V, hcard, hkept⟩
  | returned done => exact ⟨V, hcard, hkept⟩
  | failed => exact ⟨V, hcard, hkept⟩

/-- A read that has returned: its members and the leader are a quorum. -/
theorem Confirming.quorum {S : Nat → Prop} {n : Node} {r index : Nat} {rd : Read}
    (h : Confirming S n r c) (hr : c.reads[r]? = some rd) (hret : rd.status = .returned index)
    (leader : n.role = .leader) (member : n.id ∈ n.peerIDs) (hS : S n.id) :
    index = n.commitIndex ∧ ∃ V, n.Counting V ∧ ∀ v ∈ V, S v := by
  obtain ⟨rd', hr', hsound, V, hcard, hV⟩ := h.read
  rw [hr, Option.some.injEq] at hr'
  subst hr'
  obtain ⟨hidx, hdone⟩ := hsound.result index hret
  have hpeer : ∀ v ∈ V, v ∈ n.peerIDs ∧ v ≠ n.id := by
    intro v hv
    obtain ⟨k, call, hk, hask, rfl, -⟩ := (hV v hv).1
    exact ⟨(h.asked k call hk hask).2.1, (h.asked k call hk hask).2.2.1⟩
  refine ⟨hidx.trans hsound.readIdx, insert n.id V, ⟨by rw [leader]; simp, ?_, ?_⟩, ?_⟩
  · intro v hv
    rcases Finset.mem_insert.mp hv with rfl | hv
    · exact List.mem_toFinset.mpr member
    · exact List.mem_toFinset.mpr (hpeer v hv).1
  · rw [Finset.card_insert_of_notMem fun hmem => (hpeer _ hmem).2 rfl]
    exact Node.readQuorum_quorum (hsound.need ▸ Nat.le_trans (hsound.quorum hdone) hcard)
  · intro v hv
    rcases Finset.mem_insert.mp hv with rfl | hv
    · exact hS
    · exact (hV v hv).2

theorem step_readIndex {i : Nat} (hs : c.step cfg (.readIndex i) = some c') :
    (c.node i).role = .leader ∧ c' = c.startRead i := by
  simp only [Cluster.step] at hs
  split at hs
  · cases hs
  · next hc =>
    simp only [not_or, Decidable.not_not] at hc
    exact ⟨hc.2.2, (Option.some.inj hs).symm⟩

end Step

/-! ## Runs -/

section Run

variable {cfg : Config} {σ : Nat → Cluster} {α : Nat → Option Action}

theorem tidy_run (hrun : IsRun (Cluster.step cfg) (Cluster.init cfg) σ α) (k : Nat) : Tidy (σ k) := by
  refine hrun.invariant ⟨fun k call r hk => ?_, fun i q hq => ?_⟩
    (fun k act ha h => h.step (hrun.next k act ha)) k
  · simp [Cluster.init] at hk
  · simp [Cluster.init, Process.start] at hq

/-- **A read that returns was confirmed by a quorum** whose members had not passed the term of the
    leader when the read was invoked. -/
theorem confirmed_read (hrun : IsRun (Cluster.step cfg) (Cluster.init cfg) σ α)
    (hterm : ∀ j k v, j ≤ k → ((σ j).node v).store.term ≤ ((σ k).node v).store.term)
    {j k i index : Nat} {rd : Read} (hact : α j = some (.readIndex i))
    (hr : (σ k).reads[(σ j).reads.length]? = some rd) (hret : rd.status = .returned index)
    (member : ((σ j).node i).id ∈ ((σ j).node i).peerIDs) (hid : ((σ j).node i).id = i) :
    index = ((σ j).node i).commitIndex ∧ ((σ j).node i).role = .leader ∧
      ∃ V, ((σ j).node i).Counting V ∧
        ∀ v ∈ V, ((σ j).node v).store.term ≤ ((σ j).node i).store.term := by
  obtain ⟨leader, hstart⟩ := step_readIndex (hrun.next j _ hact)
  have hlater : j + 1 ≤ k := by
    refine Nat.lt_of_not_le fun hkj => ?_
    have hmono := hrun.invariant_from (P := fun c => (σ k).reads.length ≤ c.reads.length)
      (Nat.le_refl _) (fun t act _ ha ht => Nat.le_trans ht (reads_length_le (hrun.next t act ha))) hkj
    exact Nat.not_lt_of_le hmono (List.getElem?_eq_some_iff.mp hr).1
  have hconf := hrun.invariant_from (j := j + 1)
    (P := Confirming (fun v => ((σ j).node v).store.term ≤ ((σ j).node i).store.term)
      ((σ j).node i) (σ j).reads.length)
    (hstart ▸ Confirming.start (tidy_run hrun j) _ i)
    (fun t act ht ha h => h.step (tidy_run hrun t) (hrun.next t act ha)
      fun v hv => Nat.le_trans (hterm j t v (Nat.le_of_succ_le ht)) hv) hlater
  obtain ⟨hidx, hV⟩ := hconf.quorum hr hret leader member (by rw [hid])
  exact ⟨hidx, leader, hV⟩

/-- **Reads of a leader that has committed in its term are not stale.** -/
theorem read_covers (hrun : IsRun (Cluster.step cfg) (Cluster.init cfg) σ α)
    (hfree : ∀ k act, α k = some act → act.FaultFree) (hover : Overlapping σ)
    {j k i index : Nat} {rd : Read} (hact : α j = some (.readIndex i))
    (hr : (σ k).reads[(σ j).reads.length]? = some rd) (hret : rd.status = .returned index)
    (member : ((σ j).node i).id ∈ ((σ j).node i).peerIDs) (confirmed : ((σ j).node i).Confirmed)
    {t b : Nat} (ht : t ≤ j) : ((σ t).node b).commitIndex ≤ index := by
  obtain ⟨γ, href, hext⟩ := refined_run (q := False) hrun hfree hover False.elim
  have hclean := clean_run hrun hfree
  have hterms : ∀ k v, (γ k).term v = ((σ k).node v).store.term :=
    fun k v => ((href k).all.node v).rel.term
  obtain ⟨hidx, leader, V, hV, hlow⟩ := confirmed_read hrun (fun j k v hjk => by
    rw [← hterms, ← hterms]
    exact (hext j k hjk).term v) hact hr hret member ((hclean j).node i).1
  have hleader := ((href j).all.node i)
  have hinv := (href j).inv
  obtain ⟨R, hR⟩ := hleader.committed hinv ((hclean j).node i).2.store.1.stored
  obtain ⟨-, P, hP, hlen, -⟩ := ((href t).all.node b).commit
  rcases hP.mono (hext t j ht) (Nat.le_refl _) with rfl | ⟨U, c, L, -, hl, hpre, hcom⟩
  · rw [← hlen]
    exact Nat.zero_le _
  rw [← hlen, hidx]
  rcases Nat.lt_trichotomy U ((σ j).node i).store.term with hlt | rfl | hgt
  · -- committed by an earlier leader: beyond `commitIndex` it would have an entry of the new term
    refine Nat.le_of_not_lt fun hlong => Nat.not_le_of_lt hlt ?_
    have hRP : R <+: P := by
      rcases hinv.settled_agree hR.settled
        (.inr ⟨U, c, L, Nat.le_refl _, hl, hpre, hcom⟩) with h | h
      · exact h
      · exact absurd h.length_le (Nat.not_le_of_lt (hR.length ▸ hlong))
    have hlast := hR.term _ _ (Nat.le_refl _) confirmed
    rw [← hR.length, List.take_length] at hlast
    rw [← hlast]
    exact TermLog.lastTerm_le fun e he =>
      hinv.boundLdr U c L hl e ((hRP.trans hpre).subset he)
  · exact Nat.le_trans hcom (hleader.owned leader)
  · -- a later leader would have had the votes of a quorum
    obtain ⟨v, hvV, hvW⟩ := hover.quorums V _ ⟨j, i, hV⟩ ((href j).quorate.voters U c L hl)
    have hvoted := hinv.term_of_voted (hinv.voters U c L hl v hvW)
    rw [hterms] at hvoted
    exact absurd (Nat.le_trans hvoted (hlow v hvV)) (Nat.not_le_of_lt hgt)

/-- Only a member campaigns. -/
theorem member_fixed (hrun : IsRun (Cluster.step cfg) (Cluster.init cfg) σ α)
    (fixed : ∀ k act, α k = some act → ¬act.Reconfigures (σ k)) (k i : Nat)
    (hrole : ((σ k).node i).role ≠ .follower) :
    ((σ k).node i).id ∈ ((σ k).node i).peerIDs := by
  have hnode := fun k i => (fixed_run hrun fixed k).node i
  rw [(hnode k i).1, Node.peerIDs, (hnode k i).2.1]
  revert hrole
  induction k with
  | zero =>
    intro hrole
    rw [hrun.start] at hrole
    exact absurd rfl hrole
  | succ k ih =>
    intro hrole
    cases ha : α k with
    | none =>
      rw [hrun.idle k ha] at hrole
      exact ih hrole
    | some act =>
      have hmember : ((σ k).node i).conf.contains ((σ k).node i).id = true →
          i ∈ (ConfState.newConfState cfg.peers).allPeerIDs := by
        intro hm
        rw [(hnode k i).1, (hnode k i).2.1] at hm
        exact ConfState.contains_allPeerIDs hm
      have hstep := step_node (hrun.next k act ha) i
      generalize (σ (k + 1)).node i = m at hstep hrole
      cases hstep with
      | same => exact ih hrole
      | ran e faults op eff runs resolves exec =>
        cases Node.exec_role exec with
        | follower role votes => exact absurd role hrole
        | same role term votes quiet => exact ih (role ▸ hrole)
        | failed role term votes quiet timer member => exact hmember member
        | campaign election timer => exact hmember election.member
        | vote peer req resp request candidate _ _ _ _ _ _ =>
          refine ih ?_
          have hcand : ((σ k).node i).role = .candidate := candidate
          rw [hcand]
          simp
      | restarted during faults point keep files store crashes found opens => exact absurd rfl hrole

/-- The same for a fixed set of voters. -/
theorem read_covers_fixed (hrun : IsRun (Cluster.step cfg) (Cluster.init cfg) σ α)
    (fixed : ∀ k act, α k = some act → ¬act.Reconfigures (σ k))
    (free : ∀ k act, α k = some act → act.FaultFree) {j k i index : Nat} {rd : Read}
    (hact : α j = some (.readIndex i)) (confirmed : ((σ j).node i).Confirmed)
    (hr : (σ k).reads[(σ j).reads.length]? = some rd) (hret : rd.status = .returned index)
    {t b : Nat} (ht : t ≤ j) : ((σ t).node b).commitIndex ≤ index := by
  have leader := (step_readIndex (hrun.next j _ hact)).1
  refine read_covers hrun free (overlapping_fixed hrun fixed) hact hr hret ?_ confirmed ht
  exact member_fixed hrun fixed j i (by rw [leader]; simp)

end Run

end Raft
end DistKV
