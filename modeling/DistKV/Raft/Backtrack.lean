import DistKV.Raft.AppendSafety
import DistKV.Raft.LogMatching

/-!
# Fast backtracking

A leader that does not know where a follower's log parts from its own sends `AppendEntries` from
`nextIndex` on, and a follower that turns the request down says where to go on: at the end of its
log, or at the first entry of the term it has in the previous entry's place. The leader looks that
term up in its own log before it uses the hint.

A round (`exchange`) is one request, its handling and the handling of the reply. Every rejected
round lowers `nextIndex`, which is not a matter of the scans alone: the leader's scan may find the
conflict term above the rejected position. Log matching in the narrow sense does not exclude that
(`hint_above`); that the entries of a term begin at one index in all logs does (`Aligned`), and this
holds in every state a cluster reaches (`repairable_run`).
-/

namespace DistKV
namespace Raft

open TermLog (Settled lastTerm)
open Run (IsRun)

/-! ## Rounds -/

/-- The goroutine of an RPC is over. -/
def Node.release (n : Node) (peer : Nat) : Node :=
  { n with inflight := Function.update n.inflight peer false }

/-- How a round between a leader and the follower `peer` ends. -/
inductive Round where
  /-- The leader turns to InstallSnapshot. -/
  | snapshot (leader : Node)
  | answered (leader follower : Node) (req : AppendEntriesRequest) (resp : AppendEntriesResponse)
  /-- No request is sent. -/
  | nothing

/-- `sendAppendLocked` when the heartbeat is due, `HandleAppendEntries`, and `sendAppend` after its
    reply. -/
def exchange (peer : Nat) (l f : Node) : Round :=
  let r := l.sendAppendLocked peer true
  match r.2 with
  | [⟨_, .appendEntries req⟩] =>
    let a := f.handleAppendEntries req
    .answered ((r.1.onAppendReply peer req a.2).release peer) a.1 req a.2
  | [⟨_, .installSnapshot _⟩] => .snapshot r.1
  | _ => .nothing

/-- Rounds that were turned down lead from one pair of nodes to the other. -/
inductive Rejections (peer : Nat) : Node → Node → Node → Node → Prop
  | refl (l f : Node) : Rejections peer l f l f
  | step {l f l₁ f₁ l₂ f₂ : Node} {req : AppendEntriesRequest} {resp : AppendEntriesResponse}
      (h : Rejections peer l f l₁ f₁) (round : exchange peer l₁ f₁ = .answered l₂ f₂ req resp)
      (rejected : resp.success = false) : Rejections peer l f l₂ f₂

/-- Where the follower has an entry of a term of which the leader has a later entry, the leader has
    that term too. -/
def Aligned (l f : DiskStorage) : Prop :=
  ∀ i j t t', f.snapIndex < j → j < i → l.termAt i = some t → f.termAt j = some t →
    l.termAt j = some t' → t' = t

/-- A leader and a follower between which there is no other traffic. -/
structure Repairable (peer : Nat) (l f : Node) : Prop where
  leader : l.role = .leader
  idle : l.inflight peer = false
  chain : Chain l.store.snapIndex l.store.log
  next : 1 ≤ (l.nextIndex peer).getD 0 ∧ (l.nextIndex peer).getD 0 ≤ l.store.lastIndex + 1
  /-- The follower's storage works. -/
  calm : f.store.disk.Calm
  term : f.store.term ≤ l.store.term
  matching : Beside l.store.entryAt f.store
  /-- The follower's snapshot is of the leader's log. -/
  snapshot : ∀ t, l.store.termAt f.store.snapIndex = some t → t = f.store.snapTerm
  aligned : Aligned l.store f.store

/-! ## The scans -/

theorem conflictStart_le (s : DiskStorage) (t ci : Nat) : Node.conflictStart s t ci ≤ ci := by
  induction ci with
  | zero => exact Nat.le_refl _
  | succ ci ih =>
    rw [Node.conflictStart]
    split
    · split
      · exact Nat.le_refl _
      · split
        · exact Nat.le_refl _
        · exact Nat.le_succ_of_le ih
    · exact Nat.le_refl _

theorem firstIndex_le_conflictStart (s : DiskStorage) (t : Nat) {ci : Nat} (h : s.firstIndex ≤ ci) :
    s.firstIndex ≤ Node.conflictStart s t ci := by
  induction ci with
  | zero => exact h
  | succ ci ih =>
    rw [Node.conflictStart]
    split
    · next hlt =>
      split
      · exact h
      · split
        · exact h
        · exact ih (Nat.le_of_lt_succ hlt)
    · exact h

/-- The scan finds the conflict term or leaves the hint as it is. -/
theorem scanConflict_cases (s : DiskStorage) (conflictTerm next start : Nat) :
    Node.scanConflict s conflictTerm next start = next ∨
      ∃ i, s.termAt i = some conflictTerm ∧ Node.scanConflict s conflictTerm next start = i + 1 := by
  induction start with
  | zero => exact .inl rfl
  | succ i ih =>
    rw [Node.scanConflict]
    split
    · exact .inl rfl
    split
    · exact .inl rfl
    next t ht =>
    split
    · next heq => exact .inr ⟨i + 1, by rw [ht, heq], rfl⟩
    split
    · exact .inl rfl
    · exact ih

/-! ## One round -/

section Round

variable {peer : Nat} {l f : Node}

/-- The request of a round. -/
def Node.appendRequest (l : Node) (peer prevTerm : Nat) : AppendEntriesRequest :=
  { term := l.store.term, leaderId := l.id
    prevLogIndex := (l.nextIndex peer).getD 0 - 1, prevLogTerm := prevTerm
    entries := l.store.entriesFrom ((l.nextIndex peer).getD 0), leaderCommit := l.commitIndex }

theorem termAt_isSome {s : DiskStorage} (hs : Chain s.snapIndex s.log) {index : Nat}
    (hlow : s.snapIndex ≤ index) (hhigh : index ≤ s.lastIndex) : ∃ t, s.termAt index = some t := by
  rcases Nat.lt_or_eq_of_le hlow with hlt | rfl
  · rw [termAt_above hs hlt]
    have hpos : index - s.snapIndex - 1 < s.log.length := by
      rw [lastIndex_of_chain hs] at hhigh
      omega
    exact ⟨_, by rw [List.getElem?_eq_getElem hpos]; rfl⟩
  · exact ⟨_, termAt_snapIndex⟩

theorem Repairable.send (h : Repairable peer l f)
    (hni : l.store.firstIndex ≤ (l.nextIndex peer).getD 0) :
    ∃ prevTerm, l.store.termAt ((l.nextIndex peer).getD 0 - 1) = some prevTerm ∧
      l.sendAppendLocked peer true =
        ({ l with inflight := Function.update l.inflight peer true },
          [⟨peer, .appendEntries (l.appendRequest peer prevTerm)⟩]) := by
  obtain ⟨hone, hlast⟩ := h.next
  rw [DiskStorage.firstIndex] at hni
  obtain ⟨t, ht⟩ : ∃ t, l.store.termAt ((l.nextIndex peer).getD 0 - 1) = some t :=
    termAt_isSome h.chain (by omega) (by omega)
  refine ⟨t, ht, ?_⟩
  rw [Node.sendAppendLocked]
  simp only [Bool.not_true, Bool.and_false, Bool.false_eq_true, if_false]
  rw [if_neg (by rw [DiskStorage.firstIndex]; omega)]
  simp only [ht, h.idle, Bool.false_eq_true, if_false]
  rfl

/-- The request is cut from what the leader still holds, and goes to the end of it. -/
theorem Repairable.cutFrom (h : Repairable peer l f)
    (hni : l.store.firstIndex ≤ (l.nextIndex peer).getD 0) {prevTerm : Nat}
    (ht : l.store.termAt ((l.nextIndex peer).getD 0 - 1) = some prevTerm) :
    CutFrom l.store.entryAt (l.appendRequest peer prevTerm) ∧
      (l.appendRequest peer prevTerm).prevLogIndex +
        (l.appendRequest peer prevTerm).entries.length = l.store.lastIndex := by
  obtain ⟨hone, hlast⟩ := h.next
  rw [DiskStorage.firstIndex] at hni
  have hentries : (l.appendRequest peer prevTerm).entries =
      l.store.log.drop ((l.nextIndex peer).getD 0 - l.store.snapIndex - 1) :=
    entriesFrom_eq h.chain (by omega)
  have hprev : (l.appendRequest peer prevTerm).prevLogIndex = (l.nextIndex peer).getD 0 - 1 := rfl
  refine ⟨⟨fun index x hle hx => ?_, fun k e he => ?_⟩, ?_⟩
  · have hlow := (entryAt_le h.chain hx).1
    have hlt : l.store.snapIndex < (l.nextIndex peer).getD 0 - 1 := Nat.lt_of_lt_of_le hlow hle
    rw [termAt_entryAt h.chain hlt, Option.map_eq_some_iff] at ht
    exact ht
  · rw [hentries, List.getElem?_drop] at he
    rw [hprev, entryAt_above (by omega), ← he]
    congr 1
    omega
  · rw [hentries, hprev, List.length_drop, lastIndex_of_chain h.chain]
    rw [lastIndex_of_chain h.chain] at hlast
    omega

/-- A follower's hint moves `nextIndex`. -/
theorem onAppendReply_hint {l : Node} {req : AppendEntriesRequest} {resp : AppendEntriesResponse}
    (hrole : l.role = .leader) (hterm : l.store.term = req.term) (hresp : resp.term = req.term)
    (hno : resp.success = false) (hhint : 0 < resp.conflictIndex) :
    l.onAppendReply peer req resp =
      { l with nextIndex := Function.update l.nextIndex peer (some
          (if resp.conflictTerm ≠ 0 then
            max 1 (Node.scanConflict l.store resp.conflictTerm resp.conflictIndex l.store.lastIndex)
          else resp.conflictIndex)) } := by
  rw [Node.onAppendReply, if_neg (by rw [hresp, hterm]; exact Nat.lt_irrefl _),
    if_neg (by rw [hrole]; simp [hterm]), hno]
  simp only [Bool.false_eq_true, if_false]
  split
  · rfl
  · rfl

/-- Accepting the sender changes neither the log nor the storage's temper. -/
theorem follow_calm (h : f.store.disk.Calm) (term leaderId : Nat) :
    (f.follow term leaderId).store.disk.Calm ∧
      (∀ index, (f.follow term leaderId).store.termAt index = f.store.termAt index) ∧
      (f.follow term leaderId).store.snapTerm = f.store.snapTerm := by
  rw [Node.follow_disk]
  split
  · rw [DiskStorage.setHardState_calm h]
    exact ⟨h.puts _, fun _ => rfl, rfl⟩
  · exact ⟨h, fun _ => rfl, rfl⟩

theorem storeEntries_calm {s : DiskStorage} (h : s.disk.Calm) (es : List Entry) :
    (Node.storeEntries s es).2 = true := by
  rw [Node.storeEntries]
  cases es.dropWhile (Node.alreadyHas s) with
  | nil => rfl
  | cons e es =>
    simp only [List.length_cons, gt_iff_lt, Nat.zero_lt_succ, if_true,
      DiskStorage.appendEntries_calm h, andThen]
    rw [DiskStorage.sync_calm (h.puts _)]

/-- **The hint.** A request that is turned down names a place below the rejected one, on the
    follower's side as on the leader's. -/
theorem Repairable.hint (h : Repairable peer l f) {prevTerm : Nat}
    (ht : l.store.termAt ((l.nextIndex peer).getD 0 - 1) = some prevTerm)
    {resp : AppendEntriesResponse}
    (hresp : (f.handleAppendEntries (l.appendRequest peer prevTerm)).2 = resp)
    (hno : resp.success = false) :
    (f.handleAppendEntries (l.appendRequest peer prevTerm)).1 = f.follow l.store.term l.id ∧
      resp.term = l.store.term ∧ 0 < resp.conflictIndex ∧
      resp.conflictIndex < (l.nextIndex peer).getD 0 ∧
      (resp.conflictTerm ≠ 0 → 1 < (l.nextIndex peer).getD 0 ∧
        ∀ i, l.store.termAt i = some resp.conflictTerm → i + 1 < (l.nextIndex peer).getD 0) := by
  obtain ⟨hone, -⟩ := h.next
  obtain ⟨hcalm, hterms, hsnapTerm⟩ := follow_calm h.calm l.store.term l.id
  have hsame := follow_sameLog f l.store.term l.id
  have hterm := Node.follow_term (n := f) l.id h.term
  have hchain := hsame.chain h.matching.chain
  have hreq : f.store.term ≤ (l.appendRequest peer prevTerm).term := h.term
  have hcases := handleAppendEntries_cases hreq
  change Appends (f.follow l.store.term l.id) _ _ at hcases
  have hprev : (l.appendRequest peer prevTerm).prevLogIndex = (l.nextIndex peer).getD 0 - 1 := rfl
  generalize f.handleAppendEntries (l.appendRequest peer prevTerm) = r at hcases hresp ⊢
  subst hresp
  cases hcases with
  | beyond short =>
    rw [hprev] at short
    exact ⟨rfl, hterm, Nat.succ_pos _, by simp only; omega, fun hne => absurd rfl hne⟩
  | missing above reaches none =>
    obtain ⟨t, hsome⟩ := termAt_isSome hchain above reaches
    rw [none] at hsome
    cases hsome
  | conflict t above reaches held other =>
    rw [hprev] at above reaches held ⊢
    rw [hterms] at held
    -- the snapshot point would have been accepted
    have habove : f.store.snapIndex < (l.nextIndex peer).getD 0 - 1 := by
      rw [hsame.snapIndex] at above
      refine Nat.lt_of_le_of_ne above fun heq => other ?_
      rw [← heq, termAt_snapIndex, Option.some.injEq] at held
      rw [← heq] at ht
      exact held.symm.trans (h.snapshot _ ht).symm
    have hfirst : (f.follow l.store.term l.id).store.firstIndex ≤ (l.nextIndex peer).getD 0 - 1 := by
      rw [DiskStorage.firstIndex, hsame.snapIndex]
      exact habove
    have hlow := firstIndex_le_conflictStart (f.follow l.store.term l.id).store t hfirst
    have hhigh := conflictStart_le (f.follow l.store.term l.id).store t
      ((l.nextIndex peer).getD 0 - 1)
    rw [DiskStorage.firstIndex] at hlow
    refine ⟨rfl, hterm, Nat.lt_of_lt_of_le (Nat.succ_pos _) hlow, by simp only; omega,
      fun _ => ⟨by omega, fun i hi => ?_⟩⟩
    -- an entry of the conflict term at or above the rejected place would put that term there
    have hbelow : i < (l.nextIndex peer).getD 0 - 1 := by
      by_contra hge
      rcases Nat.lt_or_eq_of_le (Nat.le_of_not_lt hge) with hlt | heq
      · exact other (h.aligned i _ t prevTerm habove hlt hi held ht).symm
      · rw [← heq, ht, Option.some.injEq] at hi
        exact other hi.symm
    omega
  | accept reaches same =>
    have hok := (acceptEntries_spec (f.follow l.store.term l.id) (l.appendRequest peer prevTerm)
      (f.follow l.store.term l.id).store.term).2.1
    rw [storeEntries_calm hcalm, hno] at hok
    cases hok

/-- A leader that moves `nextIndex` down is in the same position. -/
theorem Repairable.moved (h : Repairable peer l f) {next : Nat} (hone : 1 ≤ next)
    (hlt : next < (l.nextIndex peer).getD 0) (inflight : Nat → Bool) :
    Repairable peer
      (Node.release { l with
        inflight := inflight
        nextIndex := Function.update l.nextIndex peer (some next) } peer)
      (f.follow l.store.term l.id) := by
  obtain ⟨hcalm, hterms, hsnapTerm⟩ := follow_calm h.calm l.store.term l.id
  have hsame := follow_sameLog f l.store.term l.id
  refine ⟨h.leader, Function.update_self .., h.chain, ?_, hcalm,
    Nat.le_of_eq (Node.follow_term l.id h.term), h.matching.same hsame, fun t ht => ?_,
    fun i j t t' hj hlt hi hf hl => ?_⟩
  · have hnext : ((Function.update l.nextIndex peer (some next)) peer).getD 0 = next := by
      rw [Function.update_self]
      rfl
    have hle := h.next.2
    change 1 ≤ ((Function.update l.nextIndex peer (some next)) peer).getD 0 ∧
      ((Function.update l.nextIndex peer (some next)) peer).getD 0 ≤ l.store.lastIndex + 1
    rw [hnext]
    omega
  · rw [hsame.snapIndex] at ht
    rw [hsnapTerm]
    exact h.snapshot t ht
  · rw [hsame.snapIndex] at hj
    rw [hterms] at hf
    exact h.aligned i j t t' hj hlt hi hf hl

/-- How a round ends that is not for a snapshot: the follower has the leader's log, or `nextIndex`
    is lower than it was. -/
theorem Repairable.round (h : Repairable peer l f)
    (hni : l.store.firstIndex ≤ (l.nextIndex peer).getD 0) :
    ∃ l' f' req resp, exchange peer l f = .answered l' f' req resp ∧
      ((resp.success = true ∧ Agrees l.store.entryAt f'.store l.store.lastIndex) ∨
        resp.success = false ∧ Repairable peer l' f' ∧ 1 ≤ (l'.nextIndex peer).getD 0 ∧
          (l'.nextIndex peer).getD 0 < (l.nextIndex peer).getD 0) := by
  obtain ⟨prevTerm, ht, hsend⟩ := h.send hni
  obtain ⟨hcut, hend⟩ := h.cutFrom hni ht
  have hround : exchange peer l f = .answered
      ((Node.onAppendReply { l with inflight := Function.update l.inflight peer true } peer
        (l.appendRequest peer prevTerm)
        (f.handleAppendEntries (l.appendRequest peer prevTerm)).2).release peer)
      (f.handleAppendEntries (l.appendRequest peer prevTerm)).1 (l.appendRequest peer prevTerm)
      (f.handleAppendEntries (l.appendRequest peer prevTerm)).2 := by
    rw [exchange, hsend]
  refine ⟨_, _, _, _, hround, ?_⟩
  cases hok : (f.handleAppendEntries (l.appendRequest peer prevTerm)).2.success with
  | true =>
    have hcarries := h.matching.handleAppendEntries (fun _ _ hx => entryAt_index h.chain hx) hcut
      h.term
    have hagrees := (hcarries.reached hok).1
    rw [hend] at hagrees
    exact .inl ⟨rfl, hagrees⟩
  | false =>
    obtain ⟨hf, hterm, hpos, hlow, hscan⟩ := h.hint ht rfl hok
    have hreply : Node.onAppendReply { l with inflight := Function.update l.inflight peer true } peer
        (l.appendRequest peer prevTerm) _ = _ := onAppendReply_hint h.leader rfl hterm hok hpos
    rw [hf, hreply]
    generalize (f.handleAppendEntries (l.appendRequest peer prevTerm)).2 = resp at *
    -- the place the leader makes of the hint
    have hnext : ∀ next, next = (if resp.conflictTerm ≠ 0 then
          max 1 (Node.scanConflict l.store resp.conflictTerm resp.conflictIndex l.store.lastIndex)
        else resp.conflictIndex) → 1 ≤ next ∧ next < (l.nextIndex peer).getD 0 := by
      intro next hnext
      split at hnext
      · next hne =>
        obtain ⟨hone, hbelow⟩ := hscan hne
        rw [hnext]
        refine ⟨Nat.le_max_left _ _, Nat.max_lt.mpr ⟨hone, ?_⟩⟩
        rcases scanConflict_cases l.store resp.conflictTerm resp.conflictIndex l.store.lastIndex
          with hkeep | ⟨i, hi, hfound⟩
        · rw [hkeep]
          exact hlow
        · rw [hfound]
          exact hbelow i hi
      · rw [hnext]
        exact ⟨hpos, hlow⟩
    obtain ⟨hone, hlt⟩ := hnext _ rfl
    refine .inr ⟨rfl, h.moved hone hlt _, ?_⟩
    change 1 ≤ ((Function.update l.nextIndex peer _) peer).getD 0 ∧
      ((Function.update l.nextIndex peer _) peer).getD 0 < _
    rw [Function.update_self]
    exact ⟨hone, hlt⟩

end Round

/-! ## All rounds -/

section Rounds

variable {peer : Nat} {l f : Node}

/-- The round of a leader that has compacted what the follower would need. -/
theorem Repairable.snapshot_round (h : Repairable peer l f)
    (hni : (l.nextIndex peer).getD 0 < l.store.firstIndex) :
    ∃ l', exchange peer l f = .snapshot l' := by
  refine ⟨{ l with inflight := Function.update l.inflight peer true }, ?_⟩
  have hsend : (l.sendAppendLocked peer true) =
      ({ l with inflight := Function.update l.inflight peer true },
        [⟨peer, .installSnapshot
          { term := l.store.term, leaderId := l.id,
            lastIncludedIndex := l.store.snapIndex, lastIncludedTerm := l.store.snapTerm,
            data := l.store.snapshot, confState := l.conf }⟩]) := by
    rw [Node.sendAppendLocked]
    simp only [Bool.not_true, Bool.and_false, Bool.false_eq_true, if_false, hni, if_true, h.idle]
  rw [exchange, hsend]

/-- A rejected round lowers `nextIndex` and leads to the same position. -/
theorem Repairable.rejected (h : Repairable peer l f) {l' f' : Node} {req : AppendEntriesRequest}
    {resp : AppendEntriesResponse} (hround : exchange peer l f = .answered l' f' req resp)
    (hno : resp.success = false) :
    Repairable peer l' f' ∧ 1 ≤ (l'.nextIndex peer).getD 0 ∧
      (l'.nextIndex peer).getD 0 < (l.nextIndex peer).getD 0 := by
  rcases Nat.lt_or_ge ((l.nextIndex peer).getD 0) l.store.firstIndex with hbelow | hni
  · obtain ⟨l₁, hsnap⟩ := h.snapshot_round hbelow
    rw [hround] at hsnap
    cases hsnap
  · obtain ⟨l₁, f₁, req₁, resp₁, hround₁, hend⟩ := h.round hni
    rw [hround] at hround₁
    cases hround₁
    rcases hend with ⟨hyes, -⟩ | ⟨-, hend⟩
    · rw [hno] at hyes
      cases hyes
    · exact hend

theorem Repairable.rejections (h : Repairable peer l f) {l' f' : Node}
    (hrej : Rejections peer l f l' f') : Repairable peer l' f' := by
  induction hrej with
  | refl => exact h
  | step _ round rejected ih => exact (ih.rejected round rejected).1

theorem Rejections.head {l₁ f₁ l₂ f₂ : Node} {req : AppendEntriesRequest}
    {resp : AppendEntriesResponse} (round : exchange peer l f = .answered l₁ f₁ req resp)
    (rejected : resp.success = false) (h : Rejections peer l₁ f₁ l₂ f₂) :
    Rejections peer l f l₂ f₂ := by
  induction h with
  | refl => exact .step (.refl l f) round rejected
  | step _ round' rejected' ih => exact .step ih round' rejected'

/-- **Fast backtracking terminates and repairs the follower.** Each rejected round lowers
    `nextIndex` and keeps it positive, and after finitely many of them the leader turns to its
    snapshot or the follower has the leader's log. -/
theorem backtracking_repairs (peer : Nat) (l f : Node) (h : Repairable peer l f) :
    (∀ l₁ f₁ l₂ f₂ req resp, Rejections peer l f l₁ f₁ →
      exchange peer l₁ f₁ = .answered l₂ f₂ req resp → resp.success = false →
      1 ≤ (l₂.nextIndex peer).getD 0 ∧
        (l₂.nextIndex peer).getD 0 < (l₁.nextIndex peer).getD 0) ∧
    ∃ l₁ f₁, Rejections peer l f l₁ f₁ ∧
      (((l₁.nextIndex peer).getD 0 < l₁.store.firstIndex ∧
          ∃ l₂, exchange peer l₁ f₁ = .snapshot l₂) ∨
        ∃ l₂ f₂ req resp, exchange peer l₁ f₁ = .answered l₂ f₂ req resp ∧ resp.success = true ∧
          Agrees l₁.store.entryAt f₂.store l₁.store.lastIndex) := by
  refine ⟨fun l₁ f₁ l₂ f₂ req resp hrej hround hno => ((h.rejections hrej).rejected hround hno).2, ?_⟩
  -- nextIndex is the measure
  induction hn : (l.nextIndex peer).getD 0 using Nat.strongRecOn generalizing l f with
  | ind ni ih =>
    rcases Nat.lt_or_ge ((l.nextIndex peer).getD 0) l.store.firstIndex with hbelow | hni
    · exact ⟨l, f, .refl l f, .inl ⟨hbelow, h.snapshot_round hbelow⟩⟩
    · obtain ⟨l₁, f₁, req, resp, hround, ⟨hyes, hagrees⟩ | ⟨hno, hnext, -, hlt⟩⟩ := h.round hni
      · exact ⟨l, f, .refl l f, .inr ⟨l₁, f₁, req, resp, hround, hyes, hagrees⟩⟩
      · obtain ⟨l₂, f₂, hrej, hend⟩ := ih _ (hn ▸ hlt) l₁ f₁ hnext rfl
        exact ⟨l₂, f₂, hrej.head hround hno, hend⟩

end Rounds

/-! ### Logs that part, and logs that only match -/

theorem termAt_range {s : DiskStorage} (hs : Chain s.snapIndex s.log) {index t : Nat}
    (h : s.termAt index = some t) : s.snapIndex ≤ index ∧ index ≤ s.lastIndex := by
  rcases Nat.lt_trichotomy index s.snapIndex with hbelow | rfl | habove
  · rw [termAt_below hbelow] at h
    cases h
  · exact ⟨Nat.le_refl _, snapIndex_le_lastIndex hs⟩
  · rw [termAt_entryAt hs habove, Option.map_eq_some_iff] at h
    obtain ⟨e, he, -⟩ := h
    exact ⟨Nat.le_of_lt habove, (entryAt_le hs he).2⟩

/-- A leader of term 3 with the given terms in its log, about to send to node 2. -/
def leaderOf (terms : List Nat) (next : Nat) : Node :=
  { id := 1
    store := { conf := .newConfState [1, 2, 3], term := 3,
               log := terms.mapIdx fun k t => { term := t, index := k + 1 } }
    conf := .newConfState [1, 2, 3], role := .leader
    nextIndex := fun p => if p = 2 then some next else none }

def followerOf (terms : List Nat) : Node :=
  { id := 2
    store := { conf := .newConfState [1, 2, 3], term := 2,
               log := terms.mapIdx fun k t => { term := t, index := k + 1 } }
    conf := .newConfState [1, 2, 3] }

theorem backtracking_repairs_stray : ∃ l₁ f₁, Rejections 2 (leaderOf [1, 1, 3] 4)
    (followerOf [1, 2, 2]) l₁ f₁ ∧
    (((l₁.nextIndex 2).getD 0 < l₁.store.firstIndex ∧ ∃ l₂, exchange 2 l₁ f₁ = .snapshot l₂) ∨
      ∃ l₂ f₂ req resp, exchange 2 l₁ f₁ = .answered l₂ f₂ req resp ∧ resp.success = true ∧
        Agrees l₁.store.entryAt f₂.store l₁.store.lastIndex) := by
  have hl : Chain 0 (leaderOf [1, 1, 3] 4).store.log := chain_of_indices rfl
  have hf : Chain 0 (followerOf [1, 2, 2]).store.log := chain_of_indices rfl
  refine (backtracking_repairs 2 (leaderOf [1, 1, 3] 4) (followerOf [1, 2, 2]) ⟨rfl, rfl, hl,
    by decide, ⟨rfl, rfl⟩, by decide, ⟨hf, fun index e x he hx hterm => ?_⟩, fun t ht => ?_,
    fun i j t t' hj hlt hi hfj hlj => ?_⟩).2
  · obtain ⟨hlow, hhigh⟩ := entryAt_le hf he
    have hpos : 0 < index := hlow
    have hthree : index ≤ 3 := hhigh
    interval_cases index
    · intro i y hlow' hhigh' hy
      have hone : i = 1 := Nat.le_antisymm hhigh' hlow'
      subst hone
      exact hy
    · cases he
      cases hx
      cases hterm
    · cases he
      cases hx
      cases hterm
  · cases ht
    rfl
  · have hpos : 0 < j := hj
    have hthree : i ≤ 3 := (termAt_range hl hi).2
    have htwo : j < 3 := Nat.lt_of_lt_of_le hlt hthree
    interval_cases j
    · cases hfj
      cases hlj
      rfl
    · -- the leader has no entry of term 2
      cases hfj
      interval_cases i
      cases hi

/-- Log matching alone is not enough. The leader's terms are 1, 2, the follower has term 2 at index 1
    and nothing else, and no index has the same term in both logs: the conflict term is found above
    the rejected index, `nextIndex` goes up, and the round after that leads back. -/
theorem hint_above : ∃ l₁ f₁ req resp l₂ f₂ req₁ resp₁,
    Chain 0 (leaderOf [1, 2] 2).store.log ∧ Chain 0 (followerOf [2]).store.log ∧
    Matches (leaderOf [1, 2] 2).store.entryAt (followerOf [2]).store ∧
    (leaderOf [1, 2] 2).store.log.Pairwise (·.term ≤ ·.term) ∧
    (leaderOf [1, 2] 2).nextIndex 2 = some 2 ∧ (leaderOf [1, 2] 2).store.lastIndex = 2 ∧
    exchange 2 (leaderOf [1, 2] 2) (followerOf [2]) = .answered l₁ f₁ req resp ∧
    resp.success = false ∧ l₁.nextIndex 2 = some 3 ∧
    exchange 2 l₁ f₁ = .answered l₂ f₂ req₁ resp₁ ∧ resp₁.success = false ∧
    l₂.nextIndex 2 = some 2 := by
  have hf : Chain 0 (followerOf [2]).store.log := chain_of_indices rfl
  refine ⟨_, _, _, _, _, _, _, _, chain_of_indices rfl, hf, fun index e x he hx hterm => ?_,
    by decide, rfl, rfl, rfl, rfl, rfl, rfl, rfl, rfl⟩
  obtain ⟨hlow, hhigh⟩ := entryAt_le hf he
  have hone : index = 1 := Nat.le_antisymm hhigh hlow
  subst hone
  cases he
  cases hx
  cases hterm

/-! ## In a cluster -/

section Cluster

variable {q : Prop} {Q : Finset Nat → Prop} {c : Cluster} {a : Ghost} {i j : Nat}

/-- The leader's terms are those of its whole log, the snapshot's included. -/
theorem Refined.leader_termAt (h : Refined q Q c a) (hs : Stored (c.node i).store)
    (hrole : (c.node i).role = .leader) {index t : Nat}
    (ht : (c.node i).store.termAt index = some t) :
    index ≤ (a.log i).length ∧ lastTerm Entry.term ((a.log i).take index) = t := by
  have habove : (c.node i).store.firstIndex ≤ index + 1 :=
    Nat.succ_le_succ (termAt_range hs.chain ht).1
  exact ((h.all.node i).leader hrole).prev_eq h.inv (h.all.node i).rel hs habove ht

/-- What a leader and another node of its term or an earlier one have in common. -/
theorem Refined.beside (h : Refined q Q c a) (hs : ∀ i, Stored (c.node i).store) :
    Beside (c.node i).store.entryAt (c.node j).store := by
  refine ⟨(hs j).chain, fun index e x he hx hterm k y hlow hhigh hy => ?_⟩
  have hf := (h.all.node j).rel
  obtain ⟨hlt, hej⟩ := hf.entryAt_eq he
  obtain ⟨-, hxi⟩ := (h.all.node i).rel.entryAt_eq hx
  obtain ⟨-, hyi⟩ := (h.all.node i).rel.entryAt_eq hy
  have htake := (h.inv.rootedLog i).matching (h.inv.rootedLog j) hxi hej hterm
  have hin : k - 1 < index - 1 + 1 := by omega
  have hyj : (a.log j)[k - 1]? = some y := by
    rw [← List.getElem?_take_of_lt hin, ← htake, List.getElem?_take_of_lt hin]
    exact hyi
  have hplace : (c.node j).store.view.snapIndex + (k - (c.node j).store.snapIndex - 1) = k - 1 := by
    change (c.node j).store.snapIndex + _ = _
    omega
  rw [entryAt_above hlow]
  exact (hf.entry _).symm.trans (by rw [hplace]; exact hyj)

/-- The entries of a term begin at one index in all logs. -/
theorem Refined.aligned (h : Refined q Q c a) (hs : ∀ i, Stored (c.node i).store)
    (hrole : (c.node i).role = .leader) : Aligned (c.node i).store (c.node j).store := by
  intro m k t t' hk hlt hm hf hl
  have hlow := (termAt_range (hs i).chain hl).1
  rw [termAt_entryAt (hs i).chain (Nat.lt_of_le_of_lt hlow hlt), Option.map_eq_some_iff] at hm
  obtain ⟨x, hx, rfl⟩ := hm
  rw [termAt_entryAt (hs j).chain hk, Option.map_eq_some_iff] at hf
  obtain ⟨e, he, hterm⟩ := hf
  obtain ⟨-, hx⟩ := (h.all.node i).rel.entryAt_eq hx
  obtain ⟨-, he⟩ := (h.all.node j).rel.entryAt_eq he
  -- both entries stand in the log of the leader of their term
  obtain ⟨_, L, hL, hpx⟩ := h.inv.rootedLog i _ x hx
  obtain ⟨_, L', hL', hpe⟩ := h.inv.rootedLog j _ e he
  rw [hterm, hL] at hL'
  simp only [Option.some.injEq, Prod.mk.injEq] at hL'
  obtain ⟨-, rfl⟩ := hL'
  have hmid : (a.log i)[k - 1]? = some e := by
    have hin : k - 1 < m - 1 + 1 := by omega
    have heL : L[k - 1]? = some e :=
      TermLog.getElem?_mono hpe (by rw [List.getElem?_take_of_lt (Nat.lt_succ_self _)]; exact he)
    have hlen : k - 1 < ((a.log i).take (m - 1 + 1)).length := by
      have hbound := (List.getElem?_eq_some_iff.mp hx).1
      rw [List.length_take]
      omega
    have hfront := TermLog.getElem?_restrict hpx hlen heL
    rwa [List.getElem?_take_of_lt hin] at hfront
  have hlast := (h.leader_termAt (hs i) hrole hl).2
  rw [← hlast, ← Nat.sub_add_cancel (Nat.lt_of_le_of_lt (Nat.zero_le _) hk),
    TermLog.lastTerm_take hmid]
  exact hterm

/-- A snapshot stands for a prefix of the log of every leader of its node's term or a later one. -/
theorem Refined.snapshot_term (h : Refined q Q c a) (hs : Stored (c.node i).store)
    (hrole : (c.node i).role = .leader) (hterm : (c.node j).store.term ≤ (c.node i).store.term)
    {t : Nat} (ht : (c.node i).store.termAt (c.node j).store.snapIndex = some t) :
    t = (c.node j).store.snapTerm := by
  obtain ⟨P, hP, hlen, hlast, -⟩ := (h.all.node j).rel.snap
  have hpre := settled_whole h.inv ((h.all.node i).leader hrole).own
    (hP.mono (TermLog.Ext.refl _) hterm)
  have hwhole := (h.leader_termAt hs hrole ht).2
  have hlength : (c.node j).store.snapIndex = P.length := hlen.symm
  rw [hlength, ← TermLog.take_eq_of_isPrefix hpre (Nat.le_refl _), List.take_length, hlast] at hwhole
  exact hwhole.symm

/-- Whatever a cluster has been through, without configuration changes and storage failures, a
    leader can repair every node of its term or an earlier one. -/
theorem repairable_run {cfg : Config} {σ : Nat → Cluster} {α : Nat → Option Action}
    (hrun : IsRun (Cluster.step cfg) (Cluster.init cfg) σ α)
    (fixed : ∀ k act, α k = some act → ¬act.Reconfigures (σ k))
    (free : ∀ k act, α k = some act → act.FaultFree) {k : Nat}
    (hrole : ((σ k).node i).role = .leader) (hidle : ((σ k).node i).inflight j = false)
    (hnext : 1 ≤ (((σ k).node i).nextIndex j).getD 0 ∧
      (((σ k).node i).nextIndex j).getD 0 ≤ ((σ k).node i).store.lastIndex + 1)
    (hterm : ((σ k).node j).store.term ≤ ((σ k).node i).store.term) :
    Repairable j ((σ k).node i) ((σ k).node j) := by
  obtain ⟨γ, href, -⟩ :=
    refined_run (q := False) hrun free (overlapping_fixed hrun fixed) False.elim
  have hclean := fun i => ((clean_run hrun free k).node i).2.store.1
  have hs := fun i => (hclean i).stored
  exact
    { leader := hrole, idle := hidle, chain := (hs i).chain, next := hnext
      calm := (hclean j).calm, term := hterm, matching := (href k).beside hs
      snapshot := fun _ ht => (href k).snapshot_term (hs i) hrole hterm ht
      aligned := (href k).aligned hs hrole }

end Cluster

end Raft
end DistKV
