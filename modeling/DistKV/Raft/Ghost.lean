import DistKV.Raft.Track

/-!
# Nodes, requests and replies next to the abstract log

`NodeRel` is what relates a running node to the ghost: its storage is the end of the abstract log,
what it believes committed is settled, what a crash could take from it has not been acknowledged,
and a candidate or leader is one abstractly, with nothing committed in its term that a leader does
not know of. `GhostRequest` and `GhostReply` are what a message
says about the ghost; all of it stays true as the ghost moves on.
-/

namespace DistKV
namespace Raft

open TermLog (Settled lastTerm)

/-! ## Acknowledgements -/

/-- Of the first `m` entries of the term's leader, `p` has acknowledged those the leader wrote
    itself, unless they are committed anyway. -/
def Acked (a : Ghost) (term p m : Nat) : Prop :=
  ∃ c L, a.ldr term = some (c, L) ∧ m ≤ L.length ∧
    ∀ k e, k < m → L[k]? = some e → e.term = term → k < a.acc p term ∨ k < a.com term

section Acked

variable {G : GhostGuard} {a a' : Ghost} {term p m : Nat} {c : Nat} {L P : List Entry}

theorem Acked.mono (h : Acked a term p m) (he : TermLog.Ext a a') : Acked a' term p m := by
  obtain ⟨c, L, hl, hm, hacked⟩ := h
  obtain ⟨L', hl', hpre⟩ := he.ldr hl
  refine ⟨c, L', hl', Nat.le_trans hm hpre.length_le, fun k e hk hke hterm => ?_⟩
  have hold := TermLog.getElem?_restrict hpre (Nat.lt_of_lt_of_le hk hm) hke
  rcases hacked k e hk hold hterm with h | h
  · exact .inl (Nat.lt_of_lt_of_le h (he.acc p term))
  · exact .inr (Nat.lt_of_lt_of_le h (he.com term))

/-- Nothing has to be acknowledged of what is settled: entries of the leader's own term are
    settled in that term only. -/
theorem acked_of_settled (hi : GhostInv a) (hl : a.ldr term = some (c, L))
    (hP : Settled a term P) (hm : m ≤ P.length) : Acked a term p m := by
  have hpre : P <+: L := settled_whole hi hl hP
  refine ⟨c, L, hl, Nat.le_trans hm hpre.length_le, fun k e hk hke hterm => .inr ?_⟩
  rcases hP with rfl | ⟨U, c', L', hU, hl', hpre', hcom⟩
  · exact absurd (Nat.lt_of_lt_of_le hk hm) (Nat.not_lt_zero _)
  have hkP : k < P.length := Nat.lt_of_lt_of_le hk hm
  have heP := TermLog.getElem?_restrict hpre hkP hke
  have hbound := hi.boundLdr U c' L' hl' e
    (List.mem_of_getElem? (TermLog.getElem?_mono hpre' heP))
  obtain rfl : U = term := by omega
  exact Nat.lt_of_lt_of_le hkP hcom

theorem acked_zero (hl : a.ldr term = some (c, L)) : Acked a term p 0 :=
  ⟨c, L, hl, Nat.zero_le _, fun _ _ hk => absurd hk (Nat.not_lt_zero _)⟩

theorem acked_of_acc (hl : a.ldr term = some (c, L)) (hm : m ≤ L.length) (hacc : m ≤ a.acc p term) :
    Acked a term p m :=
  ⟨c, L, hl, hm, fun _ _ hk _ _ => .inl (Nat.lt_of_lt_of_le hk hacc)⟩

end Acked

/-! ## Messages -/

/-- What a request from `source` to `dest` says about the ghost. -/
def GhostRequest (a : Ghost) (source dest : Nat) : Request → Prop
  | .requestVote req => req.candidateId = source ∧ source ≠ 0 ∧
      ∃ M, a.cand source req.term = some M ∧ M.length = req.lastLogIndex ∧
        lastTerm Entry.term M = req.lastLogTerm
  | .appendEntries req => dest ≠ source ∧ ∃ L, a.ldr req.term = some (source, L) ∧
      req.prevLogIndex ≤ L.length ∧ lastTerm Entry.term (L.take req.prevLogIndex) = req.prevLogTerm ∧
      req.entries <+: L.drop req.prevLogIndex ∧
      ∃ P, Settled a req.term P ∧ P.length = req.leaderCommit
  | .installSnapshot req => dest ≠ source ∧ ∃ L, a.ldr req.term = some (source, L) ∧
      ∃ P, Settled a req.term P ∧ P.length = req.lastIncludedIndex ∧
        lastTerm Entry.term P = req.lastIncludedTerm
  | .readIndex _ => True

def GhostReply (a : Ghost) (dest : Nat) : Request → Response → Prop
  | .appendEntries req, .appendEntries resp =>
      resp.success = true → Acked a req.term dest (req.prevLogIndex + req.entries.length)
  | _, _ => True

theorem GhostRequest.mono {a a' : Ghost} {source dest : Nat} {req : Request}
    (h : GhostRequest a source dest req) (he : TermLog.Ext a a') :
    GhostRequest a' source dest req := by
  cases req with
  | requestVote req =>
    obtain ⟨hid, hne, M, hM, hlen, hterm⟩ := h
    exact ⟨hid, hne, M, he.cand hM, hlen, hterm⟩
  | appendEntries req =>
    obtain ⟨hne, L, hl, hprev, hterm, hentries, P, hP, hlen⟩ := h
    obtain ⟨L', hl', R, rfl⟩ := he.ldr hl
    refine ⟨hne, L ++ R, hl', ?_, ?_, ?_, P, hP.mono he (Nat.le_refl _), hlen⟩
    · rw [List.length_append]; omega
    · rw [List.take_append_of_le_length hprev]; exact hterm
    · rw [List.drop_append_of_le_length hprev]
      exact hentries.trans (List.prefix_append _ _)
  | installSnapshot req =>
    obtain ⟨hne, L, hl, P, hP, hlen, hterm⟩ := h
    obtain ⟨L', hl', -⟩ := he.ldr hl
    exact ⟨hne, L', hl', P, hP.mono he (Nat.le_refl _), hlen, hterm⟩
  | readIndex req => trivial

theorem GhostReply.mono {a a' : Ghost} {dest : Nat} {req : Request} {resp : Response}
    (h : GhostReply a dest req resp) (he : TermLog.Ext a a') : GhostReply a' dest req resp := by
  cases req with
  | appendEntries req =>
    cases resp with
    | appendEntries resp => exact fun hs => (h hs).mono he
    | _ => trivial
  | _ => trivial

/-! ## Nodes -/

/-- Everything up to `commitIndex` is settled, and the node has it as far as its log goes back. -/
def Committed (a : Ghost) (commitIndex : Nat) (v : View) : Prop :=
  v.snapIndex ≤ commitIndex ∧
    ∃ P, Settled a v.term P ∧ P.length = commitIndex ∧ P.drop v.snapIndex <+: v.log

/-- What a crash may take from the log, `j` entries kept, has not been acknowledged. -/
def Unacked (a : Ghost) (i : Nat) (s : DiskStorage) (j : Nat) : Prop :=
  ∀ p e, s.snapIndex + j ≤ p → (a.log i)[p]? = some e → a.acc i e.term ≤ p

def Pending (a : Ghost) (i : Nat) (s : DiskStorage) : Prop :=
  ∀ p, s.disk.files.synced <+: p → p <+: s.disk.files.records →
    ∃ j, logOf s.snapIndex p = s.log.take j ∧ Unacked a i s j

structure LeaderRel (a : Ghost) (i term : Nat) (matchIndex : Nat → Option Nat) : Prop where
  own : a.ldr term = some (i, a.log i)
  base : ∃ M, a.cand i term = some M ∧ M <+: a.log i
  peers : ∀ p m, p ≠ i → matchIndex p = some m → Acked a term p m
  self : ∀ m, matchIndex i = some m → m ≤ (a.log i).length

structure CandidateRel (a : Ghost) (i term : Nat) : Prop where
  cand : a.cand i term = some (a.log i)
  notLeader : ∀ L, a.ldr term ≠ some (i, L)

structure NodeRel (q : Prop) (a : Ghost) (i : Nat) (n : Node) : Prop where
  rel : Rel q a i n.store.view
  commit : Committed a n.commitIndex n.store.view
  applied : n.lastApplied ≤ n.commitIndex
  flag : n.store.dirty = false → n.store.disk.files.unsynced = []
  quiet : n.role ≠ .leader → n.store.disk.files.unsynced = []
  pending : Pending a i n.store
  leader : n.role = .leader → LeaderRel a i n.store.term n.matchIndex
  candidate : n.role = .candidate → CandidateRel a i n.store.term
  owned : n.role = .leader → a.com n.store.term ≤ n.commitIndex

section Mono

variable {q : Prop} {G : GhostGuard} {peers : List Nat} {a a' : Ghost} {i : Nat}

theorem Committed.mono {commitIndex : Nat} {v : View} (h : Committed a commitIndex v)
    (he : TermLog.Ext a a') {term votedFor : Nat} (hterm : v.term ≤ term) :
    Committed a' commitIndex { v with term := term, votedFor := votedFor } := by
  obtain ⟨hle, P, hP, hlen, hlog⟩ := h
  exact ⟨hle, P, hP.mono he hterm, hlen, hlog⟩

/-- With everything synced there is nothing to lose. -/
theorem pending_synced {s : DiskStorage} (hs : Stored s) (hu : s.disk.files.unsynced = [])
    (hlen : (a.log i).length = s.snapIndex + s.log.length) : Pending a i s := by
  intro p hsync hp
  have hrecords := Files.eq_records hu hsync hp
  refine ⟨s.log.length, by rw [List.take_length, hrecords, ← hs.log], fun k e hk he => ?_⟩
  have := (List.getElem?_eq_some_iff.mp he).1
  omega

theorem LeaderRel.mono {term : Nat} {matchIndex : Nat → Option Nat}
    (h : LeaderRel a i term matchIndex) (he : TermLog.Ext a a')
    (own : a'.ldr term = some (i, a'.log i)) (hlog : a.log i <+: a'.log i) :
    LeaderRel a' i term matchIndex := by
  obtain ⟨M, hM, hpre⟩ := h.base
  exact ⟨own, ⟨M, he.cand hM, hpre.trans hlog⟩, fun p m hp hm => (h.peers p m hp hm).mono he,
    fun m hm => Nat.le_trans (h.self m hm) hlog.length_le⟩

/-- The leader's idea of how far `p` is changes. -/
theorem LeaderRel.update {term : Nat} {matchIndex : Nat → Option Nat}
    (h : LeaderRel a i term matchIndex) {p m : Nat} (bound : m ≤ (a.log i).length)
    (acked : p ≠ i → Acked a term p m) :
    LeaderRel a i term (Function.update matchIndex p (some m)) := by
  refine ⟨h.own, h.base, fun p' m' hp hm => ?_, fun m' hm => ?_⟩
  · by_cases heq : p' = p
    · subst heq
      rw [Function.update_self, Option.some.injEq] at hm
      exact hm ▸ acked hp
    · rw [Function.update_of_ne heq] at hm
      exact h.peers p' m' hp hm
  · by_cases heq : i = p
    · subst heq
      rw [Function.update_self, Option.some.injEq] at hm
      exact hm ▸ bound
    · rw [Function.update_of_ne heq] at hm
      exact h.self m' hm

/-- The ghost moves on and leaves the logs, acknowledgements and leaderships of node `i` alone, and
    what it has committed. -/
theorem NodeRel.congr {n : Node} (h : NodeRel q a i n) (he : TermLog.Ext a a')
    (hrel : Rel q a' i n.store.view) (hlog : a'.log i = a.log i) (hacc : a'.acc i = a.acc i)
    (hldr : ∀ term L, a'.ldr term = some (i, L) ↔ a.ldr term = some (i, L))
    (hcom : ∀ term L, a.ldr term = some (i, L) → a'.com term = a.com term) : NodeRel q a' i n where
  rel := hrel
  commit := h.commit.mono he (Nat.le_refl _)
  applied := h.applied
  flag := h.flag
  quiet := h.quiet
  pending p hs hp := by
    obtain ⟨j, hj, hun⟩ := h.pending p hs hp
    refine ⟨j, hj, fun k e hk hke => ?_⟩
    rw [hlog] at hke
    rw [hacc]
    exact hun k e hk hke
  leader hr := by
    have hl := h.leader hr
    refine hl.mono he ?_ (by rw [hlog])
    rw [hlog, hldr]
    exact hl.own
  candidate hr := by
    obtain ⟨hc, hno⟩ := h.candidate hr
    refine ⟨?_, fun L hl => hno L ((hldr _ L).mp hl)⟩
    rw [hlog]
    exact he.cand hc
  owned hr := by
    rw [hcom _ _ (h.leader hr).own]
    exact h.owned hr

/-- Another node took steps. -/
theorem NodeRel.other {n : Node} {j : Nat} (h : NodeRel q a i n) (he : TermLog.Ext a a')
    (ho : TermLog.Off j a a') (hij : i ≠ j) : NodeRel q a' i n := by
  refine h.congr he (h.rel.other he ho hij) (ho.log hij) (ho.acc hij)
    (fun term L => ⟨fun hl => ?_, ?_⟩) fun term L hl => ?_
  · exact (ho.ldr hl).resolve_left hij
  · exact ho.kept hij
  · rcases ho.com (T := term) with hsame | ⟨L', hl'⟩
    · exact hsame
    · rw [ho.kept hij hl, Option.some.injEq, Prod.mk.injEq] at hl'
      exact absurd hl'.1 hij

end Mono

end Raft
end DistKV
