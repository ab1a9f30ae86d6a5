import DistKV.Raft.StoreStep

/-!
# What a critical section sends

A section sends at its end, so every request it sends is a function of the node it leaves behind:
a candidate asks for votes, a leader sends what follows a peer's `nextIndex`, or its snapshot
where that has been compacted away.
-/

namespace DistKV
namespace Raft

/-- `s` is a request of node `n` to one of its peers. -/
inductive Sent (n : Node) (s : Send) : Prop
  | vote (role : n.role = .candidate)
      (request : s.req = .requestVote
        { term := n.store.term, candidateId := n.id, lastLogIndex := n.store.lastIndex,
          lastLogTerm := (n.store.termAt n.store.lastIndex).getD 0 })
  | append (role : n.role = .leader) (next prevTerm : Nat) (above : n.store.firstIndex ≤ next)
      (prev : n.store.termAt (next - 1) = some prevTerm)
      (request : s.req = .appendEntries
        { term := n.store.term, leaderId := n.id, prevLogIndex := next - 1,
          prevLogTerm := prevTerm, entries := n.store.entriesFrom next,
          leaderCommit := n.commitIndex })
  | snapshot (role : n.role = .leader)
      (request : s.req = .installSnapshot
        { term := n.store.term, leaderId := n.id, lastIncludedIndex := n.store.snapIndex,
          lastIncludedTerm := n.store.snapTerm, data := n.store.snapshot, confState := n.conf })

namespace Node

variable {n : Node}

/-- Two nodes that differ in what `inflight` says and nothing else. -/
def SameButInflight (n n' : Node) : Prop := ∃ f, n' = { n with inflight := f }

theorem SameButInflight.refl : SameButInflight n n := ⟨n.inflight, rfl⟩

theorem Sent.congr {n n' : Node} {s : Send} (h : SameButInflight n n') (hs : Sent n s) :
    Sent n' s := by
  obtain ⟨f, rfl⟩ := h
  cases hs with
  | vote role request => exact .vote role request
  | append role next prevTerm above prev request => exact .append role next prevTerm above prev request
  | snapshot role request => exact .snapshot role request

theorem sendAppendLocked_spec (hl : n.role = .leader) (peer : Nat) (due : Bool) :
    SameButInflight n (n.sendAppendLocked peer due).1 ∧
      ∀ s ∈ (n.sendAppendLocked peer due).2, Sent n s ∧ s.peer = peer := by
  simp only [sendAppendLocked]
  split
  · exact ⟨.refl, by simp⟩
  split
  · split
    · exact ⟨.refl, by simp⟩
    · refine ⟨⟨_, rfl⟩, fun s hs => ?_⟩
      rw [List.mem_singleton.mp hs]
      exact ⟨.snapshot hl rfl, rfl⟩
  next hge =>
  split
  · exact ⟨.refl, by simp⟩
  next prevTerm hprev =>
  split
  · exact ⟨.refl, by simp⟩
  · refine ⟨⟨_, rfl⟩, fun s hs => ?_⟩
    rw [List.mem_singleton.mp hs]
    exact ⟨.append hl _ prevTerm (Nat.le_of_not_lt hge) hprev rfl, rfl⟩

theorem SameButInflight.trans {n₁ n₂ n₃ : Node} (h : SameButInflight n₁ n₂)
    (h' : SameButInflight n₂ n₃) : SameButInflight n₁ n₃ := by
  obtain ⟨f, rfl⟩ := h
  obtain ⟨g, rfl⟩ := h'
  exact ⟨g, rfl⟩

theorem sendAll_spec (hl : n.role = .leader) (due : Nat → Bool) (ps : List Nat) :
    SameButInflight n (n.sendAll due ps).1 ∧
      ∀ s ∈ (n.sendAll due ps).2, Sent n s ∧ s.peer ∈ ps ∧ s.peer ≠ n.id := by
  induction ps generalizing n with
  | nil => exact ⟨.refl, by simp [sendAll]⟩
  | cons p ps ih =>
    simp only [sendAll]
    split
    · obtain ⟨h1, h2⟩ := ih hl
      exact ⟨h1, fun s hs => ⟨(h2 s hs).1, List.mem_cons_of_mem _ (h2 s hs).2.1, (h2 s hs).2.2⟩⟩
    · next hp =>
      obtain ⟨h1, h2⟩ := sendAppendLocked_spec hl p (due p)
      obtain ⟨f, hf⟩ := h1
      have hl' : (n.sendAppendLocked p (due p)).1.role = .leader := by rw [hf]; exact hl
      obtain ⟨h3, h4⟩ := ih hl'
      refine ⟨SameButInflight.trans ⟨f, hf⟩ h3, fun s hs => ?_⟩
      rcases List.mem_append.mp hs with hs | hs
      · obtain ⟨hsent, hpeer⟩ := h2 s hs
        exact ⟨hsent, by rw [hpeer]; exact List.mem_cons_self, by rw [hpeer]; exact hp⟩
      · obtain ⟨hsent, hpeer, hne⟩ := h4 s hs
        refine ⟨Sent.congr ⟨n.inflight, by rw [hf]⟩ hsent, List.mem_cons_of_mem _ hpeer, ?_⟩
        rw [hf] at hne
        exact hne

/-- What is sent, to whom, and what the section leaves. -/
structure Sends (n' : Node) (sends : List Send) : Prop where
  sent : ∀ s ∈ sends, Sent n' s
  peer : ∀ s ∈ sends, s.peer ∈ n'.peerIDs ∧ s.peer ≠ n'.id

theorem Sends.nil : Sends n [] := ⟨by simp, by simp⟩

theorem broadcastAppendLocked_spec (hl : n.role = .leader) (due : Nat → Bool) :
    SameButInflight { n with store := n.store.sync.1 } (n.broadcastAppendLocked due).1 ∧
      Sends (n.broadcastAppendLocked due).1 (n.broadcastAppendLocked due).2 := by
  simp only [broadcastAppendLocked]
  split
  · obtain ⟨⟨f, hf⟩, h2⟩ := sendAll_spec (n := { n with store := n.store.sync.1 }) hl due
      { n with store := n.store.sync.1 }.peerIDs
    refine ⟨⟨f, hf⟩, fun s hs => ?_, fun s hs => ?_⟩
    · exact Sent.congr ⟨f, hf⟩ (h2 s hs).1
    · rw [hf]; exact (h2 s hs).2
  · exact ⟨.refl, .nil⟩

/-- The node `becomeLeaderLocked` broadcasts from. -/
def elected (n : Node) : Node :=
  let last := n.store.lastIndex
  let fresh (v : Nat) : Nat → Option Nat := fun p => if p ∈ n.peerIDs then some v else none
  let r := n.store.appendEntries [{ term := n.store.term, index := last + 1 }]
  { n with
    role := .leader, leaderID := n.id, store := r.1
    nextIndex := if r.2 then Function.update (fresh (last + 1)) n.id (some (last + 2))
      else fresh (last + 1)
    matchIndex := Function.update (fresh 0) n.id (some (if r.2 then last + 1 else last))
    inflight := fun _ => false }

theorem becomeLeaderLocked_eq (hr : n.role ≠ .leader) :
    n.becomeLeaderLocked = n.elected.broadcastAppendLocked fun _ => true := by
  rw [becomeLeaderLocked, if_neg hr]
  simp only [elected]
  cases (n.store.appendEntries [{ term := n.store.term, index := n.store.lastIndex + 1 }]).2 <;>
    simp [peerIDs]

theorem becomeLeaderLocked_sends (hr : n.role ≠ .leader) :
    Sends n.becomeLeaderLocked.1 n.becomeLeaderLocked.2 := by
  rw [becomeLeaderLocked_eq hr]
  exact (broadcastAppendLocked_spec rfl _).2

theorem startElectionLocked_sends :
    Sends n.startElectionLocked.1 n.startElectionLocked.2 := by
  simp only [startElectionLocked]
  split
  · exact .nil
  split
  · exact .nil
  split
  · exact .nil
  · refine ⟨fun s hs => ?_, fun s hs => ?_⟩
    · obtain ⟨p, hp, rfl⟩ := List.mem_map.mp hs
      exact .vote rfl (by simp [setHardState_term])
    · obtain ⟨p, hp, rfl⟩ := List.mem_map.mp hs
      simpa using List.mem_filter.mp hp

theorem onVoteReply_sends (newTerm : Nat) (resp : RequestVoteResponse) :
    Sends (n.onVoteReply newTerm resp).1 (n.onVoteReply newTerm resp).2 := by
  simp only [onVoteReply]
  split
  · exact .nil
  split
  · exact .nil
  next hc =>
  split
  · refine becomeLeaderLocked_sends ?_
    simp only [not_or, Decidable.not_not] at hc
    simp [hc.1]
  · exact .nil

theorem tick_sends (timedOut : Bool) (due : Nat → Bool) :
    Sends (n.tick timedOut due).1 (n.tick timedOut due).2 := by
  rw [tick]
  split
  · next hl => exact (broadcastAppendLocked_spec hl due).2
  · split
    · exact startElectionLocked_sends
    · exact .nil

theorem onReply_sends {peer : Nat} {req : Request} {resp : Response} {m : Node} {eff : Effect}
    (h : n.onReply peer req resp = some (m, eff)) : Sends m eff.sends := by
  unfold onReply at h
  split at h
  · obtain ⟨rfl, rfl⟩ := Prod.mk.inj (Option.some.inj h)
    exact onVoteReply_sends _ _
  · obtain ⟨rfl, rfl⟩ := Prod.mk.inj (Option.some.inj h)
    exact .nil
  · obtain ⟨rfl, rfl⟩ := Prod.mk.inj (Option.some.inj h)
    exact .nil
  · obtain ⟨rfl, rfl⟩ := Prod.mk.inj (Option.some.inj h)
    exact .nil
  · cases h

/-- **Everything a section sends is read off the node it leaves.** -/
theorem exec_sends {op : NodeOp} {m : Node} {eff : Effect} (h : n.exec op = some (m, eff)) :
    Sends m eff.sends := by
  have hlock := exec_unlocked h
  simp only [exec, hlock, Bool.false_eq_true, if_false] at h
  cases op with
  | tick timedOut due =>
    obtain ⟨rfl, rfl⟩ := Prod.mk.inj (Option.some.inj h)
    exact tick_sends _ _
  | collect =>
    obtain ⟨⟨m', msgs⟩, -, hq⟩ := Option.map_eq_some_iff.mp h
    obtain ⟨rfl, rfl⟩ := Prod.mk.inj hq
    exact .nil
  | handle req =>
    obtain ⟨rfl, rfl⟩ := Prod.mk.inj (Option.some.inj h)
    cases req <;> exact .nil
  | reply peer req resp => exact onReply_sends h
  | _ =>
    obtain ⟨rfl, rfl⟩ := Prod.mk.inj (Option.some.inj h)
    exact .nil

end Node
end Raft
end DistKV
