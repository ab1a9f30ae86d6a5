import DistKV.Raft.FixedVoters
import DistKV.Raft.Polls

/-!
# Election safety

A vote is cast when it is on disk: then it bounds every hard state the node will ever have, through
crashes and failed writes (`Cast.above`). Two votes of one node in one term are therefore for the
same candidate, a leader has the votes of a quorum, and two quorums share a voter: always if the
voters never change, and otherwise as long as the configurations in force make them.
-/

namespace DistKV
namespace Raft

open Run (IsRun)

/-! ## Votes on disk stay -/

theorem step_hard {cfg : Config} {c c' : Cluster} {act : Action} {b : Nat × Nat} {v : Nat}
    (h : HardAbove b (c.node v).store) (hs : c.step cfg act = some c') :
    HardAbove b (c'.node v).store := by
  have hnode := step_node hs v
  generalize c'.node v = m at hnode ⊢
  cases hnode with
  | same => exact h
  | ran e faults op eff runs resolves exec => exact (exec_hard h exec).1
  | restarted during faults point keep files store crashes found opens =>
    have hfiles : FilesAbove b files := by
      rcases filesAt_some found with ⟨-, rfl⟩ | ⟨e, n, eff, -, hout, hmem⟩
      · exact h.files
      · obtain ⟨op, -, -, hex⟩ := outcome_some hout
        exact (exec_hard h hex).2 files hmem
    exact hfiles.recover opens

/-- By moment `k` of a run, node `v` has recorded its vote of `term` for `x`. -/
def Cast (σ : Nat → Cluster) (k v term x : Nat) : Prop :=
  x ≠ 0 ∧ ∃ j ≤ k, hardOf ((σ j).node v).store.disk.files.synced = (term, x)

section Run

variable {cfg : Config} {σ : Nat → Cluster} {α : Nat → Option Action}

theorem Cast.mono {j k v term x : Nat} (h : Cast σ j v term x) (hjk : j ≤ k) :
    Cast σ k v term x := by
  obtain ⟨hx, l, hl, hrec⟩ := h
  exact ⟨hx, l, Nat.le_trans hl hjk, hrec⟩

/-- A vote bounds every later hard state of the node. -/
theorem Cast.above (hrun : IsRun (Cluster.step cfg) (Cluster.init cfg) σ α) {k v term x : Nat}
    (h : Cast σ k v term x) : HardAbove (term, x) ((σ k).node v).store := by
  obtain ⟨-, j, hjk, hrec⟩ := h
  have hhard := ((hardRule cfg).run hrun (fun _ _ _ _ _ _ _ _ _ => trivial) j).node v
  have hstart : HardAbove (term, x) ((σ j).node v).store :=
    hhard.raise (by rw [hrec]; exact .refl _)
  exact hrun.invariant_from (P := fun c => HardAbove (term, x) (c.node v).store) hstart
    (fun t act _ ha ht => step_hard ht (hrun.next t act ha)) hjk

/-- **A node votes once in a term.** -/
theorem Cast.unique (hrun : IsRun (Cluster.step cfg) (Cluster.init cfg) σ α)
    {j k v term x y : Nat} (h : Cast σ j v term x) (h' : Cast σ k v term y) : x = y := by
  obtain ⟨hx, l, -, hl⟩ := h
  obtain ⟨hy, l', -, hl'⟩ := h'
  have hlater : ∀ {l l' x y}, x ≠ 0 → l ≤ l' →
      hardOf ((σ l).node v).store.disk.files.synced = (term, x) →
      hardOf ((σ l').node v).store.disk.files.synced = (term, y) → y = x := by
    intro l l' x y hx hle hl hl'
    have hbound := (Cast.above hrun ⟨hx, l, hle, hl⟩).files.above
    rw [hl'] at hbound
    exact hbound.vote hx rfl
  rcases Nat.le_total l l' with hle | hle
  · exact (hlater hx hle hl hl').symm
  · exact hlater hy hle hl' hl

/-! ## Leaders -/

section Quorums

variable {Q : Finset Nat → Prop}

theorem polls_run (hrun : IsRun (Cluster.step cfg) (Cluster.init cfg) σ α)
    (hid : ∀ k i, ((σ k).node i).id = i)
    (hcounts : ∀ k i V, ((σ k).node i).Counting V → Q V)
    (hsteady : ∀ k i, ((σ (k + 1)).node i).role = .candidate →
      ((σ (k + 1)).node i).conf = ((σ k).node i).conf) (k : Nat) :
    Polls Q (Cast σ k) (σ k) := by
  induction k with
  | zero => rw [hrun.start]; exact Polls.init
  | succ k ih =>
    have hmono : ∀ v t x, Cast σ k v t x → Cast σ (k + 1) v t x :=
      fun v t x h => h.mono (Nat.le_succ k)
    cases ha : α k with
    | none => rw [hrun.idle k ha]; exact ih.mono hmono
    | some act =>
      refine ih.step (hid k) (hcounts k) (hrun.next k act ha) (hsteady k) hmono
        (fun v t x hx hrec => ?_) fun v t x h => ?_
      · exact ⟨hx, k + 1, Nat.le_refl _, hrec⟩
      · exact (h.above hrun).le.term

theorem Elected.unique (hrun : IsRun (Cluster.step cfg) (Cluster.init cfg) σ α)
    (hmeet : ∀ V W, Q V → Q W → ∃ v, v ∈ V ∧ v ∈ W)
    {j k a b term : Nat} (h : Elected Q (Cast σ j) a term) (h' : Elected Q (Cast σ k) b term) :
    a = b := by
  obtain ⟨V, hV, hvote⟩ := h
  obtain ⟨W, hW, hvote'⟩ := h'
  obtain ⟨v, hv, hw⟩ := hmeet V W hV hW
  exact (hvote v hv).unique hrun (hvote' v hw)

end Quorums

theorem fixed_run (hrun : IsRun (Cluster.step cfg) (Cluster.init cfg) σ α)
    (fixed : ∀ k act, α k = some act → ¬act.Reconfigures (σ k)) (k : Nat) :
    All (fixedVoters cfg) (σ k) :=
  (fixedRule cfg).run hrun (fun j act hact => Action.within_noConfChange (fixed j act hact)) k

theorem polls_fixed (hrun : IsRun (Cluster.step cfg) (Cluster.init cfg) σ α)
    (fixed : ∀ k act, α k = some act → ¬act.Reconfigures (σ k)) (k : Nat) :
    Polls (ConfState.newConfState cfg.peers).Counts (Cast σ k) (σ k) := by
  have hconf : ∀ k i, ((σ k).node i).conf = .newConfState cfg.peers :=
    fun k i => ((fixed_run hrun fixed k).node i).2.1
  refine polls_run hrun (fun k i => ((fixed_run hrun fixed k).node i).1) (fun k i V hV => ?_)
    (fun k i _ => (hconf (k + 1) i).trans (hconf k i).symm) k
  have hc := hV.2
  rw [hconf] at hc
  exact hc

end Run

/-! ## The theorem -/

/-- In this action node `v` votes for `x` in `term`. -/
inductive VotesFor (c : Cluster) (act : Action) (v term x : Nat) : Prop
  /-- `HandleRequestVote` answers `VoteGranted`. -/
  | grants (e : Event) (faults : List Bool) (n : Node) (eff : Effect) (req : RequestVoteRequest)
      (resp : RequestVoteResponse) (runs : act = .run e faults)
      (handles : c.resolve e = some (v, .handle (.requestVote req)))
      (outcome : c.outcome e faults = some (v, n, eff))
      (answer : eff.resp = some (.requestVote resp)) (granted : resp.voteGranted = true)
      (request : (term, x) = (req.term, req.candidateId))
  /-- `startElectionLocked` asks for votes, having voted for the node itself. -/
  | itself (e : Event) (faults : List Bool) (n : Node) (eff : Effect) (s : Send)
      (req : RequestVoteRequest) (runs : act = .run e faults)
      (outcome : c.outcome e faults = some (v, n, eff)) (asks : s ∈ eff.sends)
      (request : s.req = .requestVote req) (own : (term, x) = (req.term, v))

theorem VotesFor.cast {cfg : Config} {σ : Nat → Cluster} {α : Nat → Option Action}
    (hrun : IsRun (Cluster.step cfg) (Cluster.init cfg) σ α)
    (fixed : ∀ k act, α k = some act → ¬act.Reconfigures (σ k)) {k v term x : Nat} {act : Action}
    (hact : α k = some act) (h : VotesFor (σ k) act v term x) : Cast σ (k + 1) v term x := by
  have hnext : ∀ {e faults n eff}, act = .run e faults →
      (σ k).outcome e faults = some (v, n, eff) → (σ (k + 1)).node v = n := by
    rintro e faults n eff rfl hout
    obtain ⟨i, n', eff', hout', hnext⟩ := step_run (hrun.next k _ hact)
    obtain ⟨rfl, rfl, rfl⟩ : v = i ∧ n = n' ∧ eff = eff' := by
      simpa using hout.symm.trans hout'
    rw [hnext, node_finishSection, if_pos rfl]
  cases h with
  | grants e faults n eff req resp runs handles outcome answer granted request =>
    obtain ⟨rfl, rfl⟩ := Prod.mk.inj request
    obtain ⟨source, hcall⟩ := (polls_fixed hrun fixed k).all.op handles
    obtain ⟨op, hres, -, hex⟩ := outcome_some outcome
    obtain ⟨-, rfl⟩ := Prod.mk.inj (Option.some.inj (handles.symm.trans hres))
    refine ⟨by rw [hcall.1]; exact hcall.2.1, k + 1, Nat.le_refl _, ?_⟩
    rw [hnext runs outcome]
    have hlock := Node.exec_unlocked hex
    simp only [Node.exec, hlock, Bool.false_eq_true, if_false] at hex
    obtain ⟨rfl, rfl⟩ := Prod.mk.inj (Option.some.inj hex)
    obtain rfl := Response.requestVote.inj (Option.some.inj answer)
    exact handleRequestVote_durable granted
  | itself e faults n eff s req runs outcome asks request own =>
    obtain ⟨rfl, rfl⟩ := Prod.mk.inj own
    obtain ⟨op, -, hv, hex⟩ := outcome_some outcome
    obtain ⟨election, hterm, -⟩ := Node.exec_asks hex asks request
    have hid := ((fixed_run hrun fixed k).node x).1
    refine ⟨hv, k + 1, Nat.le_refl _, ?_⟩
    rw [hnext runs outcome, hterm, election.term, election.recorded]
    exact congrArg (Prod.mk _) hid

/-- **Election safety.** In every run without configuration changes, with any failures, there is
    one leader in a term at most, over the whole run, and every node votes for one candidate in a
    term at most. -/
theorem election_safety (cfg : Config) (σ : Nat → Cluster) (α : Nat → Option Action)
    (hrun : IsRun (Cluster.step cfg) (Cluster.init cfg) σ α)
    (fixed : ∀ k act, α k = some act → ¬act.Reconfigures (σ k)) :
    (∀ j k a b, ((σ j).node a).role = .leader → ((σ k).node b).role = .leader →
      ((σ j).node a).store.term = ((σ k).node b).store.term → a = b) ∧
    ∀ j k act act' v term x y, α j = some act → α k = some act' →
      VotesFor (σ j) act v term x → VotesFor (σ k) act' v term y → x = y := by
  constructor
  · intro j k a b ha hb hterm
    have helected := (polls_fixed hrun fixed j).all.node a ha
    rw [hterm] at helected
    exact helected.unique hrun (fun _ _ => newConfState_meet)
      ((polls_fixed hrun fixed k).all.node b hb)
  · intro j k act act' v term x y hact hact' h h'
    exact (h.cast hrun fixed hact).unique hrun (h'.cast hrun fixed hact')

/-- Node 1 is the only leader of term 1 in `firstTerm`. -/
theorem election_safety_first : ((stateAt firstTerm 3).node 1).role = .leader ∧
    ∀ k b, ((stateAt firstTerm k).node b).role = .leader →
      ((stateAt firstTerm k).node b).store.term = 1 → b = 1 := by
  refine ⟨by decide +kernel, fun k b hb hterm => ?_⟩
  refine (election_safety threeNodes _ _ (isRun_stateAt (by decide +kernel)) ?_).1 k 3 b 1 hb
    (by decide +kernel) (hterm.trans (by decide +kernel))
  intro j act hact
  have hall : ∀ act ∈ firstTerm, ∀ p ∈ act.section?, p.1.proposesConfChange = false := by decide
  exact Action.not_reconfigures (hall act (List.mem_of_getElem? hact)) _

end Raft
end DistKV
