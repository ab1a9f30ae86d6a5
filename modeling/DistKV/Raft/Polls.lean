import DistKV.Raft.Quorum
import DistKV.Raft.Roles

/-!
# Counting votes

`onVoteReply` counts replies, not voters. The count is still the size of a set of voters: an
election sends one request to each peer, a request is answered for the candidate at most once, and
no later election of the node has the same term. The voters are members of the configuration the
candidate has applied, as long as it applies no other while it is a candidate. `Polls` is this
invariant; what counts as a vote that has been cast (`Ballots`) and which sets are quorums are left
open.
-/

namespace DistKV
namespace Raft

/-- `G v term x`: node `v` has cast its vote of `term` for `x`. -/
abbrev Ballots := Nat → Nat → Nat → Prop

/-- A quorum has voted for `i`. -/
def Elected (Q : Finset Nat → Prop) (G : Ballots) (i term : Nat) : Prop :=
  ∃ V, Q V ∧ ∀ v ∈ V, G v term i

theorem Elected.mono {Q : Finset Nat → Prop} {G G' : Ballots} {i term : Nat}
    (h : Elected Q G i term) (hG : ∀ v t x, G v t x → G' v t x) : Elected Q G' i term := by
  obtain ⟨V, hV, hvote⟩ := h
  exact ⟨V, hV, fun v hv => hG _ _ _ (hvote v hv)⟩

/-- A candidate asks the others, in its own name, after it has voted for itself. -/
def PollRequest (G : Ballots) (source dest : Nat) : Request → Prop
  | .requestVote req => req.candidateId = source ∧ source ≠ 0 ∧ G source req.term source ∧
      dest ≠ source
  | _ => True

def PollReply (G : Ballots) (voter : Nat) : Request → Response → Prop
  | .requestVote req, .requestVote resp =>
      resp.voteGranted = true → G voter req.term req.candidateId
  | _, _ => True

def polled (Q : Finset Nat → Prop) (G : Ballots) : Assertion where
  node i n := n.role = .leader → Elected Q G i n.store.term
  call := PollRequest G
  reply := PollReply G

theorem polled_keeps {Q : Finset Nat → Prop} {G G' : Ballots}
    (hG : ∀ v t x, G v t x → G' v t x) (c : Cluster) (i : Nat) :
    (polled Q G).Keeps (polled Q G') c i where
  call s d r h := by
    cases r with
    | requestVote req => exact ⟨h.1, h.2.1, hG _ _ _ h.2.2.1, h.2.2.2⟩
    | _ => trivial
  reply d q r h := by
    cases q with
    | requestVote req =>
      cases r with
      | requestVote resp => exact fun hgranted => hG _ _ _ (h hgranted)
      | _ => trivial
    | _ => trivial
  node _ _ h hl := (h hl).mono hG
  waiting _ _ _ _ h := h

/-! ## One request per candidate, voter and term -/

/-- Candidate, voter and term of a vote request. -/
def Call.poll (call : Call) : Option (Nat × Nat × Nat) :=
  match call.req with
  | .requestVote req => some (call.source, call.dest, req.term)
  | _ => none

theorem Call.poll_congr {call call' : Call} (hs : call'.source = call.source)
    (hd : call'.dest = call.dest) (hr : call'.req = call.req) : call'.poll = call.poll := by
  rw [poll, poll, hs, hd, hr]

def polls (calls : List Call) : List (Nat × Nat × Nat) := calls.filterMap Call.poll

theorem filterMap_modify {α β : Type} {g : α → Option β} {f : α → α} (hf : ∀ a, g (f a) = g a)
    (l : List α) (k : Nat) : (l.modify k f).filterMap g = l.filterMap g := by
  induction l generalizing k with
  | nil => cases k <;> rfl
  | cons a l ih =>
    cases k with
    | zero => simp [List.modify_zero_cons, List.filterMap_cons, hf]
    | succ k => simp [List.modify_succ_cons, List.filterMap_cons, ih]

theorem filterMap_map_congr {α β : Type} {g : α → Option β} {f : α → α} (hf : ∀ a, g (f a) = g a)
    (l : List α) : (l.map f).filterMap g = l.filterMap g := by
  rw [List.filterMap_map]
  exact List.filterMap_congr fun a _ => hf a

theorem polls_addReply (calls : List Call) (k : Nat) (resp : Response) :
    polls (calls.modify k (·.addReply resp)) = polls calls :=
  filterMap_modify (g := Call.poll) (f := (·.addReply resp)) (fun _ => rfl) calls k

theorem polls_setPhase (calls : List Call) (k : Nat) (f : Call → CallPhase) :
    polls (calls.modify k fun call => { call with phase := f call }) = polls calls :=
  filterMap_modify (g := Call.poll) (f := fun call => { call with phase := f call })
    (fun _ => rfl) calls k

theorem polls_finishSection {c : Cluster} {e : Event} {i : Nat} {n : Node} {eff : Effect} :
    polls (c.finishSection e i n eff).calls =
      polls c.calls ++ eff.sends.filterMap fun s => (Cluster.openCall i s).poll := by
  have hsettle : polls ((c.setProc i { c.procs i with node := n }).settle i eff e).calls =
      polls c.calls := by
    cases e with
    | deliver k =>
      simp only [Cluster.settle]
      split
      · rfl
      split
      · exact polls_addReply _ _ _
      · rfl
    | reply k r => exact polls_setPhase _ _ _
    | finish k => exact polls_setPhase _ _ _
    | _ => rfl
  rw [Cluster.finishSection, polls, List.filterMap_append, List.filterMap_map]
  exact congrArg (· ++ _) hsettle

theorem polls_restarted {cfg : Config} {c : Cluster} {i : Nat} {store : DiskStorage} :
    polls (c.restarted cfg i store).calls = polls c.calls := by
  refine filterMap_map_congr (fun call => ?_) _
  split <;> rfl

theorem polls_silent {cfg : Config} {c c' : Cluster} {act : Action}
    (hs : c.step cfg act = some c') (hrun : act.section? = none)
    (hrestart : ∀ i d f p k, act ≠ .restart i d f p k) : polls c'.calls = polls c.calls := by
  cases act with
  | run e f => cases hrun
  | restart i d f p k => exact absurd rfl (hrestart i d f p k)
  | emit i =>
    simp only [Cluster.step] at hs
    split at hs
    · cases hs
    · obtain rfl := Option.some.inj hs
      rfl
  | emitInstall i k =>
    obtain ⟨q, -, rfl⟩ := Option.map_eq_some_iff.mp hs
    exact polls_addReply _ _ _
  | abort k =>
    obtain ⟨call, -, hs⟩ := Option.bind_eq_some_iff.mp hs
    split at hs
    · obtain rfl := Option.some.inj hs
      exact polls_setPhase _ _ _
    · cases hs
  | readIndex i =>
    simp only [Cluster.step] at hs
    split at hs
    · cases hs
    · obtain rfl := Option.some.inj hs
      rw [Cluster.startRead, polls, List.filterMap_append, List.filterMap_map]
      simp [Function.comp_def, Call.poll, polls]
  | readReturn r =>
    obtain ⟨rd, -, hs⟩ := Option.bind_eq_some_iff.mp hs
    simp only at hs
    split at hs
    · obtain rfl := Option.some.inj hs
      rfl
    · cases hs
  | readAbort r =>
    obtain ⟨rd, -, hs⟩ := Option.bind_eq_some_iff.mp hs
    split at hs
    · obtain rfl := Option.some.inj hs
      rfl
    · cases hs

/-- If no request is repeated, a call is determined by its candidate, voter and term. -/
theorem poll_unique {calls : List Call} (h : (polls calls).Nodup) {k k' : Nat} {call call' : Call}
    {x : Nat × Nat × Nat} (hk : calls[k]? = some call) (hk' : calls[k']? = some call')
    (hx : call.poll = some x) (hx' : call'.poll = some x) : k = k' := by
  rw [polls, List.Nodup, List.pairwise_filterMap, List.pairwise_iff_getElem] at h
  obtain ⟨hlt, rfl⟩ := List.getElem?_eq_some_iff.mp hk
  obtain ⟨hlt', rfl⟩ := List.getElem?_eq_some_iff.mp hk'
  rcases Nat.lt_trichotomy k k' with hlt'' | heq | hgt
  · exact absurd rfl (h k k' hlt hlt' hlt'' x hx x hx')
  · exact heq
  · exact absurd rfl (h k' k hlt' hlt hgt x hx' x hx)

/-! ## The count -/

/-- The vote of `v` in the election of `i` has been cast, and its reply taken. -/
def Counted (G : Ballots) (calls : List Call) (i term v : Nat) : Prop :=
  G v term i ∧ (v = i ∨ ∃ (k : Nat) (call : Call), calls[k]? = some call ∧
    call.poll = some (i, v, term) ∧ call.phase ≠ .waiting)

theorem Counted.poll {G : Ballots} {calls : List Call} {i term v : Nat}
    (h : Counted G calls i term v) : v = i ∨ (i, v, term) ∈ polls calls := by
  rcases h.2 with hself | ⟨k, call, hk, hpoll, -⟩
  · exact .inl hself
  · exact .inr (List.mem_filterMap.mpr ⟨call, List.mem_of_getElem? hk, hpoll⟩)

/-- Who may vote in the election a candidate is in. -/
def Node.electorate (n : Node) (term v : Nat) : Prop :=
  n.role = .candidate → n.store.term = term → v ∈ n.conf.allPeerIDs

/-- `votes` is at most the number of voters, among `S`, that have been counted. -/
def Tally (S : Nat → Prop) (G : Ballots) (calls : List Call) (i term votes : Nat) : Prop :=
  ∃ V : Finset Nat, votes ≤ V.card ∧ ∀ v ∈ V, Counted G calls i term v ∧ S v

structure Polls (Q : Finset Nat → Prop) (G : Ballots) (c : Cluster) : Prop where
  all : All (polled Q G) c
  once : (polls c.calls).Nodup
  asked : ∀ i v term, (i, v, term) ∈ polls c.calls → (c.node i).electorate term v
  count : ∀ i term, Tally ((c.node i).electorate term) G c.calls i term ((c.node i).votes term)

section Step

variable {cfg : Config} {Q : Finset Nat → Prop} {G G' : Ballots} {c c' : Cluster}

theorem Counted.mono {calls calls' : List Call} {replied : Nat → Response → Prop}
    {new : Call → Prop} {i term v : Nat} (h : Counted G calls i term v)
    (hG : ∀ v t x, G v t x → G' v t x) (hg : Grows calls calls' replied new) :
    Counted G' calls' i term v := by
  refine ⟨hG _ _ _ h.1, ?_⟩
  rcases h.2 with hself | ⟨k, call, hk, hpoll, hphase⟩
  · exact .inl hself
  · obtain ⟨call', hk', hs, hd, hr, -, hw, -⟩ := hg.old k call hk
    exact .inr ⟨k, call', hk', (Call.poll_congr hs hd hr).trans hpoll, fun h => hphase (hw h)⟩

theorem Tally.mono {S S' : Nat → Prop} {calls calls' : List Call}
    {replied : Nat → Response → Prop} {new : Call → Prop} {i term votes : Nat}
    (h : Tally S G calls i term votes) (hG : ∀ v t x, G v t x → G' v t x)
    (hg : Grows calls calls' replied new)
    (hS : ∀ v, Counted G calls i term v → S v → S' v) : Tally S' G' calls' i term votes := by
  obtain ⟨V, hcard, hcounted⟩ := h
  refine ⟨V, hcard, fun v hv => ?_⟩
  obtain ⟨hcount, hs⟩ := hcounted v hv
  exact ⟨hcount.mono hG hg, hS v hcount hs⟩

theorem Tally.zero {S : Nat → Prop} {calls : List Call} {i term : Nat} :
    Tally S G calls i term 0 :=
  ⟨∅, Nat.zero_le _, fun _ hv => absurd hv (Finset.notMem_empty _)⟩

/-- A candidate counts its own vote first. -/
theorem Tally.own {S : Nat → Prop} {calls : List Call} {i term : Nat} (hi : S i)
    (hvote : G i term i) : Tally S G calls i term 1 := by
  refine ⟨{i}, by rw [Finset.card_singleton], fun v hv => ?_⟩
  rw [Finset.mem_singleton.mp hv]
  exact ⟨⟨hvote, .inl rfl⟩, hi⟩

/-- One more vote: the voter has not been counted, because its only request is still open. -/
theorem Tally.add {S : Nat → Prop} {calls calls' : List Call} {replied : Nat → Response → Prop}
    {new : Call → Prop} {i term votes v k : Nat} {call call' : Call}
    (h : Tally S G calls i term votes)
    (hG : ∀ v t x, G v t x → G' v t x) (hg : Grows calls calls' replied new)
    (honce : (polls calls).Nodup) (hk : calls[k]? = some call) (hpoll : call.poll = some (i, v, term))
    (hwait : call.phase = .waiting) (hk' : calls'[k]? = some call') (hdone : call'.phase ≠ .waiting)
    (hv : S v) (hne : v ≠ i) (hvote : G' v term i) :
    Tally S G' calls' i term (votes + 1) := by
  obtain ⟨V, hcard, hcounted⟩ := h
  have hfresh : v ∉ V := by
    intro hmem
    rcases (hcounted v hmem).1.2 with hself | ⟨k₀, call₀, hk₀, hpoll₀, hphase₀⟩
    · exact hne hself
    · obtain rfl := poll_unique honce hk hk₀ hpoll hpoll₀
      rw [hk, Option.some.injEq] at hk₀
      exact hphase₀ (hk₀ ▸ hwait)
  refine ⟨insert v V, ?_, fun w hw => ?_⟩
  · rw [Finset.card_insert_of_notMem hfresh]
    exact Nat.succ_le_succ hcard
  · rcases Finset.mem_insert.mp hw with rfl | hw
    · obtain ⟨call'', hk'', hs, hd, hr, -⟩ := hg.old k call hk
      rw [hk', Option.some.injEq] at hk''
      subst hk''
      exact ⟨⟨hvote, .inr ⟨k, call', hk', (Call.poll_congr hs hd hr).trans hpoll, hdone⟩⟩, hv⟩
    · exact ⟨(hcounted w hw).1.mono hG hg, (hcounted w hw).2⟩

/-- A full tally is an election. -/
theorem Tally.elected {calls : List Call} {i term votes : Nat} {n : Node}
    (h : Tally (n.electorate term) G calls i term votes) (candidate : n.role = .candidate)
    (current : n.store.term = term) (hq : n.conf.hasVoteQuorum votes = true)
    (hcounts : ∀ V, n.Counting V → Q V) : Elected Q G i term := by
  obtain ⟨V, hcard, hcounted⟩ := h
  have hrole : n.role ≠ .follower := by
    rw [candidate]
    decide
  refine ⟨V, hcounts V ⟨hrole, fun v hv => ?_, ConfState.hasVoteQuorum_mono hq hcard⟩,
    fun v hv => (hcounted v hv).1.1⟩
  exact List.mem_toFinset.mpr ((hcounted v hv).2 candidate current)

/-- The phase of the call whose reply a section takes. -/
theorem reply_finishSection {k r i : Nat} {n : Node} {eff : Effect} {call : Call}
    (hk : c.calls[k]? = some call) :
    (c.finishSection (.reply k r) i n eff).calls[k]? =
      some { call with phase := call.afterReply } := by
  simp only [Cluster.finishSection, Cluster.settle, Cluster.setProc]
  rw [List.getElem?_append_left
    (by rw [List.length_modify]; exact (List.getElem?_eq_some_iff.mp hk).1),
    List.getElem?_modify_eq, hk]
  rfl

section OneSection

variable {e : Event} {i : Nat} {op : NodeOp} {faults : List Bool} {n : Node} {eff : Effect}

/-- No request asks for a later term than the candidate has reached. -/
theorem Polls.poll_le (h : Polls Q G c) (hterm : ∀ t, G i t i → t ≤ (c.node i).store.term)
    {v term : Nat} (hp : (i, v, term) ∈ polls c.calls) : term ≤ (c.node i).store.term := by
  obtain ⟨call, hmem, hpoll⟩ := List.mem_filterMap.mp hp
  obtain ⟨k, hk⟩ := List.mem_iff_getElem?.mp hmem
  have hcall := (h.all.call k call hk).1
  cases hreq : call.req with
  | requestVote req =>
    simp only [Call.poll, hreq, Option.some.injEq, Prod.mk.injEq] at hpoll
    rw [hreq, hpoll.1] at hcall
    rw [← hpoll.2.2]
    exact hterm _ hcall.2.2.1
  | _ => simp [Call.poll, hreq] at hpoll

theorem Polls.counted_le (h : Polls Q G c) (hterm : ∀ t, G i t i → t ≤ (c.node i).store.term)
    {v term : Nat} (hv : Counted G c.calls i term v) : term ≤ (c.node i).store.term := by
  rcases hv.poll with rfl | hp
  · exact hterm _ hv.1
  · exact h.poll_le hterm hp

/-- The electorate of an election that goes on does not change. -/
theorem electorate_section (hex : ((c.node i).withFaults faults).exec op = some (n, eff))
    (hsteady : n.role = .candidate → n.conf = (c.node i).conf) {term v : Nat}
    (hle : term ≤ (c.node i).store.term) (h : (c.node i).electorate term v) :
    n.electorate term v := by
  intro hc ht
  cases Node.exec_role hex with
  | follower role _ => rw [role] at hc; cases hc
  | same role term' _ _ =>
    rw [hsteady hc]
    exact h (role.symm.trans hc) (term'.symm.trans ht)
  | failed _ term' _ _ =>
    have hlater : n.store.term = (c.node i).store.term + 1 := term'
    omega
  | campaign election =>
    have hlater : n.store.term = (c.node i).store.term + 1 := election.term
    omega
  | vote _ _ _ _ candidate _ _ term' _ _ _ =>
    rw [hsteady hc]
    exact h candidate (term'.symm.trans ht)

/-- The requests of a section belong to the election it starts. -/
theorem poll_new (hex : ((c.node i).withFaults faults).exec op = some (n, eff))
    {x : Nat × Nat × Nat} (hx : x ∈ eff.sends.filterMap fun s => (Cluster.openCall i s).poll) :
    ∃ s ∈ eff.sends, x = (i, s.peer, n.store.term) ∧
      Campaign ((c.node i).withFaults faults) n eff.sends := by
  obtain ⟨s, hs, hpoll⟩ := List.mem_filterMap.mp hx
  cases hreq : s.req with
  | requestVote req =>
    obtain ⟨election, hreqterm, -⟩ := Node.exec_asks hex hs hreq
    simp only [Cluster.openCall, Call.poll, hreq, Option.some.injEq] at hpoll
    exact ⟨s, hs, by rw [← hpoll, hreqterm], election⟩
  | _ => simp [Cluster.openCall, Call.poll, hreq] at hpoll

theorem Polls.once_section (h : Polls Q G c)
    (hex : ((c.node i).withFaults faults).exec op = some (n, eff))
    (hterm : ∀ t, G i t i → t ≤ (c.node i).store.term) :
    (polls (c.finishSection e i n eff).calls).Nodup := by
  rw [polls_finishSection]
  by_cases hnone : (eff.sends.filterMap fun s => (Cluster.openCall i s).poll) = []
  · rw [hnone, List.append_nil]
    exact h.once
  obtain ⟨x₀, hx₀⟩ := List.exists_mem_of_ne_nil _ hnone
  obtain ⟨-, -, -, helect⟩ := poll_new hex hx₀
  -- every request of the election has the new term, and the peers are different
  have hpeers : (eff.sends.map (·.peer)).Nodup := by
    rw [helect.peers]
    exact ConfState.allPeerIDs_nodup.filter _
  refine List.nodup_append.mpr ⟨h.once, ?_, ?_⟩
  · rw [List.Nodup, List.pairwise_map] at hpeers
    rw [List.Nodup, List.pairwise_filterMap]
    refine hpeers.imp_of_mem fun {a b} ha hb hab x hx y hy hxy => hab ?_
    have hpeer : ∀ s x, (Cluster.openCall i s).poll = some x → x.2.1 = s.peer := by
      intro s x hx
      cases hreq : s.req with
      | requestVote req =>
        simp only [Cluster.openCall, Call.poll, hreq, Option.some.injEq] at hx
        rw [← hx]
      | _ => simp [Cluster.openCall, Call.poll, hreq] at hx
    rw [← hpeer a x hx, ← hpeer b y hy, hxy]
  · rintro x hx y hy rfl
    obtain ⟨s, -, rfl, -⟩ := poll_new hex hy
    have hle := h.poll_le hterm hx
    have hlater : n.store.term = (c.node i).store.term + 1 := helect.term
    omega

theorem Polls.asked_section (h : Polls Q G c)
    (hex : ((c.node i).withFaults faults).exec op = some (n, eff))
    (hsteady : n.role = .candidate → n.conf = (c.node i).conf)
    (hterm : ∀ t, G i t i → t ≤ (c.node i).store.term) (j v term : Nat)
    (hp : (j, v, term) ∈ polls (c.finishSection e i n eff).calls) :
    ((c.finishSection e i n eff).node j).electorate term v := by
  rw [node_finishSection]
  rw [polls_finishSection, List.mem_append] at hp
  rcases hp with hp | hp
  · split
    · next hj =>
      subst hj
      exact electorate_section hex hsteady (h.poll_le hterm hp) (h.asked _ v term hp)
    · exact h.asked j v term hp
  · obtain ⟨s, hs, hx, election⟩ := poll_new hex hp
    obtain ⟨rfl, rfl, rfl⟩ : j = i ∧ v = s.peer ∧ term = n.store.term := by simpa using hx
    rw [if_pos rfl]
    intro hc _
    have hmem := List.mem_map_of_mem (f := (·.peer)) hs
    rw [election.peers] at hmem
    rw [hsteady hc]
    exact List.mem_of_mem_filter hmem

/-- A granted vote belongs to the open request of this candidate to this voter. -/
theorem Polls.vote_tally (h : Polls Q G c) {peer : Nat} {req : RequestVoteRequest}
    {resp : RequestVoteResponse}
    (hres : c.resolve e = some (i, .reply peer (.requestVote req) (.requestVote resp)))
    (granted : resp.voteGranted = true) (hG : ∀ v t x, G v t x → G' v t x) (n : Node)
    (eff : Effect) : Tally ((c.node i).electorate req.term) G' (c.finishSection e i n eff).calls i req.term
      ((c.node i).votes req.term + 1) := by
  obtain ⟨k, r, call, rfl, hk, hwait, rfl, rfl, hreq, hresp⟩ := resolve_reply hres
  obtain ⟨hcall, hreplies⟩ := h.all.call k call hk
  have hpoll : call.poll = some (call.source, call.dest, req.term) := by rw [Call.poll, hreq]
  rw [hreq] at hcall hreplies
  obtain ⟨hcand, -, -, hne⟩ := hcall
  have hvote := hreplies _ hresp granted
  rw [hcand] at hvote
  refine (h.count call.source req.term).add hG grows_finishSection h.once hk hpoll hwait
    (reply_finishSection hk) call.afterReply_ne (h.asked _ _ _ ?_) hne (hG _ _ _ hvote)
  exact List.mem_filterMap.mpr ⟨call, List.mem_of_getElem? hk, hpoll⟩

/-- The vote that fills the quorum. -/
theorem Polls.wins (h : Polls Q G c) {peer : Nat} {req : RequestVoteRequest}
    {resp : RequestVoteResponse}
    (hres : c.resolve e = some (i, .reply peer (.requestVote req) (.requestVote resp)))
    (candidate : (c.node i).role = .candidate) (current : (c.node i).store.term = req.term)
    (granted : resp.voteGranted = true)
    (hq : (c.node i).conf.hasVoteQuorum ((c.node i).votes req.term + 1) = true)
    {Q' : Finset Nat → Prop} (hcounts : ∀ V, (c.node i).Counting V → Q' V)
    (hG : ∀ v t x, G v t x → G' v t x) : Elected Q' G' i req.term :=
  (h.vote_tally hres granted hG (c.node i) {}).elected candidate current hq hcounts

/-- The count of node `i` after one of its sections. -/
theorem Polls.count_section (h : Polls Q G c) (hid : (c.node i).id = i) (hi : i ≠ 0)
    (hres : c.resolve e = some (i, op))
    (hex : ((c.node i).withFaults faults).exec op = some (n, eff))
    (hsteady : n.role = .candidate → n.conf = (c.node i).conf)
    (hG : ∀ v t x, G v t x → G' v t x)
    (hcast : ∀ t x, x ≠ 0 → hardOf n.store.disk.files.synced = (t, x) → G' i t x)
    (hterm : ∀ t, G i t i → t ≤ (c.node i).store.term) (term : Nat) :
    Tally (n.electorate term) G' (c.finishSection e i n eff).calls i term (n.votes term) := by
  have hkeep : Tally (n.electorate term) G' (c.finishSection e i n eff).calls i term
      ((c.node i).votes term) :=
    (h.count i term).mono hG grows_finishSection fun v hv hs =>
      electorate_section hex hsteady (h.counted_le hterm hv) hs
  have hsame : n.votes = (c.node i).votes →
      Tally (n.electorate term) G' (c.finishSection e i n eff).calls i term (n.votes term) := by
    intro hvotes
    rw [hvotes]
    exact hkeep
  cases Node.exec_role hex with
  | follower _ votes => exact hsame votes
  | same _ _ votes _ => exact hsame votes
  | failed _ _ votes _ => exact hsame votes
  | campaign election =>
    rw [election.votes, Function.update_apply]
    split
    · next hnew =>
      have hmember : (c.node i).conf.contains (c.node i).id = true := election.member
      have hrec : hardOf n.store.disk.files.synced = ((c.node i).store.term + 1, (c.node i).id) :=
        election.recorded
      rw [hid] at hmember hrec
      rw [hnew]
      refine Tally.own (fun hc _ => ?_) (hcast _ _ hi hrec)
      rw [hsteady hc]
      exact ConfState.contains_allPeerIDs hmember
    · exact hkeep
  | vote peer req resp request candidate current granted current' votes _ _ =>
    rw [votes, Function.update_apply]
    split
    swap
    · exact hkeep
    next hreq =>
    subst hreq request
    obtain ⟨V, hcard, hcounted⟩ := h.vote_tally hres granted hG n eff
    refine ⟨V, hcard, fun v hv => ⟨(hcounted v hv).1, fun hc _ => ?_⟩⟩
    rw [hsteady hc]
    exact (hcounted v hv).2 candidate current

theorem Polls.all_section (h : Polls Q G c) (hid : (c.node i).id = i) (hi : i ≠ 0)
    (hcounts : ∀ V, (c.node i).Counting V → Q V)
    (hres : c.resolve e = some (i, op))
    (hex : ((c.node i).withFaults faults).exec op = some (n, eff))
    (hG : ∀ v t x, G v t x → G' v t x)
    (hcast : ∀ t x, x ≠ 0 → hardOf n.store.disk.files.synced = (t, x) → G' i t x) :
    All (polled Q G') (c.finishSection e i n eff) := by
  refine h.all.section hres (polled_keeps hG c i) ?_ (fun _ _ _ => trivial) ?_ ?_
  · intro hl
    cases Node.exec_role hex with
    | follower role _ => rw [role] at hl; cases hl
    | same role term _ _ =>
      have hwas := h.all.node i (role.symm.trans hl)
      have hterm : n.store.term = (c.node i).store.term := term
      rw [hterm]
      exact hwas.mono hG
    | failed role _ _ _ => rw [role] at hl; cases hl
    | campaign election => rw [election.role] at hl; cases hl
    | vote peer req resp request candidate current granted term votes quiet role =>
      subst request
      rcases role with role | ⟨-, hquorum⟩
      · rw [role] at hl; cases hl
      have hterm : n.store.term = req.term := term.trans current
      rw [hterm]
      exact h.wins hres candidate current granted hquorum hcounts hG
  · intro s hs
    refine ⟨?_, trivial⟩
    show PollRequest G' i s.peer s.req
    cases hreq : s.req with
    | requestVote req =>
      obtain ⟨election, hterm, hcand⟩ := Node.exec_asks hex hs hreq
      have hself : n.id = i := (Node.exec_id hex).trans hid
      have hrec : hardOf n.store.disk.files.synced = ((c.node i).store.term + 1, (c.node i).id) :=
        election.recorded
      have hpeer : s.peer ∈ (c.node i).peerIDs.filter (· ≠ (c.node i).id) := by
        have hmem := List.mem_map_of_mem (f := (·.peer)) hs
        rw [election.peers] at hmem
        exact hmem
      have helect : n.store.term = (c.node i).store.term + 1 := election.term
      rw [hid] at hrec hpeer
      refine ⟨hcand.trans hself, hi, ?_, by simpa using (List.mem_filter.mp hpeer).2⟩
      rw [hterm, helect]
      exact hcast _ _ hi hrec
    | _ => trivial
  · rintro req r rfl hresp
    cases req with
    | requestVote req =>
      cases r with
      | requestVote resp =>
        intro hgranted
        obtain ⟨source, hcall⟩ := h.all.op hres
        have hlock := Node.exec_unlocked hex
        simp only [Node.exec, hlock, Bool.false_eq_true, if_false] at hex
        obtain ⟨rfl, rfl⟩ := Prod.mk.inj (Option.some.inj hex)
        obtain rfl := Response.requestVote.inj (Option.some.inj hresp)
        exact hcast _ _ (by rw [hcall.1]; exact hcall.2.1) (handleRequestVote_durable hgranted)
      | _ => trivial
    | _ => trivial

end OneSection

theorem Polls.mono (h : Polls Q G c) (hG : ∀ v t x, G v t x → G' v t x) : Polls Q G' c := by
  have hkeep : (polled Q G).Keeps (polled Q G') c 0 := polled_keeps hG c 0
  have hrefl : Grows c.calls c.calls (fun _ _ => False) (fun _ => False) := Grows.refl
  refine ⟨⟨fun i hl => (h.all.node i hl).mono hG, fun k call hk => ?_, fun _ _ _ _ => trivial,
    fun i q hq => ?_⟩, h.once, h.asked,
    fun i term => (h.count i term).mono hG hrefl fun _ _ hs => hs⟩
  · obtain ⟨hcall, hreplies⟩ := h.all.call k call hk
    exact ⟨hkeep.call _ _ _ hcall, fun r hr => hkeep.reply _ _ _ (hreplies r hr)⟩
  · obtain ⟨call, hk, hr⟩ := h.all.install i q hq
    exact ⟨call, hk, hkeep.reply _ _ _ hr⟩

/-- **Counting votes is sound**, whatever counts as a vote and as a quorum: votes have to include
    what the step records on disk and must not be of later terms than their voters; quorums have to
    include what a configuration in force counts; and a candidate keeps its configuration. -/
theorem Polls.step (h : Polls Q G c) (hid : ∀ i, (c.node i).id = i)
    (hcounts : ∀ i V, (c.node i).Counting V → Q V) {act : Action}
    (hs : c.step cfg act = some c')
    (hsteady : ∀ i, (c'.node i).role = .candidate → (c'.node i).conf = (c.node i).conf)
    (hG : ∀ v t x, G v t x → G' v t x)
    (hcast : ∀ v t x, x ≠ 0 → hardOf (c'.node v).store.disk.files.synced = (t, x) → G' v t x)
    (hterm : ∀ v t x, G v t x → t ≤ (c.node v).store.term) : Polls Q G' c' := by
  have hsilent : act.section? = none → (∀ i d f p k, act ≠ .restart i d f p k) →
      Polls Q G' c' := by
    intro hrun hrestart
    have hnode := silent_node hs hrun hrestart
    have hgrows := grows_silent hs hrun hrestart
    have hpolls := polls_silent hs hrun hrestart
    refine Polls.mono (G := G) ⟨?_, ?_, fun i v term hp => ?_, fun i term => ?_⟩ hG
    · exact h.all.silent hs hrun hrestart fun _ _ _ _ _ _ _ _ hreq =>
        ⟨by rw [hreq]; trivial, trivial⟩
    · rw [hpolls]
      exact h.once
    · rw [hpolls] at hp
      rw [hnode]
      exact h.asked i v term hp
    · rw [hnode]
      exact (h.count i term).mono (fun _ _ _ hv => hv) hgrows fun _ _ hs => hs
  cases act with
  | run e faults =>
    obtain ⟨i, n, eff, ho, rfl⟩ := step_run hs
    obtain ⟨op, hres, hi, hex⟩ := outcome_some ho
    have hnode : (c.finishSection e i n eff).node i = n := by rw [node_finishSection, if_pos rfl]
    have hcast' : ∀ t x, x ≠ 0 → hardOf n.store.disk.files.synced = (t, x) → G' i t x := by
      intro t x hx hrec
      exact hcast i t x hx (by rw [hnode]; exact hrec)
    have hsteady' := hsteady i
    rw [hnode] at hsteady'
    have hown : ∀ t, G i t i → t ≤ (c.node i).store.term := fun t => hterm i t i
    refine ⟨h.all_section (hid i) hi (hcounts i) hres hex hG hcast', h.once_section hex hown,
      h.asked_section hex hsteady' hown, fun j term => ?_⟩
    rw [node_finishSection]
    split
    · next hj =>
      rw [hj]
      exact h.count_section (hid i) hi hres hex hsteady' hG hcast' hown term
    · exact (h.count j term).mono hG grows_finishSection fun _ _ hs => hs
  | restart i during faults point keep =>
    obtain ⟨-, files, store, -, -, rfl⟩ := step_restart hs
    refine ⟨h.all.restarted (polled_keeps hG c i) (fun h => by cases h),
      by rw [polls_restarted]; exact h.once, fun j v term hp => ?_, fun j term => ?_⟩
    · rw [polls_restarted] at hp
      rw [node_restarted]
      split
      · exact fun h => by cases h
      · exact h.asked j v term hp
    · rw [node_restarted]
      split
      · exact Tally.zero
      · exact (h.count j term).mono hG grows_restarted fun _ _ hs => hs
  | _ => exact hsilent rfl (by simp)

theorem Polls.init : Polls Q G (Cluster.init cfg) where
  all := ⟨(fun _ h => by cases h), by simp [Cluster.init], by simp [Cluster.init],
    by simp [Cluster.init, Process.start]⟩
  once := List.nodup_nil
  asked _ _ _ h := by cases h
  count _ _ := Tally.zero

end Step

end Raft
end DistKV
