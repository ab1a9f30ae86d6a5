import DistKV.Server.Announce

/-!
# Waiters and their answers

A handler that has made a proposal waits for the message of its index. What it is told comes from
`applyCh` (`Told`), and what it waits for is the entry it has put at the end of the leader's log
(`Made`). The waiter table is right: the call it names for an index is waiting for that index
(`Registered`).
-/

namespace DistKV
namespace Server

open Raft
open Run (IsRun)

/-! ## The table -/

/-- Call `k` runs in server `i` and waits for `index`. -/
def Waiting (s : Servers) (i index k : Nat) : Prop :=
  ∃ call cc term, s.calls[k]? = some call ∧ call.server = i ∧ call.stage = .waiting cc index term

def Registered (s : Servers) : Prop :=
  ∀ i index k, (s.servers i).waiters index = some k → Waiting s i index k

section Step

variable {cfg : Config} {s s' : Servers} {a : ServiceAction}

theorem Waiting.calls {i index k : Nat} (h : Waiting s i index k) (hcalls : s'.calls = s.calls) :
    Waiting s' i index k := by
  obtain ⟨call, cc, term, hk, hserver, hstage⟩ := h
  exact ⟨call, cc, term, by rw [hcalls]; exact hk, hserver, hstage⟩

/-- Another call moves. -/
theorem Waiting.setStage {i index k k₀ : Nat} {call₀ : RpcCall} {stage : Stage}
    (h : Waiting s i index k) (hk₀ : s.calls[k₀]? = some call₀)
    (hcalls : s'.calls = (s.setStage k₀ stage).calls)
    (hother : ∀ cc term, call₀.stage = .waiting cc index term → call₀.server ≠ i) :
    Waiting s' i index k := by
  obtain ⟨call, cc, term, hk, hserver, hstage⟩ := h
  have hne : k₀ ≠ k := by
    rintro rfl
    rw [hk, Option.some.injEq] at hk₀
    subst hk₀
    exact hother cc term hstage hserver
  refine ⟨call, cc, term, ?_, hserver, hstage⟩
  rw [hcalls, Servers.setStage, List.getElem?_modify, hk]
  simp [hne]

theorem waiters_setServer {i j index : Nat} {st : ServerState} {x : Nat}
    (h : ((s.setServer i st).servers j).waiters index = some x) :
    (j = i ∧ st.waiters index = some x) ∨ (j ≠ i ∧ (s.servers j).waiters index = some x) := by
  simp only [Servers.setServer, Function.update_apply] at h
  split at h
  · next hj => exact .inl ⟨hj, h⟩
  · next hj => exact .inr ⟨hj, h⟩

theorem waiters_unregister {i j index index' : Nat} {x : Nat}
    (h : ((s.unregister i index).servers j).waiters index' = some x) :
    (s.servers j).waiters index' = some x ∧ ¬(j = i ∧ index' = index) := by
  rcases waiters_setServer h with ⟨hj, hrow⟩ | ⟨hne, hrow⟩
  · simp only [Function.update_apply] at hrow
    split at hrow
    · cases hrow
    · next hidx => exact ⟨by rw [hj]; exact hrow, fun hp => hidx hp.2⟩
  · exact ⟨hrow, fun hp => hne hp.1⟩

/-- A row is taken out of the table and the call it was for moves on. -/
theorem Registered.remove {k₀ index₀ : Nat} {call₀ : RpcCall} {stage : Stage} (h : Registered s)
    (hk₀ : s.calls[k₀]? = some call₀)
    (hits : ∀ cc index term, call₀.stage = .waiting cc index term → index = index₀) :
    Registered ((s.unregister call₀.server index₀).setStage k₀ stage) := by
  intro i index k hw
  have hold := waiters_unregister hw
  refine (h i index k hold.1).setStage hk₀ rfl fun cc term hstage hserver => ?_
  exact hold.2 ⟨hserver.symm, hits cc index term hstage⟩

/-- A call that does not wait moves on. -/
theorem Registered.move {k₀ : Nat} {call₀ : RpcCall} {stage : Stage} (h : Registered s)
    (hk₀ : s.calls[k₀]? = some call₀)
    (hidle : ∀ cc index term, call₀.stage ≠ .waiting cc index term)
    (hservers : s'.servers = s.servers) (hcalls : s'.calls = (s.setStage k₀ stage).calls) :
    Registered s' := by
  intro i index k hw
  rw [hservers] at hw
  exact (h i index k hw).setStage hk₀ hcalls fun cc term hstage => absurd hstage (hidle cc index term)

theorem Registered.wake {s₀ : Servers} (h : Registered s₀) (i₀ index₀ : Nat) (ans : Answer) :
    Registered (s₀.wake i₀ index₀ ans) := by
  unfold Servers.wake
  simp only
  split
  · exact h
  next k₀ hk₀ =>
  intro i index k hw
  have hold := waiters_unregister hw
  obtain ⟨call, cc, term, hk, hserver, hstage⟩ := h i index k hold.1
  obtain ⟨call₀, cc₀, term₀, hcall₀, hserver₀, hstage₀⟩ := h i₀ index₀ k₀ hk₀
  refine ⟨call, cc, term, ?_, hserver, hstage⟩
  have hne : k₀ ≠ k := by
    rintro rfl
    rw [hk, Option.some.injEq] at hcall₀
    subst hcall₀
    rw [hstage] at hstage₀
    cases hstage₀
    exact hold.2 ⟨hserver.symm.trans hserver₀, rfl⟩
  rw [List.getElem?_modify, hk]
  simp [hne]

theorem Registered.setServer {i : Nat} {st : ServerState} (h : Registered s)
    (hst : st.waiters = (s.servers i).waiters) : Registered (s.setServer i st) := by
  intro j index k hw
  refine Waiting.calls (s := s) ?_ rfl
  rcases waiters_setServer hw with ⟨hj, hrow⟩ | ⟨-, hrow⟩
  · rw [hst, ← hj] at hrow
    exact h j index k hrow
  · exact h j index k hrow

theorem Registered.consume {i : Nat} {failed : Bool} (h : Registered s)
    (hs : s.consume i failed = some s') : Registered s' := by
  obtain ⟨msg, -, rfl⟩ := Option.map_eq_some_iff.mp hs
  cases msg with
  | snapshot data index term =>
    refine h.setServer ?_
    split <;> rfl
  | confChange cc index term =>
    refine Registered.wake ?_ _ _ _
    exact h.setServer rfl
  | command data index term =>
    refine Registered.wake ?_ _ _ _
    exact h.setServer rfl

/-- No call of another process is lost in a crash, and the process that crashes has no waiters. -/
theorem Registered.raft {act : Action} (h : Registered s) (hs : s.step cfg (.raft act) = some s') :
    Registered s' := by
  obtain ⟨c, -, -, rfl⟩ := step_raft hs
  have hsame : ∀ {s' : Servers}, s'.servers = s.servers → s'.calls = s.calls → Registered s' := by
    intro s' hservers hcalls i index k hw
    rw [hservers] at hw
    exact (h i index k hw).calls hcalls
  cases act with
  | restart i₀ during faults point keep =>
    intro i index k hw
    simp only [Servers.follow, Function.update_apply] at hw
    split at hw
    · cases hw
    next hne =>
    obtain ⟨call, cc, term, hk, hserver, hstage⟩ := h i index k hw
    refine ⟨call, cc, term, ?_, hserver, hstage⟩
    simp only [Servers.follow, List.getElem?_map, hk, Option.map_some, RpcCall.lose, hstage]
    rw [if_neg (by rw [hserver]; exact hne)]
  | run e faults =>
    cases e with
    | collect i => exact hsame rfl rfl
    | _ => exact hsame rfl rfl
  | _ => exact hsame rfl rfl

/-- A call comes in. -/
theorem Registered.call {i : Nat} {rpc : Rpc} (h : Registered s)
    (hs : s.step cfg (.call i rpc) = some s') : Registered s' := by
  simp only [Servers.step] at hs
  split at hs
  · cases hs
  obtain rfl := Option.some.inj hs
  intro j index k hw
  obtain ⟨call, cc, term, hk, hserver, hstage⟩ := h j index k hw
  refine ⟨call, cc, term, ?_, hserver, hstage⟩
  rw [List.getElem?_append_left (List.getElem?_eq_some_iff.mp hk).1]
  exact hk

/-- A handler proposes; it waits for nothing yet. -/
theorem Registered.propose {k₀ : Nat} {faults : List Bool} (h : Registered s)
    (hs : s.step cfg (.propose k₀ faults) = some s') : Registered s' := by
  obtain ⟨call, cc, hk, hstage, -, hservers, -, ⟨err, hcalls⟩ | ⟨index, term, -, hcalls⟩⟩ :=
    Servers.propose_spec hs
  · exact h.move hk (by rw [hstage]; simp) hservers hcalls
  intro j index' k hw
  rw [hservers] at hw
  obtain ⟨call', cc', term', hk', hserver', hstage'⟩ := h j index' k hw
  refine ⟨call', cc', term', ?_, hserver', hstage'⟩
  have hne : k₀ ≠ k := by
    rintro rfl
    rw [hk, Option.some.injEq] at hk'
    subst hk'
    rw [hstage] at hstage'
    cases hstage'
  rw [hcalls, List.getElem?_set, if_neg hne]
  exact hk'

/-- The handler that registers has the row from now on, whoever had it before. -/
theorem Registered.enroll {k₀ index term : Nat} {call : RpcCall} {cc : Option ConfChange}
    (h : Registered s) (hk : s.calls[k₀]? = some call) (hstage : call.stage = .proposed cc index term) :
    Registered ((s.setServer call.server { s.servers call.server with
      waiters := Function.update (s.servers call.server).waiters index (some k₀) }).setStage k₀
        (.waiting cc index term)) := by
  intro i index' k hw
  have hother : (s.servers i).waiters index' = some k → Waiting ((s.setServer call.server
      { s.servers call.server with
        waiters := Function.update (s.servers call.server).waiters index (some k₀) }).setStage k₀
          (.waiting cc index term)) i index' k := by
    intro hold
    refine (h i index' k hold).setStage hk rfl fun _ _ heq => ?_
    rw [hstage] at heq
    cases heq
  rcases waiters_setServer hw with ⟨hi, hrow⟩ | ⟨-, hrow⟩
  swap
  · exact hother hrow
  simp only [Function.update_apply] at hrow
  split at hrow
  · next hidx =>
    cases hrow
    rw [hi, hidx]
    refine ⟨{ call with stage := .waiting cc index term }, cc, term, ?_, rfl, rfl⟩
    simp only [Servers.setStage, Servers.setServer, List.getElem?_modify, hk]
    simp
  · exact hother (by rw [hi]; exact hrow)

theorem Registered.register {k₀ : Nat} (h : Registered s)
    (hs : s.step cfg (.register k₀) = some s') : Registered s' := by
  obtain ⟨call, hk, hs⟩ := Option.bind_eq_some_iff.mp hs
  cases hstage : call.stage with
  | proposed cc index term =>
    simp only [hstage] at hs
    obtain rfl := Option.some.inj hs
    exact h.enroll hk hstage
  | _ => simp only [hstage] at hs; cases hs

theorem Registered.resume {k₀ : Nat} (h : Registered s) (hs : s.step cfg (.resume k₀) = some s') :
    Registered s' := by
  obtain ⟨call, hk, hs⟩ := Option.bind_eq_some_iff.mp hs
  cases hstage : call.stage with
  | answered cc index term ans =>
    simp only [hstage] at hs
    obtain rfl := Option.some.inj hs
    exact h.remove hk (by rw [hstage]; simp)
  | _ => simp only [hstage] at hs; cases hs

/-- A handler that gives up takes its row with it. -/
theorem Registered.giveUp {k₀ : Nat} {deadline : Bool} (h : Registered s)
    (hs : s.step cfg (.giveUp k₀ deadline) = some s') : Registered s' := by
  obtain ⟨call, hk, hs⟩ := Option.bind_eq_some_iff.mp hs
  cases hstage : call.stage with
  | waiting cc index term =>
    simp only [hstage] at hs
    obtain rfl := Option.some.inj hs
    refine h.remove hk fun _ _ _ heq => ?_
    rw [hstage] at heq
    cases heq
    rfl
  | answered cc index term ans =>
    simp only [hstage] at hs
    obtain rfl := Option.some.inj hs
    exact h.remove hk (by rw [hstage]; simp)
  | lagging readIdx =>
    simp only [hstage] at hs
    obtain rfl := Option.some.inj hs
    exact h.move hk (by rw [hstage]; simp) rfl rfl
  | _ => simp only [hstage] at hs; cases hs

theorem Registered.readDone {k₀ : Nat} (h : Registered s)
    (hs : s.step cfg (.readDone k₀) = some s') : Registered s' := by
  obtain ⟨call, hk, hs⟩ := Option.bind_eq_some_iff.mp hs
  cases hstage : call.stage with
  | reading r =>
    simp only [hstage] at hs
    obtain ⟨rd, -, hs⟩ := Option.bind_eq_some_iff.mp hs
    split at hs
    · obtain rfl := Option.some.inj hs
      exact h.move hk (by rw [hstage]; simp) rfl rfl
    · obtain rfl := Option.some.inj hs
      exact h.move hk (by rw [hstage]; simp) rfl rfl
    · cases hs
  | _ => simp only [hstage] at hs; cases hs

theorem Registered.look {k₀ : Nat} (h : Registered s) (hs : s.step cfg (.look k₀) = some s') :
    Registered s' := by
  obtain ⟨call, hk, hs⟩ := Option.bind_eq_some_iff.mp hs
  cases hstage : call.stage with
  | lagging readIdx =>
    simp only [hstage] at hs
    split at hs
    · obtain rfl := Option.some.inj hs
      exact h.move hk (by rw [hstage]; simp) rfl rfl
    · cases hs
  | _ => simp only [hstage] at hs; cases hs

theorem Registered.step (h : Registered s) (hs : s.step cfg a = some s') : Registered s' := by
  cases a with
  | raft act => exact h.raft hs
  | call i rpc => exact h.call hs
  | propose k faults => exact h.propose hs
  | register k => exact h.register hs
  | consume i failed => exact h.consume hs
  | resume k => exact h.resume hs
  | giveUp k deadline => exact h.giveUp hs
  | ask k =>
    obtain ⟨call, hk, hstage, hservers, -, ⟨-, hcalls⟩ | ⟨-, -, err, hcalls⟩⟩ := Servers.ask_spec hs
    · exact h.move hk (by rw [hstage]; simp) hservers hcalls
    · exact h.move hk (by rw [hstage]; simp) hservers hcalls
  | readDone k => exact h.readDone hs
  | look k => exact h.look hs

end Step

theorem registered_run {cfg : Config} {σ : Nat → Servers} {α : Nat → Option ServiceAction}
    (hrun : IsRun (Servers.step cfg) (Servers.init cfg) σ α) (k : Nat) : Registered (σ k) :=
  hrun.invariant (P := Registered) (fun _ _ _ hw => by cases hw)
    (fun k a ha h => h.step (hrun.next k a ha)) k

/-! ## Proposals -/

/-- The command of a call. -/
def Rpc.command : Rpc → Bytes
  | .write command => command
  | _ => []

/-- The entry a proposal puts into the log. -/
def proposedEntry (rpc : Rpc) (cc : Option ConfChange) (index term : Nat) : Entry :=
  match cc with
  | some cc => { term := term, index := index, type := .confChange, confChange := some cc }
  | none => { term := term, index := index, data := rpc.command }

/-- A leader has put `e` at the end of its log. -/
structure Appended (n m : Node) (e : Entry) : Prop where
  running : n.locked = false
  leader : m.role = .leader
  index : e.index = n.store.lastIndex + 1
  current : e.term = n.store.term
  term : e.term = m.store.term
  snap : m.store.snapIndex = n.store.snapIndex
  log : m.store.log = n.store.log ++ [e]

/-- At some time before `t` node `i`, as a leader, put the proposal of a call into its log. -/
def Made (cfg : Config) (σ : Nat → Servers) (α : Nat → Option ServiceAction) (t i : Nat) (rpc : Rpc)
    (cc : Option ConfChange) (index term : Nat) : Prop :=
  ∃ j < t, raftActions cfg σ α j = some (.run ((σ j).proposal i [] rpc cc).1 []) ∧
    (∀ x ∈ cc, ((σ j).cluster.node i).AcceptsConfChange x) ∧
    Appended ((σ j).cluster.node i) ((σ (j + 1)).cluster.node i) (proposedEntry rpc cc index term)

/-- Up to time `t` process `i` has sent a message for `index` and `term`. -/
def Told (σ : Nat → Servers) (t i index term : Nat) : Prop :=
  ∃ j ≤ t, ∃ m ∈ ((σ j).cluster.procs i).applyCh, ∃ ans : Answer, Tells index ans m ∧ ans.term = term

def Handled (cfg : Config) (σ : Nat → Servers) (α : Nat → Option ServiceAction) (t : Nat)
    (call : RpcCall) : Prop :=
  match call.stage with
  | .proposed cc index term => Made cfg σ α t call.server call.rpc cc index term
  | .waiting cc index term => Made cfg σ α t call.server call.rpc cc index term
  | .answered cc index term ans => Made cfg σ α t call.server call.rpc cc index term ∧
      Told σ t call.server index ans.term
  | _ => True

section Run

variable {cfg : Config} {σ : Nat → Servers} {α : Nat → Option ServiceAction} {t t' i index term : Nat}

theorem Made.mono {rpc : Rpc} {cc : Option ConfChange} (h : Made cfg σ α t i rpc cc index term)
    (htt : t ≤ t') : Made cfg σ α t' i rpc cc index term := by
  obtain ⟨j, hj, rest⟩ := h
  exact ⟨j, Nat.lt_of_lt_of_le hj htt, rest⟩

theorem Told.mono (h : Told σ t i index term) (htt : t ≤ t') : Told σ t' i index term := by
  obtain ⟨j, hj, rest⟩ := h
  exact ⟨j, Nat.le_trans hj htt, rest⟩

theorem Handled.mono {call : RpcCall} (h : Handled cfg σ α t call) (htt : t ≤ t') :
    Handled cfg σ α t' call := by
  unfold Handled at h ⊢
  split
  · next hstage => rw [hstage] at h; exact h.mono htt
  · next hstage => rw [hstage] at h; exact h.mono htt
  · next hstage => rw [hstage] at h; exact ⟨h.1.mono htt, h.2.mono htt⟩
  · trivial

end Run

end Server
end DistKV
