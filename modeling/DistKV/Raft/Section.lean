import DistKV.Lib.Run
import DistKV.Raft.Cluster

/-!
# What one action can do to a cluster

An action changes at most one node, adds calls and adds replies to calls; the source, the
destination and the request of a call never change. `All` is a statement about every node, every
request and every reply, and `Rule` says what has to be shown about a single critical section
so that `All` holds in every run: nothing about the bookkeeping of calls appears there.
-/

namespace DistKV
namespace Raft

open Run (IsRun)

/-- The section an action runs, completely or up to a crash. -/
def Action.section? : Action → Option (Event × List Bool)
  | .run e faults => some (e, faults)
  | .restart _ (some e) faults _ _ => some (e, faults)
  | _ => none

/-! ## Inversion -/

section Inversion

variable {cfg : Config} {c c' : Cluster}

theorem outcome_some {e : Event} {faults : List Bool} {i : Nat} {n : Node} {eff : Effect}
    (h : c.outcome e faults = some (i, n, eff)) :
    ∃ op, c.resolve e = some (i, op) ∧ i ≠ 0 ∧
      ((c.node i).withFaults faults).exec op = some (n, eff) := by
  rw [Cluster.outcome, Option.bind_eq_some_iff] at h
  obtain ⟨⟨j, op⟩, hres, h⟩ := h
  by_cases hj : j = 0
  · rw [if_pos hj] at h; cases h
  · rw [if_neg hj, Option.map_eq_some_iff] at h
    obtain ⟨⟨n', eff'⟩, hex, hq⟩ := h
    simp only [Prod.mk.injEq] at hq
    obtain ⟨rfl, rfl, rfl⟩ := hq
    exact ⟨op, hres, hj, hex⟩

theorem step_run {e : Event} {faults : List Bool} (h : c.step cfg (.run e faults) = some c') :
    ∃ i n eff, c.outcome e faults = some (i, n, eff) ∧ c' = c.finishSection e i n eff := by
  rw [Cluster.step, Option.map_eq_some_iff] at h
  obtain ⟨⟨i, n, eff⟩, ho, rfl⟩ := h
  exact ⟨i, n, eff, ho, rfl⟩

theorem step_restart {i point keep : Nat} {during : Option Event} {faults : List Bool}
    (h : c.step cfg (.restart i during faults point keep) = some c') :
    i ≠ 0 ∧ ∃ files store, c.filesAt i during faults point = some files ∧
      DiskStorage.openDiskStorage (files.crash keep) cfg.peers = some store ∧
      c' = c.restarted cfg i store := by
  rw [Cluster.step] at h
  by_cases hi : i = 0
  · rw [if_pos hi] at h; cases h
  · rw [if_neg hi, Option.bind_eq_some_iff] at h
    obtain ⟨files, hf, h⟩ := h
    obtain ⟨store, hs, rfl⟩ := Option.map_eq_some_iff.mp h
    exact ⟨hi, files, store, hf, hs, rfl⟩

/-- The files a crash finds are those between two sections or one of those in the middle of
    a section of the process. -/
theorem filesAt_some {i point : Nat} {during : Option Event} {faults : List Bool} {files : Files}
    (h : c.filesAt i during faults point = some files) :
    (during = none ∧ files = (c.node i).store.disk.files) ∨
    ∃ e n eff, during = some e ∧ c.outcome e faults = some (i, n, eff) ∧
      files ∈ n.store.disk.trail := by
  cases during with
  | none => exact .inl ⟨rfl, by simpa [Cluster.filesAt] using h.symm⟩
  | some e =>
    simp only [Cluster.filesAt, Option.bind_eq_some_iff] at h
    obtain ⟨⟨j, n, eff⟩, ho, h⟩ := h
    by_cases hj : j = i
    · subst hj
      rw [if_pos rfl] at h
      exact .inr ⟨e, n, eff, rfl, ho, List.mem_of_getElem? h⟩
    · rw [if_neg hj] at h; cases h

/-- What an event resolves to. -/
inductive Resolves (c : Cluster) : Event → Nat → NodeOp → Prop
  | tick (i timedOut due) : Resolves c (.tick i timedOut due) i (.tick timedOut due)
  | propose (i command) : Resolves c (.propose i command) i (.propose command)
  | proposeConfChange (i cc) : Resolves c (.proposeConfChange i cc) i (.proposeConfChange cc)
  | snapshot (i index data) : Resolves c (.snapshot i index data) i (.snapshot index data)
  | collect (i) (sent : (c.procs i).batch = []) : Resolves c (.collect i) i .collect
  | deliver (k call) (held : c.calls[k]? = some call) :
      Resolves c (.deliver k) call.dest (.handle call.req)
  | reply (k r call resp) (held : c.calls[k]? = some call) (waiting : call.phase = .waiting)
      (answer : call.replies[r]? = some resp) :
      Resolves c (.reply k r) call.source (.reply call.dest call.req resp)
  | finish (k call) (held : c.calls[k]? = some call) (returned : call.phase = .returned) :
      Resolves c (.finish k) call.source (.finish call.dest)

theorem resolve_cases {e : Event} {i : Nat} {op : NodeOp} (h : c.resolve e = some (i, op)) :
    Resolves c e i op := by
  cases e with
  | deliver k =>
    obtain ⟨call, hk, hq⟩ := Option.map_eq_some_iff.mp h
    obtain ⟨rfl, rfl⟩ := Prod.mk.inj hq
    exact .deliver k call hk
  | reply k r =>
    obtain ⟨call, hk, h⟩ := Option.bind_eq_some_iff.mp h
    split at h
    · next hw =>
      obtain ⟨resp, hr, hq⟩ := Option.map_eq_some_iff.mp h
      obtain ⟨rfl, rfl⟩ := Prod.mk.inj hq
      exact .reply k r call resp hk hw hr
    · cases h
  | finish k =>
    obtain ⟨call, hk, h⟩ := Option.bind_eq_some_iff.mp h
    split at h
    · next hret =>
      obtain ⟨rfl, rfl⟩ := Prod.mk.inj (Option.some.inj h)
      exact .finish k call hk hret
    · cases h
  | collect j =>
    simp only [Cluster.resolve] at h
    split at h
    · next hsent =>
      obtain ⟨rfl, rfl⟩ := Prod.mk.inj (Option.some.inj h)
      exact .collect j hsent
    · cases h
  | tick j timedOut due =>
    obtain ⟨rfl, rfl⟩ := Prod.mk.inj (Option.some.inj h)
    exact .tick j timedOut due
  | propose j command =>
    obtain ⟨rfl, rfl⟩ := Prod.mk.inj (Option.some.inj h)
    exact .propose j command
  | proposeConfChange j cc =>
    obtain ⟨rfl, rfl⟩ := Prod.mk.inj (Option.some.inj h)
    exact .proposeConfChange j cc
  | snapshot j index data =>
    obtain ⟨rfl, rfl⟩ := Prod.mk.inj (Option.some.inj h)
    exact .snapshot j index data

end Inversion

/-! ## Calls only grow -/

/-- The calls after a step: the old ones, perhaps with the replies `replied` speaks of, and
    new ones. -/
structure Grows (calls calls' : List Call) (replied : Nat → Response → Prop)
    (new : Call → Prop) : Prop where
  old : ∀ k call, calls[k]? = some call → ∃ call', calls'[k]? = some call' ∧
    call'.source = call.source ∧ call'.dest = call.dest ∧ call'.req = call.req ∧
    call'.read = call.read ∧ (call'.phase = .waiting → call.phase = .waiting) ∧
    (∀ r ∈ call'.replies, r ∈ call.replies ∨ replied k r) ∧ call.replies ⊆ call'.replies
  added : ∀ k call', calls'[k]? = some call' → k < calls.length ∨ new call'

section Grows

variable {calls calls' : List Call} {replied : Nat → Response → Prop} {new : Call → Prop}

theorem Grows.refl : Grows calls calls replied new where
  old _ call h :=
    ⟨call, h, rfl, rfl, rfl, rfl, id, fun _ hr => .inl hr, List.Subset.refl _⟩
  added _ _ h := .inl (List.getElem?_eq_some_iff.mp h).1

theorem Grows.imp (h : Grows calls calls' replied new) {replied' : Nat → Response → Prop}
    {new' : Call → Prop} (hr : ∀ k r, replied k r → replied' k r) (hn : ∀ call, new call → new' call) :
    Grows calls calls' replied' new' where
  old k call hk := by
    obtain ⟨call', hk', hs, hd, hq, hread, hw, hreplies, hsub⟩ := h.old k call hk
    exact ⟨call', hk', hs, hd, hq, hread, hw, fun r hm => (hreplies r hm).imp id (hr k r), hsub⟩
  added k call' hk := (h.added k call' hk).imp id (hn call')

theorem Grows.append (h : Grows calls calls' replied new) {more : List Call}
    (hm : ∀ call ∈ more, new call) : Grows calls (calls' ++ more) replied new where
  old k call hk := by
    obtain ⟨call', hk', rest⟩ := h.old k call hk
    refine ⟨call', ?_, rest⟩
    rw [List.getElem?_append_left (List.getElem?_eq_some_iff.mp hk').1]
    exact hk'
  added k call' hk := by
    rcases Nat.lt_or_ge k calls'.length with hlt | hge
    · rw [List.getElem?_append_left hlt] at hk
      exact h.added k call' hk
    · rw [List.getElem?_append_right hge] at hk
      exact .inr (hm _ (List.mem_of_getElem? hk))

/-- One call changes its phase or gets a reply. -/
theorem Grows.modify {k : Nat} {f : Call → Call}
    (hf : ∀ call, calls[k]? = some call → (f call).source = call.source ∧
      (f call).dest = call.dest ∧ (f call).req = call.req ∧ (f call).read = call.read ∧
      ((f call).phase = .waiting → call.phase = .waiting) ∧
      (∀ r ∈ (f call).replies, r ∈ call.replies ∨ replied k r) ∧
      call.replies ⊆ (f call).replies) :
    Grows calls (calls.modify k f) replied new where
  old j call hj := by
    rw [List.getElem?_modify, hj]
    by_cases hjk : k = j
    · subst hjk
      exact ⟨f call, by simp, hf call hj⟩
    · exact ⟨call, by simp [hjk], rfl, rfl, rfl, rfl, id, fun _ hr => .inl hr,
        List.Subset.refl _⟩
  added j call' hj := by
    have := (List.getElem?_eq_some_iff.mp hj).1
    rw [List.length_modify] at this
    exact .inl this

theorem Grows.map {f : Call → Call}
    (hf : ∀ call, (f call).source = call.source ∧ (f call).dest = call.dest ∧
      (f call).req = call.req ∧ (f call).read = call.read ∧
      ((f call).phase = .waiting → call.phase = .waiting) ∧ (f call).replies = call.replies) :
    Grows calls (calls.map f) replied new where
  old k call hk := by
    obtain ⟨h1, h2, h3, h4, h5, h6⟩ := hf call
    exact ⟨f call, by rw [List.getElem?_map, hk]; rfl, h1, h2, h3, h4, h5,
      fun r hr => .inl (h6 ▸ hr), fun _ hr => h6 ▸ hr⟩
  added k call' hk := by
    have := (List.getElem?_eq_some_iff.mp hk).1
    rw [List.length_map] at this
    exact .inl this

end Grows

theorem Call.afterReply_ne (call : Call) : call.afterReply ≠ .waiting := by
  rw [Call.afterReply]; split <;> simp

section Sections

variable {c : Cluster} {e : Event} {i : Nat} {n : Node} {eff : Effect}

theorem node_setProc (p : Process) (j : Nat) :
    (c.setProc i p).node j = if j = i then p.node else c.node j := by
  simp only [Cluster.node, Cluster.setProc, Function.update_apply]
  split <;> rfl

/-- What a section does to the process it runs in: the applier has a new batch, and a handler
    with a snapshot message waits to send it. -/
def Process.next (p : Process) (e : Event) (n : Node) (eff : Effect) : Process :=
  { p with
    node := n
    batch := match e with
      | .collect _ => eff.collected
      | _ => p.batch
    installs := match e, eff.resp, eff.install with
      | .deliver k, some resp, some msg => p.installs ++ [(k, resp, msg)]
      | _, _, _ => p.installs }

theorem procs_finishSection :
    (c.finishSection e i n eff).procs = Function.update c.procs i ((c.procs i).next e n eff) := by
  cases e with
  | deliver k =>
    simp only [Cluster.finishSection, Cluster.settle]
    cases hr : eff.resp with
    | none => simp [Cluster.setProc, Process.next, hr]
    | some resp =>
      cases hi : eff.install with
      | none => simp [Cluster.setProc, Process.next, hr, hi]
      | some msg => simp [Cluster.setProc, Process.next, hr, hi]
  | collect k => simp [Cluster.finishSection, Cluster.settle, Cluster.setProc, Process.next]
  | _ => rfl

/-- A section replaces one node. -/
theorem node_finishSection (j : Nat) :
    (c.finishSection e i n eff).node j = if j = i then n else c.node j := by
  rw [Cluster.node, procs_finishSection, Function.update_apply]
  split <;> rfl

/-- What a section does to the calls: the reply to the delivered request is added, unless the
    handler still has a message to send. -/
theorem grows_finishSection :
    Grows c.calls (c.finishSection e i n eff).calls
      (fun k r => e = .deliver k ∧ eff.resp = some r)
      (fun call => ∃ s ∈ eff.sends, call = Cluster.openCall i s) := by
  have hnew : ∀ call ∈ eff.sends.map (Cluster.openCall i),
      ∃ s ∈ eff.sends, call = Cluster.openCall i s := by
    intro call hc
    obtain ⟨s, hs, rfl⟩ := List.mem_map.mp hc
    exact ⟨s, hs, rfl⟩
  refine Grows.append ?_ hnew
  cases e with
  | deliver k =>
    simp only [Cluster.settle]
    cases hr : eff.resp with
    | none => exact Grows.refl
    | some resp =>
      cases hi : eff.install with
      | some msg => exact Grows.refl
      | none =>
        refine Grows.modify fun call _ =>
          ⟨rfl, rfl, rfl, rfl, id, fun r hm => ?_, List.subset_append_left _ _⟩
        rcases List.mem_append.mp hm with hm | hm
        · exact .inl hm
        · exact .inr ⟨rfl, by rw [List.mem_singleton.mp hm]⟩
  | reply k r =>
    exact Grows.modify fun call _ =>
      ⟨rfl, rfl, rfl, rfl, fun h => absurd h call.afterReply_ne, fun _ hm => .inl hm,
        List.Subset.refl _⟩
  | finish k =>
    exact Grows.modify fun call _ =>
      ⟨rfl, rfl, rfl, rfl, by simp, fun _ hm => .inl hm, List.Subset.refl _⟩
  | _ => exact Grows.refl

/-- Who waits with a snapshot message after a section. -/
theorem installs_finishSection {j : Nat} {q : Nat × Response × ApplyMsg}
    (h : q ∈ ((c.finishSection e i n eff).procs j).installs) :
    q ∈ (c.procs j).installs ∨ (j = i ∧ e = .deliver q.1 ∧ eff.resp = some q.2.1 ∧
      eff.install = some q.2.2) := by
  rw [procs_finishSection, Function.update_apply] at h
  split at h
  swap
  · exact .inl h
  next hj =>
  subst hj
  simp only [Process.next] at h
  split at h
  · next hr hi =>
    rcases List.mem_append.mp h with h | h
    · exact .inl h
    · rw [List.mem_singleton.mp h]
      exact .inr ⟨rfl, rfl, hr, hi⟩
  · exact .inl h

end Sections

/-! ## Statements about every node, request and reply -/

/-- What is asserted of every node, of the files a crash may find in its directory, of every
    request with its source and destination, of every request whose goroutine still waits (with
    the node it runs in), and of every reply with the node that gave it. -/
structure Assertion where
  node : Nat → Node → Prop
  files : Nat → Files → Prop := fun _ _ => True
  call : Nat → Nat → Request → Prop := fun _ _ _ => True
  waiting : Node → Nat → Request → Prop := fun _ _ _ => True
  reply : Nat → Request → Response → Prop := fun _ _ _ => True

structure All (A : Assertion) (c : Cluster) : Prop where
  node : ∀ i, A.node i (c.node i)
  call : ∀ (k : Nat) call, c.calls[k]? = some call → A.call call.source call.dest call.req ∧
    ∀ r ∈ call.replies, A.reply call.dest call.req r
  waiting : ∀ (k : Nat) call, c.calls[k]? = some call → call.phase = .waiting →
    A.waiting (c.node call.source) call.dest call.req
  /-- A reply that waits for its snapshot message belongs to a call. -/
  install : ∀ i, ∀ q ∈ (c.procs i).installs, ∃ call, c.calls[q.1]? = some call ∧
    A.reply call.dest call.req q.2.1

/-- What is known about a section because of the call it belongs to. -/
def Assertion.OpOk (A : Assertion) (i : Nat) (n : Node) : NodeOp → Prop
  | .handle req => ∃ source, A.call source i req
  | .reply peer req resp => A.call i peer req ∧ A.waiting n peer req ∧ A.reply peer req resp
  | _ => True

section All

variable {A A' : Assertion} {c c' : Cluster}

theorem All.op (h : All A c) {e : Event} {i : Nat} {op : NodeOp}
    (hr : c.resolve e = some (i, op)) : A.OpOk i (c.node i) op := by
  cases resolve_cases hr with
  | deliver k call held => exact ⟨call.source, (h.call k call held).1⟩
  | reply k r call resp held waiting answer =>
    exact ⟨(h.call k call held).1, h.waiting k call held waiting,
      (h.call k call held).2 resp (List.mem_of_getElem? answer)⟩
  | _ => trivial

/-- The calls part of `All` after a step. -/
theorem All.of_grows (h : All A c) {replied : Nat → Response → Prop} {new : Call → Prop}
    (hg : Grows c.calls c'.calls replied new) (hN : ∀ i, A'.node i (c'.node i))
    (hC : ∀ s d r, A.call s d r → A'.call s d r) (hR : ∀ d q r, A.reply d q r → A'.reply d q r)
    (hW : ∀ (k : Nat) call, c'.calls[k]? = some call → call.phase = .waiting →
      A.waiting (c.node call.source) call.dest call.req →
      A'.waiting (c'.node call.source) call.dest call.req)
    (hrep : ∀ k r call, c.calls[k]? = some call → replied k r → A'.reply call.dest call.req r)
    (hnew : ∀ call, new call → A'.call call.source call.dest call.req ∧
      A'.waiting (c'.node call.source) call.dest call.req ∧ call.replies = [])
    (hins : ∀ i, ∀ q ∈ (c'.procs i).installs, q ∈ (c.procs i).installs ∨
      ∃ call, c.calls[q.1]? = some call ∧ A'.reply call.dest call.req q.2.1) :
    All A' c' where
  node := hN
  call k call' hk := by
    rcases hg.added k call' hk with hlt | hn
    · obtain ⟨call'', hk'', h1, h2, h3, -, -, h4, -⟩ := hg.old k _ (List.getElem?_eq_getElem hlt)
      rw [hk, Option.some.injEq] at hk''
      subst hk''
      have hcall := h.call k _ (List.getElem?_eq_getElem hlt)
      rw [h1, h2, h3]
      refine ⟨hC _ _ _ hcall.1, fun r hr => ?_⟩
      rcases h4 r hr with hr | hr
      · exact hR _ _ _ (hcall.2 r hr)
      · exact hrep k r _ (List.getElem?_eq_getElem hlt) hr
    · obtain ⟨hc, -, hr⟩ := hnew call' hn
      exact ⟨hc, fun r hm => by rw [hr] at hm; cases hm⟩
  waiting k call' hk hwait := by
    rcases hg.added k call' hk with hlt | hn
    · obtain ⟨call'', hk'', h1, h2, h3, -, h4, -⟩ := hg.old k _ (List.getElem?_eq_getElem hlt)
      rw [hk, Option.some.injEq] at hk''
      subst hk''
      have hwas := h.waiting k _ (List.getElem?_eq_getElem hlt) (h4 hwait)
      rw [← h1, ← h2, ← h3] at hwas
      exact hW k call' hk hwait hwas
    · exact (hnew call' hn).2.1
  install i q hq := by
    have hold : ∃ call, c.calls[q.1]? = some call ∧ A'.reply call.dest call.req q.2.1 := by
      rcases hins i q hq with hq | hq
      · obtain ⟨call, hk, hr⟩ := h.install i q hq
        exact ⟨call, hk, hR _ _ _ hr⟩
      · exact hq
    obtain ⟨call, hk, hr⟩ := hold
    obtain ⟨call', hk', -, h2, h3, -⟩ := hg.old q.1 call hk
    exact ⟨call', hk', by rw [h2, h3]; exact hr⟩

/-- Nothing happens, and less is asserted. -/
theorem All.weaken (h : All A c) (hN : ∀ i, A.node i (c.node i) → A'.node i (c.node i))
    (hC : ∀ s d r, A.call s d r → A'.call s d r) (hR : ∀ d q r, A.reply d q r → A'.reply d q r)
    (hW : ∀ i p r, A.waiting (c.node i) p r → A'.waiting (c.node i) p r) : All A' c := by
  have hg : Grows c.calls c.calls (fun _ _ => False) fun _ => False := .refl
  exact h.of_grows hg (fun i => hN i (h.node i)) hC hR (fun _ _ _ _ hw => hW _ _ _ hw)
    (fun _ _ _ _ hf => hf.elim) (fun _ hf => hf.elim) fun _ _ hq => .inl hq

theorem resolve_deliver {k i : Nat} {op : NodeOp} (h : c.resolve (.deliver k) = some (i, op)) :
    ∃ call, c.calls[k]? = some call ∧ i = call.dest ∧ op = .handle call.req := by
  cases resolve_cases h with
  | deliver k call held => exact ⟨call, held, rfl, rfl⟩

theorem resolve_handle {e : Event} {i : Nat} {req : Request}
    (h : c.resolve e = some (i, .handle req)) :
    ∃ k call, e = .deliver k ∧ c.calls[k]? = some call ∧ call.dest = i ∧ call.req = req := by
  cases resolve_cases h with
  | deliver k call held => exact ⟨k, call, rfl, held, rfl, rfl⟩

theorem resolve_reply {e : Event} {i peer : Nat} {req : Request} {resp : Response}
    (h : c.resolve e = some (i, .reply peer req resp)) :
    ∃ k r call, e = .reply k r ∧ c.calls[k]? = some call ∧ call.phase = .waiting ∧
      call.source = i ∧ call.dest = peer ∧ call.req = req ∧ resp ∈ call.replies := by
  cases resolve_cases h with
  | reply k r call resp held waiting answer =>
    exact ⟨k, r, call, rfl, held, waiting, rfl, rfl, rfl, List.mem_of_getElem? answer⟩

/-- `A'` keeps what `A` says of the calls and of every node of `c` but `i`. -/
structure Assertion.Keeps (A A' : Assertion) (c : Cluster) (i : Nat) : Prop where
  call : ∀ s d r, A.call s d r → A'.call s d r
  reply : ∀ d q r, A.reply d q r → A'.reply d q r
  node : ∀ j, j ≠ i → A.node j (c.node j) → A'.node j (c.node j)
  waiting : ∀ j p r, j ≠ i → A.waiting (c.node j) p r → A'.waiting (c.node j) p r

theorem Assertion.Keeps.refl (A : Assertion) (c : Cluster) (i : Nat) : A.Keeps A c i :=
  ⟨fun _ _ _ h => h, fun _ _ _ h => h, fun _ _ h => h, fun _ _ _ _ h => h⟩

/-- A section of node `i`. -/
theorem All.section (h : All A c) {e : Event} {i : Nat} {op : NodeOp} {n : Node}
    {eff : Effect} (hres : c.resolve e = some (i, op)) (hkeep : A.Keeps A' c i)
    (hn : A'.node i n) (hstay : ∀ p r, A.waiting (c.node i) p r → A'.waiting n p r)
    (hsend : ∀ s ∈ eff.sends, A'.call i s.peer s.req ∧ A'.waiting n s.peer s.req)
    (hresp : ∀ req r, op = .handle req → eff.resp = some r → A'.reply i req r) :
    All A' (c.finishSection e i n eff) := by
  have hreply : ∀ k call r, e = .deliver k → c.calls[k]? = some call → eff.resp = some r →
      A'.reply call.dest call.req r := by
    rintro k call r rfl hk hr
    obtain ⟨call', hk', rfl, rfl⟩ := resolve_deliver hres
    rw [hk, Option.some.injEq] at hk'
    subst hk'
    exact hresp _ r rfl hr
  refine h.of_grows grows_finishSection ?_ hkeep.call hkeep.reply ?_ ?_ ?_ ?_
  · intro j
    rw [node_finishSection]
    split
    · next hj => rw [hj]; exact hn
    · next hj => exact hkeep.node j hj (h.node j)
  · intro k call _ _ hw
    rw [node_finishSection]
    split
    · next hj => rw [hj] at hw; exact hstay _ _ hw
    · next hj => exact hkeep.waiting _ _ _ hj hw
  · rintro k r call hk ⟨he, hr⟩
    exact hreply k call r he hk hr
  · rintro call ⟨s, hs, rfl⟩
    refine ⟨(hsend s hs).1, ?_, rfl⟩
    rw [node_finishSection, Cluster.openCall, if_pos rfl]
    exact (hsend s hs).2
  · intro j q hq
    rcases installs_finishSection hq with hq | ⟨-, he, hr, -⟩
    · exact .inl hq
    · obtain ⟨call, hk, -, -⟩ := resolve_deliver (he ▸ hres)
      exact .inr ⟨call, hk, hreply _ call _ he hk hr⟩

theorem node_restarted {cfg : Config} {i : Nat} {store : DiskStorage} (j : Nat) :
    (c.restarted cfg i store).node j =
      if j = i then Node.newNode i cfg.addrs store else c.node j := by
  simp only [Cluster.node, Cluster.restarted, Function.update_apply]
  split <;> rfl

theorem grows_restarted {cfg : Config} {i : Nat} {store : DiskStorage} :
    Grows c.calls (c.restarted cfg i store).calls (fun _ _ => False) (fun _ => False) := by
  refine Grows.map fun call => ?_
  by_cases hs : call.source = i
  · simp [hs]
  · simp [hs]

/-- No goroutine of a process survives its crash. -/
theorem waiting_restarted {cfg : Config} {i k : Nat} {store : DiskStorage} {call : Call}
    (hk : (c.restarted cfg i store).calls[k]? = some call) (hw : call.phase = .waiting) :
    call.source ≠ i := by
  rw [Cluster.restarted, List.getElem?_map] at hk
  obtain ⟨call', -, rfl⟩ := Option.map_eq_some_iff.mp hk
  by_cases hs : call'.source = i
  · rw [if_pos hs] at hw
    cases hw
  · rw [if_neg hs]
    exact hs

/-- Process `i` starts again. -/
theorem All.restarted (h : All A c) {cfg : Config} {i : Nat} {store : DiskStorage}
    (hkeep : A.Keeps A' c i) (hn : A'.node i (Node.newNode i cfg.addrs store)) :
    All A' (c.restarted cfg i store) := by
  refine h.of_grows grows_restarted ?_ hkeep.call hkeep.reply ?_ (fun _ _ _ _ hf => hf.elim)
    (fun _ hf => hf.elim) ?_
  · intro j
    rw [node_restarted]
    split
    · next hj => rw [hj]; exact hn
    · next hj => exact hkeep.node j hj (h.node j)
  · intro k call hk hwait hw
    have hne := waiting_restarted hk hwait
    rw [node_restarted, if_neg hne]
    exact hkeep.waiting _ _ _ hne hw
  · intro j q hq
    simp only [Cluster.restarted, Function.update_apply] at hq
    split at hq
    · cases hq
    · exact .inl hq

/-- The actions that are about calls and reads only leave the processes alone. -/
theorem silent_procs {cfg : Config} {act : Action} (hs : c.step cfg act = some c')
    (hrun : act.section? = none) (hrestart : ∀ i d f p k, act ≠ .restart i d f p k)
    (hemit : ∀ i, act ≠ .emit i) (hinstall : ∀ i k, act ≠ .emitInstall i k) :
    c'.procs = c.procs := by
  cases act with
  | run e f => cases hrun
  | restart i d f p k => exact absurd rfl (hrestart i d f p k)
  | emit i => exact absurd rfl (hemit i)
  | emitInstall i k => exact absurd rfl (hinstall i k)
  | abort k =>
    obtain ⟨call, -, hs⟩ := Option.bind_eq_some_iff.mp hs
    split at hs
    · obtain rfl := Option.some.inj hs
      rfl
    · cases hs
  | readIndex i =>
    simp only [Cluster.step] at hs
    split at hs
    · cases hs
    · obtain rfl := Option.some.inj hs
      rfl
  | readReturn r =>
    obtain ⟨rd, -, hs⟩ := Option.bind_eq_some_iff.mp hs
    simp only at hs
    split at hs
    · obtain rfl := Option.some.inj hs
      rfl
    · cases hs
  | readAbort r =>
    obtain ⟨rd, -, hs⟩ := Option.bind_eq_some_iff.mp hs
    split at hs
    · obtain rfl := Option.some.inj hs
      rfl
    · cases hs

/-- Everything but sections and restarts leaves the nodes alone. -/
theorem silent_node {cfg : Config} {act : Action} (hs : c.step cfg act = some c')
    (hrun : act.section? = none) (hrestart : ∀ i d f p k, act ≠ .restart i d f p k) (j : Nat) :
    c'.node j = c.node j := by
  have hset : ∀ (i : Nat) (p : Process), p.node = (c.procs i).node →
      (c.setProc i p).node j = c.node j := by
    intro i p hp
    rw [node_setProc]
    split
    · next hj => rw [hp, hj]; rfl
    · rfl
  cases act with
  | emit i =>
    simp only [Cluster.step] at hs
    split at hs
    · cases hs
    · obtain rfl := Option.some.inj hs
      exact hset i _ rfl
  | emitInstall i k =>
    obtain ⟨q, -, rfl⟩ := Option.map_eq_some_iff.mp hs
    exact hset i _ rfl
  | _ =>
    have hp := silent_procs hs hrun hrestart (by simp) (by simp)
    rw [Cluster.node, hp]
    rfl

/-- What an action does to node `i`. -/
inductive NodeStep (cfg : Config) (c : Cluster) (act : Action) (i : Nat) : Node → Prop
  | same : NodeStep cfg c act i (c.node i)
  | ran (e : Event) (faults : List Bool) (op : NodeOp) {n : Node} (eff : Effect)
      (runs : act = .run e faults) (resolves : c.resolve e = some (i, op))
      (exec : ((c.node i).withFaults faults).exec op = some (n, eff)) : NodeStep cfg c act i n
  | restarted (during : Option Event) (faults : List Bool) (point keep : Nat) (files : Files)
      (store : DiskStorage) (crashes : act = .restart i during faults point keep)
      (found : c.filesAt i during faults point = some files)
      (opens : DiskStorage.openDiskStorage (files.crash keep) cfg.peers = some store) :
      NodeStep cfg c act i (Node.newNode i cfg.addrs store)

theorem step_node {cfg : Config} {act : Action} (hs : c.step cfg act = some c') (i : Nat) :
    NodeStep cfg c act i (c'.node i) := by
  cases act with
  | run e faults =>
    obtain ⟨j, n, eff, ho, rfl⟩ := step_run hs
    obtain ⟨op, hres, -, hex⟩ := outcome_some ho
    rw [node_finishSection]
    split
    · next hij =>
      subst hij
      exact .ran e faults op eff rfl hres hex
    · exact .same
  | restart j during faults point keep =>
    obtain ⟨-, files, store, hf, ho, rfl⟩ := step_restart hs
    rw [node_restarted]
    split
    · next hij =>
      subst hij
      exact .restarted during faults point keep files store rfl hf ho
    · exact .same
  | _ =>
    rw [silent_node hs rfl (by simp)]
    exact .same

/-- Who waits with a snapshot message after such an action. -/
theorem installs_silent {cfg : Config} {act : Action} (hs : c.step cfg act = some c')
    (hrun : act.section? = none) (hrestart : ∀ i d f p k, act ≠ .restart i d f p k) (j : Nat) :
    (c'.procs j).installs ⊆ (c.procs j).installs := by
  have hset : ∀ (i : Nat) (p : Process), p.installs ⊆ (c.procs i).installs →
      ((c.setProc i p).procs j).installs ⊆ (c.procs j).installs := by
    intro i p hp
    simp only [Cluster.setProc, Function.update_apply]
    split
    · next hj => rw [hj]; exact hp
    · exact List.Subset.refl _
  cases act with
  | emit i =>
    simp only [Cluster.step] at hs
    split at hs
    · cases hs
    · obtain rfl := Option.some.inj hs
      exact hset i _ (List.Subset.refl _)
  | emitInstall i k =>
    obtain ⟨q, -, rfl⟩ := Option.map_eq_some_iff.mp hs
    exact hset i _ List.eraseIdx_subset
  | _ =>
    have hp := silent_procs hs hrun hrestart (by simp) (by simp)
    rw [hp]
    exact List.Subset.refl _

/-- What such an action does to the calls: a reply that waited for its message is added, and
    `ReadIndex` sends requests. -/
theorem grows_silent {cfg : Config} {act : Action} (hs : c.step cfg act = some c')
    (hrun : act.section? = none) (hrestart : ∀ i d f p k, act ≠ .restart i d f p k) :
    Grows c.calls c'.calls (fun k r => ∃ i, ∃ q ∈ (c.procs i).installs, k = q.1 ∧ r = q.2.1)
      (fun call => ∃ i p, act = .readIndex i ∧ (c.node i).role = .leader ∧ i ≠ 0 ∧
        p ∈ (c.node i).peerIDs ∧ p ≠ (c.node i).id ∧
        call =
          { source := i, dest := p, read := c.reads.length,
            req := .readIndex ⟨(c.node i).store.term, (c.node i).id⟩ }) := by
  cases act with
  | run e f => cases hrun
  | restart i d f p k => exact absurd rfl (hrestart i d f p k)
  | emit i =>
    simp only [Cluster.step] at hs
    split at hs
    · cases hs
    · obtain rfl := Option.some.inj hs
      exact Grows.refl
  | emitInstall i k =>
    obtain ⟨q, hq, rfl⟩ := Option.map_eq_some_iff.mp hs
    refine Grows.modify fun call _ =>
      ⟨rfl, rfl, rfl, rfl, id, fun r hm => ?_, List.subset_append_left _ _⟩
    rcases List.mem_append.mp hm with hm | hm
    · exact .inl hm
    · exact .inr ⟨i, q, List.mem_of_getElem? hq, rfl, List.mem_singleton.mp hm⟩
  | abort k =>
    obtain ⟨call, -, hs⟩ := Option.bind_eq_some_iff.mp hs
    split at hs
    · obtain rfl := Option.some.inj hs
      exact Grows.modify fun call _ =>
        ⟨rfl, rfl, rfl, rfl, fun h => absurd h call.afterReply_ne, fun _ hm => .inl hm,
          List.Subset.refl _⟩
    · cases hs
  | readIndex i =>
    simp only [Cluster.step] at hs
    split at hs
    · cases hs
    next hc =>
    obtain rfl := Option.some.inj hs
    simp only [not_or, Bool.not_eq_true, ne_eq, Decidable.not_not] at hc
    refine Grows.append Grows.refl fun call hm => ?_
    obtain ⟨p, hp, rfl⟩ := List.mem_map.mp hm
    rw [List.mem_filter] at hp
    exact ⟨i, p, rfl, hc.2.2, hc.1, hp.1, by simpa using hp.2, rfl⟩
  | readReturn r =>
    obtain ⟨rd, -, hs⟩ := Option.bind_eq_some_iff.mp hs
    simp only at hs
    split at hs
    · obtain rfl := Option.some.inj hs
      exact Grows.refl
    · cases hs
  | readAbort r =>
    obtain ⟨rd, -, hs⟩ := Option.bind_eq_some_iff.mp hs
    split at hs
    · obtain rfl := Option.some.inj hs
      exact Grows.refl
    · cases hs

/-- How a call gets a reply. -/
inductive Answers (c : Cluster) (act : Action) (k : Nat) (resp : Response) : Prop
  | handled (faults : List Bool) (call : Call) (n : Node) (eff : Effect)
      (runs : act = .run (.deliver k) faults) (held : c.calls[k]? = some call)
      (exec : ((c.node call.dest).withFaults faults).exec (.handle call.req) = some (n, eff))
      (answer : eff.resp = some resp)
  | announced (i : Nat) (q : Nat × Response × ApplyMsg) (waits : q ∈ (c.procs i).installs)
      (call : k = q.1) (answer : resp = q.2.1)

/-- How a call is opened. -/
inductive Opens (c : Cluster) (act : Action) (call : Call) : Prop
  | sent (e : Event) (faults : List Bool) (i : Nat) (op : NodeOp) (n : Node) (eff : Effect)
      (s : Send) (runs : act = .run e faults) (resolves : c.resolve e = some (i, op))
      (exec : ((c.node i).withFaults faults).exec op = some (n, eff)) (send : s ∈ eff.sends)
      (opened : call = Cluster.openCall i s)
  | read (i p : Nat) (runs : act = .readIndex i) (leader : (c.node i).role = .leader) (ne : i ≠ 0)
      (peer : p ∈ (c.node i).peerIDs) (other : p ≠ (c.node i).id)
      (opened : call =
        { source := i, dest := p, read := c.reads.length,
          req := .readIndex ⟨(c.node i).store.term, (c.node i).id⟩ })

/-- What any action does to the calls. -/
theorem step_grows {cfg : Config} {act : Action} (hs : c.step cfg act = some c') :
    Grows c.calls c'.calls (Answers c act) (Opens c act) := by
  cases act with
  | run e faults =>
    obtain ⟨i, n, eff, ho, rfl⟩ := step_run hs
    obtain ⟨op, hres, -, hex⟩ := outcome_some ho
    refine grows_finishSection.imp ?_ ?_
    · rintro k resp ⟨rfl, hresp⟩
      obtain ⟨call, hk, rfl, rfl⟩ := resolve_deliver hres
      exact .handled faults call n eff rfl hk hex hresp
    · rintro call ⟨s, hsend, hopen⟩
      exact .sent e faults i op n eff s rfl hres hex hsend hopen
  | restart i during faults point keep =>
    obtain ⟨-, files, store, -, -, rfl⟩ := step_restart hs
    exact grows_restarted.imp (fun _ _ hf => hf.elim) fun _ hf => hf.elim
  | _ =>
    refine (grows_silent hs rfl (by simp)).imp ?_ ?_
    · rintro k resp ⟨i, q, hq, hk, hresp⟩
      exact .announced i q hq hk hresp
    · rintro call ⟨i, p, hact, hl, hi, hp, hne, hopen⟩
      exact .read i p hact hl hi hp hne hopen

/-- Apart from `ReadIndex` these actions need no proof. -/
theorem All.silent (h : All A c) {cfg : Config} {act : Action}
    (hs : c.step cfg act = some c') (hrun : act.section? = none)
    (hrestart : ∀ i d f p k, act ≠ .restart i d f p k)
    (hread : ∀ i, act = .readIndex i → (c.node i).role = .leader → i ≠ 0 →
      ∀ p ∈ (c.node i).peerIDs, p ≠ (c.node i).id →
      ∀ req, req = .readIndex { term := (c.node i).store.term, leaderId := (c.node i).id } →
      A.call i p req ∧ A.waiting (c.node i) p req) :
    All A c' := by
  have hnode : ∀ i, c'.node i = c.node i := silent_node hs hrun hrestart
  refine h.of_grows (grows_silent hs hrun hrestart) ?_ (fun _ _ _ hc => hc) (fun _ _ _ hr => hr)
    ?_ ?_ ?_ (fun i q hq => .inl (installs_silent hs hrun hrestart i hq))
  · intro i
    rw [hnode]
    exact h.node i
  · intro k call _ _ hw
    rw [hnode]
    exact hw
  · rintro k r call hk ⟨i, q, hq, rfl, rfl⟩
    obtain ⟨call', hk', hr⟩ := h.install i q hq
    rw [hk, Option.some.injEq] at hk'
    subst hk'
    exact hr
  · rintro call ⟨i, p, hact, hl, hi, hp, hne, rfl⟩
    obtain ⟨h1, h2⟩ := hread i hact hl hi p hp hne _ rfl
    rw [hnode]
    exact ⟨h1, h2, rfl⟩

end All

/-! ## Invariants of all runs -/

/-- Which sections a run may contain. -/
def Action.Within (ok : Node → NodeOp → List Bool → Prop) (c : Cluster) (act : Action) : Prop :=
  ∀ e faults i op, act.section? = some (e, faults) → c.resolve e = some (i, op) →
    ok (c.node i) op faults

/-- Nothing fails in the section of the action. -/
def Action.FaultFree (act : Action) : Prop := ∀ p ∈ act.section?, p.2 = []

instance : DecidablePred Action.FaultFree := fun act =>
  inferInstanceAs (Decidable (∀ p ∈ act.section?, p.2 = []))

/-- What has to be shown of one section so that an assertion holds in every run. -/
structure Rule (cfg : Config) (ok : Node → NodeOp → List Bool → Prop) (A : Assertion) : Prop where
  init : ∀ i, A.node i (Node.newNode i cfg.addrs { conf := .newConfState cfg.peers })
  files : ∀ {i n}, A.node i n → A.files i n.store.disk.files
  recover : ∀ {i f keep store}, A.files i f →
    DiskStorage.openDiskStorage (f.crash keep) cfg.peers = some store →
    A.node i (Node.newNode i cfg.addrs store)
  exec : ∀ {i n faults op n' eff}, i ≠ 0 → A.node i n → ok n op faults → A.OpOk i n op →
    (n.withFaults faults).exec op = some (n', eff) →
    A.node i n' ∧ (∀ f ∈ n'.store.disk.trail, A.files i f) ∧
      (∀ p r, A.waiting n p r → A.waiting n' p r) ∧
      (∀ s ∈ eff.sends, A.call i s.peer s.req ∧ A.waiting n' s.peer s.req) ∧
      ∀ req r, op = .handle req → eff.resp = some r → A.reply i req r
  read : ∀ {i n}, i ≠ 0 → A.node i n → n.role = .leader → ∀ p ∈ n.peerIDs, p ≠ n.id →
    ∀ req, req = .readIndex { term := n.store.term, leaderId := n.id } →
    A.call i p req ∧ A.waiting n p req

section Rule

variable {cfg : Config} {ok : Node → NodeOp → List Bool → Prop} {A : Assertion}

theorem Rule.start (hr : Rule cfg ok A) : All A (Cluster.init cfg) where
  node i := hr.init i
  call _ _ h := by simp [Cluster.init] at h
  waiting _ _ h := by simp [Cluster.init] at h
  install _ _ h := by simp [Cluster.init, Process.start] at h

theorem Rule.step (hr : Rule cfg ok A) {c c' : Cluster} {act : Action}
    (h : All A c) (hok : act.Within ok c) (hs : c.step cfg act = some c') : All A c' := by
  cases act with
  | run e faults =>
    obtain ⟨i, n, eff, ho, rfl⟩ := step_run hs
    obtain ⟨op, hres, hi, hex⟩ := outcome_some ho
    obtain ⟨hn, -, hstay, hsend, hresp⟩ :=
      hr.exec hi (h.node i) (hok e faults i op rfl hres) (h.op hres) hex
    exact h.section hres (.refl A c i) hn hstay hsend hresp
  | restart i during faults point keep =>
    obtain ⟨-, files, store, hf, ho, rfl⟩ := step_restart hs
    have hfiles : A.files i files := by
      rcases filesAt_some hf with ⟨-, rfl⟩ | ⟨e, n, eff, rfl, hout, hmem⟩
      · exact hr.files (h.node i)
      · obtain ⟨op, hres, hi, hex⟩ := outcome_some hout
        exact (hr.exec hi (h.node i) (hok e faults i op rfl hres) (h.op hres) hex).2.1 files hmem
    exact h.restarted (.refl A c i) (hr.recover hfiles ho)
  | readIndex i =>
    exact h.silent hs rfl (by simp) fun j hj hl hi p hp hne req hreq => by
      cases hj
      exact hr.read hi (h.node i) hl p hp hne req hreq
  | _ => exact h.silent hs rfl (by simp) (by simp)

/-- **The rule.** -/
theorem Rule.run (hr : Rule cfg ok A) {σ : Nat → Cluster} {α : Nat → Option Action}
    (h : IsRun (Cluster.step cfg) (Cluster.init cfg) σ α)
    (hok : ∀ k act, α k = some act → act.Within ok (σ k)) (k : Nat) : All A (σ k) :=
  h.invariant hr.start (fun k act ha hp => hr.step hp (hok k act ha) (h.next k act ha)) k

end Rule

/-- The snapshot a request carries. -/
def Request.snapshot? : Request → Option InstallSnapshotRequest
  | .installSnapshot req => some req
  | _ => none

/-! ## Finite runs -/

/-- The cluster the scenarios run on. -/
def threeNodes : Config := { peers := [1, 2, 3] }

/-- A section in which no file operation fails. -/
def sec (e : Event) : Action := .run e []

/-- The state after the first `k` actions. -/
def stateAt (acts : List Action) (k : Nat) : Cluster :=
  (Run.after (Cluster.step threeNodes) (Cluster.init threeNodes) (acts.take k)).getD
    (Cluster.init threeNodes)

theorem isRun_stateAt {acts : List Action}
    (h : (Run.after (Cluster.step threeNodes) (Cluster.init threeNodes) acts).isSome) :
    IsRun (Cluster.step threeNodes) (Cluster.init threeNodes) (stateAt acts) (fun k => acts[k]?) :=
  IsRun.ofList h

/-- Node 1 is elected in term 1 with the vote of node 2; its no-op is on node 1 and 2 and
    committed. The requests to node 3 are the calls 1 and 3. -/
def firstTerm : List Action :=
  [sec (.tick 1 true fun _ => true), sec (.deliver 0), sec (.reply 0 0), sec (.deliver 2),
    sec (.reply 2 0), sec (.finish 2)]

end Raft
end DistKV
