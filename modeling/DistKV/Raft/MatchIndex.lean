import DistKV.Raft.Bounds
import DistKV.Raft.Targets

/-!
# What a leader knows of its peers

`matchIndex[p]` is the leader's record of how far `p` has its log. It is written from replies, and a
reply can be arbitrarily late: it may answer a request of an earlier term of the same node, and `p` may
have heard from others, compacted its log or crashed since it answered. Three things make it sound.

* A success is only counted in the term of its request, and in one term there is one leader. What `p`
  has acknowledged is therefore a prefix of the log the leader has now.
* As long as `p` stays in the term, it keeps that prefix (`Retains`). Requests of the term are cut from
  the same log, so `p` steps over what it has; a snapshot replaces what it covers; and a follower has
  synced whatever it has acknowledged, so a crash takes nothing of it.
* The leader itself raises an entry of the table or leaves it, until it steps down.
-/

namespace DistKV
namespace Raft

open Run (IsRun)

/-! ## A node keeps what it has acknowledged -/

/-- The node has come to `term`, and as long as it is there its snapshot and its log cover `P`. -/
structure Retains (term : Nat) (P : List Entry) (v : View) : Prop where
  reached : term ≤ v.term
  held : v.term = term → P.drop v.snapIndex <+: v.log

section Storage

variable {T : Nat} {P : List Entry} {v : View} {peers : List Nat} {s s' : DiskStorage}

theorem Retains.later (h : T < v.term) : Retains T P v :=
  ⟨Nat.le_of_lt h, fun heq => absurd heq (Nat.ne_of_gt h)⟩

/-- The snapshot covers everything. -/
theorem Retains.below (hterm : v.term = T) (hle : P.length ≤ v.snapIndex) : Retains T P v := by
  refine ⟨Nat.le_of_eq hterm.symm, fun _ => ?_⟩
  rw [List.drop_eq_nil_iff.mpr hle]
  exact List.nil_prefix

theorem Retains.relog (h : Retains T P v) {log : List Entry}
    (hlog : v.term = T → P.drop v.snapIndex <+: log) : Retains T P { v with log := log } :=
  ⟨h.reached, hlog⟩

theorem Retains.compact (h : Retains T P v) {index : Nat} (hle : v.snapIndex ≤ index) (term : Nat) :
    Retains T P { v with
      snapIndex := index, snapTerm := term, log := v.log.drop (index - v.snapIndex) } := by
  refine ⟨h.reached, fun heq => ?_⟩
  have hdrop := (h.held heq).drop (index - v.snapIndex)
  rwa [List.drop_drop, Nat.add_sub_cancel' hle] at hdrop

/-- What is covered can be read, as far as the log goes back. -/
theorem agrees_of_front (h : P.drop s.snapIndex <+: s.log) :
    Agrees (fun index => P[index - 1]?) s P.length := by
  intro index x hlow _ hx
  rw [entryAt_above hlow]
  refine TermLog.getElem?_mono h ?_
  have hsum : s.snapIndex + (index - s.snapIndex - 1) = index - 1 := by omega
  rw [List.getElem?_drop, hsum]
  exact hx

/-- The first entry a request of the same log writes lies behind everything that is covered. -/
theorem covered_lt (hs : Chain s.snapIndex s.log) (h : P.drop s.snapIndex <+: s.log)
    {L entries es : List Entry} {prev : Nat} {e : Entry} (hP : P <+: L)
    (hentries : entries <+: L.drop prev) (hchain : Chain prev entries)
    (hdrop : entries.dropWhile (Node.alreadyHas s) = e :: es) : P.length < e.index := by
  by_contra hle
  have hmem : e ∈ entries :=
    (List.dropWhile_suffix _).subset (by rw [hdrop]; exact List.mem_cons_self)
  obtain ⟨k, hk⟩ := List.mem_iff_getElem?.mp hmem
  have hindex := hchain k e hk
  have hL : L[e.index - 1]? = some e := by
    have hget := TermLog.getElem?_mono hentries hk
    rw [List.getElem?_drop] at hget
    rwa [show e.index - 1 = prev + k by omega]
  have hhas := (agrees_of_front h).has hs (TermLog.getElem?_restrict hP (by omega) hL)
    (Nat.le_of_not_lt hle)
  have hhead := List.head_dropWhile_not (Node.alreadyHas s) (l := entries) (by rw [hdrop]; simp)
  simp only [hdrop, List.head_cons] at hhead
  rw [hhas] at hhead
  cases hhead

/-- What a request of the same log writes leaves alone what is covered. -/
theorem prefix_overwrite (hs : Chain s.snapIndex s.log) (h : P.drop s.snapIndex <+: s.log)
    {first : Nat} (hlt : P.length < first) (new : List Entry) :
    P.drop s.snapIndex <+: truncateFrom s.log first ++ new := by
  refine List.IsPrefix.trans ?_ (List.prefix_append _ _)
  rw [hs.truncateFrom, List.prefix_take_iff]
  refine ⟨h, ?_⟩
  rw [List.length_drop]
  omega

/-- **One storage call.** -/
theorem StoreStep.retains {i : Nat} {conf : ConfState} {op : NodeOp}
    (h : StoreStep i conf op s s') (hclean : Kept (Clean peers) CleanFiles s')
    (hreq : ∀ req, op = .handle (.appendEntries req) → Chain req.prevLogIndex req.entries ∧
      (req.term = T → ∃ L, P <+: L ∧ req.entries <+: L.drop req.prevLogIndex))
    (hs : CrashProof (Retains T P) peers s) : CrashProof (Retains T P) peers s' := by
  have hc := hs.clean.1
  have hsave : ∀ index term data conf,
      Kept (Clean peers) CleanFiles (s.saveSnapshot index term data conf).1 →
      CrashProof (Retains T P) peers (s.saveSnapshot index term data conf).1 := by
    intro index term data conf hsaved
    rcases Nat.lt_or_ge s.snapIndex index with hlt | hge
    swap
    · rw [DiskStorage.saveSnapshot_below hge]
      exact hs
    refine hs.saveSnapshot hlt hsaved fun p hp hp' => ?_
    have hcut := hs.files p hp hp'
    rw [hc.view_cut hp hp'] at hcut
    exact hcut.compact (Nat.le_of_lt hlt) term
  cases h with
  | stepDown term later =>
    exact hs.setHardState hclean (.later (Nat.lt_of_le_of_lt hs.view.reached later))
  | campaign member =>
    exact hs.setHardState hclean (.later (Nat.lt_succ_of_le hs.view.reached))
  | vote req request current free =>
    exact hs.setHardState hclean ⟨hs.view.reached, hs.view.held⟩
  | entry e next current type =>
    have hlast := hc.stored.lastIndex
    refine hs.appendEntries hclean (fun x hx => ?_) fun j => hs.view.relog fun heq => ?_
    · rw [List.mem_singleton.mp hx]
      omega
    · rw [(hc.appendNext next).1]
      exact (hs.view.held heq).trans (List.prefix_append _ _)
  | accept req request current reaches =>
    obtain ⟨hchain, hsource⟩ := hreq req request
    have happend := appendable_dropWhile hc.stored hchain reaches
    cases hdrop : req.entries.dropWhile (Node.alreadyHas s) with
    | nil => exact hs
    | cons e es =>
      rw [hdrop] at hclean happend
      obtain ⟨habove, -, hfresh⟩ := happend e es rfl
      refine hs.appendEntries hclean (fun x hx => ?_) fun j => hs.view.relog fun heq => ?_
      · obtain ⟨k, hk⟩ := List.mem_iff_getElem?.mp hx
        have hindex := hfresh k x hk
        omega
      · -- the request is of the term, so its entries are of the log that is covered
        obtain ⟨L, hP, hentries⟩ := hsource (current.trans heq)
        have hheld := hs.view.held heq
        have hlt := covered_lt hc.stored.chain hheld hP hentries hchain hdrop
        exact prefix_overwrite hc.stored.chain hheld hlt _
  | sync => exact hs.sync hclean
  | install req request current => exact hsave _ _ _ _ hclean
  | compact index term data request held => exact hsave _ _ _ _ hclean
  | applied request e held type c => exact hs.setConfState hclean

end Storage

/-! ## Sections and crashes -/

section Sections

variable {T : Nat} {P : List Entry} {peers : List Nat} {n m : Node} {op : NodeOp} {eff : Effect}

/-- A section begins. Whoever has acknowledged something in the term has it on disk. -/
theorem Retains.begin (h : Retains T P n.store.view) (hcn : CleanNode peers n)
    (hquiet : n.store.term = T → n.store.disk.files.unsynced = []) :
    CrashProof (Retains T P) peers (n.withFaults []).store := by
  have hfiles : n.store.disk.files.AfterCrash (Retains T P) := by
    intro p hs hp
    rw [hcn.store.1.view_cut hs hp]
    refine h.relog fun heq => ?_
    rw [Files.eq_records (hquiet heq) hs hp, ← hcn.store.1.stored.log]
    exact h.held heq
  refine ⟨hcn.withFaults.store, ⟨h.reached, h.held⟩, hfiles, ?_⟩
  intro f hf
  exact absurd hf List.not_mem_nil

theorem Retains.exec (h : Retains T P n.store.view) (hcn : CleanNode peers n)
    (hquiet : n.store.term = T → n.store.disk.files.unsynced = [])
    (hnormal : ∀ e ∈ n.store.log, e.type = .normal)
    (hop : ∀ req, op = .handle req → CleanRequest peers req)
    (hreq : ∀ req, op = .handle (.appendEntries req) → req.term = T →
      ∃ L, P <+: L ∧ req.entries <+: L.drop req.prevLogIndex)
    (hex : (n.withFaults []).exec op = some (m, eff)) :
    CrashProof (Retains T P) peers m.store := by
  have hbegin := h.begin hcn hquiet
  by_cases hc : op = .collect
  · subst hc
    have hm := Node.collectLoop_normal (Node.exec_collect hex).1 hnormal
    rw [hm]
    exact hbegin
  refine (Node.exec_store hex).keep hbegin fun hstep hs => ?_
  have hclean := hstep.clean hop hcn.withFaults.proper hc hs.clean
  exact hstep.retains hclean (fun req heq => ⟨hop _ heq, hreq req heq⟩) hs

end Sections

section Step

variable {cfg : Config} {Q : Finset Nat → Prop} {c c' : Cluster} {a a' : Ghost} {act : Action}
  {T p : Nat} {P : List Entry}

/-- **One action.** What a peer of the term's leader has of its log, it keeps. -/
theorem Refined.retains (h : Refined False Q c a) (hclean : All (clean cfg) c)
    (hfixed : All (fixedVoters cfg) c) {lead : Nat} {L : List Entry}
    (ldr : a.ldr T = some (lead, L)) (hne : p ≠ lead) (hP : P <+: L)
    (hs : c.step cfg act = some c') (hfree : act.FaultFree)
    (hret : Retains T P (c.node p).store.view) : Retains T P (c'.node p).store.view := by
  have hnode := h.all.node p
  obtain ⟨-, hcn⟩ := hclean.node p
  have hquiet : (c.node p).store.term = T → (c.node p).store.disk.files.unsynced = [] := by
    intro heq
    refine hnode.quiet fun hl => hne ?_
    have hown := (hnode.leader hl).own
    rw [heq, ldr, Option.some.injEq, Prod.mk.injEq] at hown
    exact hown.1.symm
  have hsection : ∀ {e op n eff}, c.resolve e = some (p, op) →
      ((c.node p).withFaults []).exec op = some (n, eff) →
      CrashProof (Retains T P) cfg.peers n.store := by
    intro e op n eff hres hex
    refine hret.exec hcn hquiet (hfixed.node p).2.2.log ?_ ?_ hex
    · rintro req rfl
      obtain ⟨_, hreq⟩ := hclean.op hres
      exact hreq
    · rintro req rfl hterm
      obtain ⟨source, -, L', hldr, -, -, hentries, -⟩ := h.all.op hres
      rw [hterm, ldr, Option.some.injEq, Prod.mk.injEq] at hldr
      rw [← hldr.2] at hentries
      exact ⟨L, hP, hentries⟩
  have hstep := step_node hs p
  generalize c'.node p = m at hstep ⊢
  cases hstep with
  | same => exact hret
  | ran e faults op eff runs resolves exec =>
    subst runs
    obtain rfl := hfree (e, faults) rfl
    exact (hsection resolves exec).view
  | restarted during faults point keep files store crashes found opens =>
    subst crashes
    have hfiles : files.AfterCrash (Retains T P) := by
      rcases filesAt_some found with ⟨-, rfl⟩ | ⟨e, n, eff, rfl, hout, hmem⟩
      · exact (hret.begin hcn hquiet).files
      · obtain rfl := hfree (e, faults) rfl
        obtain ⟨op, hres, -, hex⟩ := outcome_some hout
        exact (hsection hres hex).trail files hmem
    exact hfiles.recover opens

end Step

/-! ## Acknowledgements -/

/-- The first `m` entries of the log of the leader of `term`, who is not `p`, are what `p` has. -/
def CaughtUp (a : Ghost) (c : Cluster) (p term m : Nat) : Prop :=
  m = 0 ∨ ∃ lead L, a.ldr term = some (lead, L) ∧ p ≠ lead ∧ m ≤ L.length ∧
    Retains term (L.take m) (c.node p).store.view

/-- The reply says that the peer has what a request of `term` brought it. -/
def Response.Acks (term : Nat) : Response → Prop
  | .appendEntries resp => resp.success = true
  | .installSnapshot resp => resp.term ≤ term
  | _ => False

section Acks

variable {cfg : Config} {Q : Finset Nat → Prop} {G : GhostGuard} {peers : List Nat}
  {c c' : Cluster} {a a' : Ghost}
  {i term index : Nat} {n : Node}

/-- A leader's log only grows, so its first entries stay what they are. -/
theorem CaughtUp.of_retains {lead m p : Nat} {L : List Entry} (he : TermLog.Ext a a')
    (ldr : a.ldr term = some (lead, L)) (hne : p ≠ lead) (hm : m ≤ L.length)
    (hret : Retains term (L.take m) (c.node p).store.view) : CaughtUp a' c p term m := by
  obtain ⟨L', ldr', hpre⟩ := he.ldr ldr
  rw [TermLog.take_eq_of_isPrefix hpre hm] at hret
  exact .inr ⟨lead, L', ldr', hne, Nat.le_trans hm hpre.length_le, hret⟩

theorem CaughtUp.mono {p m : Nat} (h : CaughtUp a c p term m) (he : TermLog.Ext a a')
    (hkeep : ∀ lead L P, a.ldr term = some (lead, L) → p ≠ lead → P <+: L →
      Retains term P (c.node p).store.view → Retains term P (c'.node p).store.view) :
    CaughtUp a' c' p term m := by
  rcases h with hzero | ⟨lead, L, ldr, hne, hm, hret⟩
  · exact .inl hzero
  · exact .of_retains he ldr hne hm (hkeep lead L _ ldr hne (List.take_prefix m L) hret)

/-- A success: the follower has the leader's log up to the end of the request. -/
theorem Simulates.acks_append (hi : GhostInv a) (h : Simulates False G peers a a i n)
    {source : Nat} {req : AppendEntriesRequest}
    (hreq : GhostRequest a source i (.appendEntries req))
    (hchain : Chain req.prevLogIndex req.entries)
    (hyes : (n.handleAppendEntries req).2.success = true) :
    ∃ L, a.ldr req.term = some (source, L) ∧ i ≠ source ∧
      req.prevLogIndex + req.entries.length ≤ L.length ∧
      Retains req.term (L.take (req.prevLogIndex + req.entries.length))
        (n.handleAppendEntries req).1.store.view := by
  rcases Nat.lt_or_ge req.term n.store.term with hlt | hge
  · rw [Node.handleAppendEntries, if_pos hlt] at hyes
    cases hyes
  obtain ⟨hne, L, ldr, hprev, -, hentries, -⟩ := id hreq
  have bound : req.prevLogIndex + req.entries.length ≤ L.length := by
    have hlen := hentries.length_le
    rw [List.length_drop] at hlen
    omega
  refine ⟨L, ldr, hne, bound, ?_⟩
  obtain ⟨b, hsteps, hf⟩ := h.follow hi ldr hne hge req.leaderId
  obtain ⟨hib, he, -⟩ := hi.steps hsteps
  obtain ⟨-, L', ldr', hprev', hlast', hentries', -⟩ := hreq.mono he
  obtain ⟨L'', ldr'', hpre⟩ := he.ldr ldr
  obtain ⟨-, rfl⟩ := Prod.mk.inj (Option.some.inj (ldr'.symm.trans ldr''))
  have hterm := Node.follow_term (n := n) req.leaderId hge
  have hrole := (Node.follow_role (n := n) req.term req.leaderId).1
  have hcases := handleAppendEntries_cases (n := n) hge
  generalize n.handleAppendEntries req = r at hcases hyes ⊢
  cases hcases with
  | beyond short => cases hyes
  | missing above reaches none => cases hyes
  | conflict t above reaches held other => cases hyes
  | accept reaches same =>
    generalize n.follow req.term req.leaderId = f at *
    have hs := hf.tracks.clean.1.stored
    obtain ⟨-, -, hsnap, hsame, b', -, hstored, -, hagree⟩ := hf.storeEntries hi hrole
      (by rw [hterm]; exact ldr') hterm.symm reaches hentries' hchain fun hlow =>
        hf.node.rel.agree_prev hib hs ldr' hprev' hlast' hlow (same (Nat.le_of_lt hlow))
    have hrel : Rel False b' i (Node.storeEntries f.store req.entries).1.view := hstored.node.rel
    rw [(acceptEntries_spec f req f.store.term).1, TermLog.take_eq_of_isPrefix hpre bound]
    rcases Nat.lt_or_ge f.store.snapIndex (req.prevLogIndex + req.entries.length) with hlow | hhigh
    · refine ⟨Nat.le_of_eq (hsame.trans hterm).symm, fun _ => ?_⟩
      rw [← hagree hlow, ← hrel.log]
      exact (List.take_prefix _ _).drop _
    · -- the request lies below the snapshot
      have hlong := Nat.le_trans hhigh (Nat.le_of_eq hsnap.symm)
      exact .below (hsame.trans hterm) (Nat.le_trans (List.length_take_le _ _) hlong)

/-- An answer of the same term: the follower's snapshot is as late as the one it was sent. -/
theorem Simulates.acks_snapshot (hi : GhostInv a) (h : Simulates False G peers a a i n)
    {source : Nat} {req : InstallSnapshotRequest}
    (hreq : GhostRequest a source i (.installSnapshot req))
    (hyes : (n.handleInstallSnapshot req).2.1.term ≤ req.term) :
    ∃ L, a.ldr req.term = some (source, L) ∧ i ≠ source ∧ req.lastIncludedIndex ≤ L.length ∧
      Retains req.term (L.take req.lastIncludedIndex)
        (n.handleInstallSnapshot req).1.store.view := by
  obtain ⟨hne, L, ldr, S, hS, hlen, -⟩ := id hreq
  have hpre : S <+: L := settled_whole hi ldr hS
  have hcovered : ∀ s : DiskStorage, s.term = req.term → req.lastIncludedIndex ≤ s.snapIndex →
      Retains req.term (L.take req.lastIncludedIndex) s.view :=
    fun s hterm hle => .below hterm (Nat.le_trans (List.length_take_le _ _) hle)
  refine ⟨L, ldr, hne, by rw [← hlen]; exact hpre.length_le, ?_⟩
  rw [Node.handleInstallSnapshot] at hyes ⊢
  split at hyes
  · next hlt => exact absurd hyes (Nat.not_le_of_lt hlt)
  next hge =>
  rw [if_neg hge]
  obtain ⟨b, -, hf⟩ := h.follow hi ldr hne (Nat.le_of_not_lt hge) req.leaderId
  have hterm := Node.follow_term (n := n) req.leaderId (Nat.le_of_not_lt hge)
  generalize n.follow req.term req.leaderId = f at hf hterm ⊢
  simp only
  split
  · next hle => exact hcovered _ hterm hle
  next hlow =>
  have hview := hf.tracks.clean.1.saveSnapshot_view (Nat.lt_of_not_le hlow) req.lastIncludedTerm
    req.data req.confState
  have hsaved := hcovered (f.store.saveSnapshot req.lastIncludedIndex req.lastIncludedTerm req.data
    req.confState).1 ((congrArg View.term hview).trans hterm)
    (Nat.le_of_eq (congrArg View.snapIndex hview).symm)
  split
  · exact hsaved
  · exact hsaved

/-- **What an acknowledgement means** when it is given. -/
theorem Refined.acks (h : Refined False Q c a) (hclean : All (clean cfg) c) {e : Event}
    {req : Request} {resp : Response} {eff : Effect}
    (hres : c.resolve e = some (i, .handle req))
    (hex : ((c.node i).withFaults []).exec (.handle req) = some (n, eff))
    (hresp : eff.resp = some resp) (hreach : req.reach = some (term, index))
    (hacks : resp.Acks term) :
    ∃ lead L, a.ldr term = some (lead, L) ∧ i ≠ lead ∧ index ≤ L.length ∧
      Retains term (L.take index) n.store.view := by
  have hbegin := NodeRel.begin (G := .any) h.inv (h.all.node i) (hclean.node i).2
  obtain ⟨source, hreq⟩ := h.all.op hres
  obtain ⟨_, hchain⟩ := hclean.op hres
  have hlock := Node.exec_unlocked hex
  simp only [Node.exec, hlock, Bool.false_eq_true, if_false, Option.some.injEq] at hex
  generalize (c.node i).withFaults [] = n₀ at hbegin hex
  obtain ⟨rfl, rfl⟩ := Prod.mk.inj hex
  cases req with
  | requestVote req => cases hreach
  | readIndex req => cases hreach
  | appendEntries req =>
    obtain ⟨rfl, rfl⟩ := Prod.mk.inj (Option.some.inj hreach)
    obtain rfl := Option.some.inj hresp
    exact ⟨source, hbegin.acks_append h.inv hreq hchain hacks⟩
  | installSnapshot req =>
    obtain ⟨rfl, rfl⟩ := Prod.mk.inj (Option.some.inj hreach)
    obtain rfl := Option.some.inj hresp
    exact ⟨source, hbegin.acks_snapshot h.inv hreq hacks⟩

end Acks

/-! ## The table -/

/-- What a section does to `matchIndex`, if the node leads before and after it. -/
inductive MatchStep (n : Node) (op : NodeOp) (m : Node) : Prop
  | kept (matched : m.matchIndex = n.matchIndex)
  | own (matched : m.matchIndex =
      Function.update n.matchIndex n.id (some (n.store.lastIndex + 1)))
  | acked (peer : Nat) (req : Request) (resp : Response) (index : Nat)
      (request : op = .reply peer req resp) (reach : req.reach = some (n.store.term, index))
      (acks : resp.Acks n.store.term) (higher : (n.matchIndex peer).getD 0 < index)
      (matched : m.matchIndex = Function.update n.matchIndex peer (some index))

section Table

variable {n m : Node} {op : NodeOp} {eff : Effect}

theorem recordMatch_matchIndex (peer index : Nat) :
    (n.recordMatch peer index).matchIndex = n.matchIndex ∨ (n.matchIndex peer).getD 0 < index ∧
      (n.recordMatch peer index).matchIndex = Function.update n.matchIndex peer (some index) := by
  rw [Node.recordMatch]
  by_cases hgt : index > (n.matchIndex peer).getD 0
  · exact .inr ⟨hgt, if_pos hgt⟩
  · exact .inl (if_neg hgt)

/-- An acknowledgement of the current term raises the peer's entry or leaves it. -/
theorem MatchStep.recorded {peer index : Nat} {req : Request} {resp : Response}
    (request : op = .reply peer req resp) (reach : req.reach = some (n.store.term, index))
    (acks : resp.Acks n.store.term) (h : m.matchIndex = (n.recordMatch peer index).matchIndex) :
    MatchStep n op m := by
  rcases recordMatch_matchIndex (n := n) peer index with hsame | ⟨higher, hnew⟩
  · exact .kept (h.trans hsame)
  · exact .acked peer req resp index request reach acks higher (h.trans hnew)

/-- **What a section does to `matchIndex`.** -/
theorem exec_match (hex : n.exec op = some (m, eff)) (hn : n.role = .leader)
    (hl : m.role = .leader) (hnormal : ∀ e ∈ n.store.log, e.type = .normal) :
    MatchStep n op m := by
  cases exec_led hex hn hl with
  | kept same => exact .kept same.matched
  | proposed e next result =>
    rw [Node.appendEntryLocked] at result
    split at result
    · refine .own ?_
      rw [result, ← next]
    · exact .kept (by rw [result])
  | appendReply peer req resp request result =>
    rw [Node.onAppendReply] at result
    split at result
    · exact .kept (by rw [result]; exact (stepDownLocked_tables _).matched)
    split at result
    · exact .kept (by rw [result])
    next hcurrent =>
    simp only [not_or, not_not] at hcurrent
    split at result
    · next hyes =>
      refine .recorded request ?_ hyes (by rw [result]; exact advanceCommitLocked_tables.matched)
      rw [hcurrent.2]
      rfl
    split at result
    · exact .kept (by rw [result])
    split at result
    · exact .kept (by rw [result])
    split at result
    · exact .kept (by rw [result])
    · exact .kept (by rw [result])
  | snapshotReply peer req resp request result =>
    rw [Node.onSnapshotReply] at result
    split at result
    · exact .kept (by rw [result]; exact (stepDownLocked_tables _).matched)
    next hterm =>
    split at result
    · exact .kept (by rw [result])
    next hcurrent =>
    simp only [not_or, not_not] at hcurrent
    refine .recorded request ?_ (Nat.le_of_not_lt hterm) (by rw [result])
    rw [hcurrent.2]
    rfl
  | collected request =>
    subst request
    have hm := Node.collectLoop_normal (Node.exec_collect hex).1 hnormal
    exact .kept (by rw [hm])

/-- A new leader counts its peers from nothing. -/
theorem elected_unmatched (hr : n.role ≠ .leader) {p v : Nat} (hp : p ≠ n.id)
    (h : n.becomeLeaderLocked.1.matchIndex p = some v) : v = 0 := by
  rw [Node.becomeLeaderLocked_eq hr, (broadcastAppendLocked_tables rfl _).matched] at h
  simp only [Node.elected, Function.update_of_ne hp] at h
  split at h
  · exact (Option.some.inj h).symm
  · cases h

theorem exec_leader_term (hex : n.exec op = some (m, eff)) (hl : m.role = .leader) :
    m.store.term = n.store.term := by
  cases Node.exec_role hex with
  | follower role votes => cases role.symm.trans hl
  | same role same votes quiet => exact same
  | failed role later votes quiet timer => cases role.symm.trans hl
  | campaign election timer => cases election.role.symm.trans hl
  | vote peer req resp request candidate current granted same votes quiet role => exact same

/-- One leadership: an entry of the table does not fall. -/
theorem MatchStep.le (h : MatchStep n op m)
    (hself : ∀ v, n.matchIndex n.id = some v → v ≤ n.store.lastIndex) (p : Nat) :
    (n.matchIndex p).getD 0 ≤ (m.matchIndex p).getD 0 := by
  cases h with
  | kept matched => rw [matched]
  | own matched =>
    rw [matched, Function.update_apply]
    split
    · next hp =>
      subst hp
      cases hv : n.matchIndex n.id with
      | none => exact Nat.zero_le _
      | some v => exact Nat.le_succ_of_le (hself v hv)
    · exact Nat.le_refl _
  | acked peer req resp index request reach acks higher matched =>
    rw [matched, Function.update_apply]
    split
    · next hp =>
      subst hp
      exact Nat.le_of_lt higher
    · exact Nat.le_refl _

end Table

/-! ## Runs -/

/-- What holds of every leader's table, with the replies on their way to it. -/
def matchTables (R : Nat → Nat → Nat → Prop) : Assertion where
  node i n := n.role = .leader → ∀ p v, p ≠ i → n.matchIndex p = some v → R p n.store.term v
  reply d req resp :=
    ∀ term index, req.reach = some (term, index) → resp.Acks term → R d term index

section Step

variable {cfg : Config} {c c' : Cluster} {act : Action} {R R' : Nat → Nat → Nat → Prop}

theorem matchTables_keeps (hmono : ∀ p t m, R p t m → R' p t m) (c : Cluster) (i : Nat) :
    (matchTables R).Keeps (matchTables R') c i where
  call _ _ _ h := h
  reply _ _ _ h := fun t index hreach hacks => hmono _ _ _ (h t index hreach hacks)
  node _ _ h := fun hl p v hp hv => hmono _ _ _ (h hl p v hp hv)
  waiting _ _ _ _ h := h

/-- The table of the node whose section it is. -/
theorem matchTables.exec {i : Nat} {n m : Node} {op : NodeOp} {faults : List Bool} {eff : Effect}
    (hid : n.id = i) (hnormal : ∀ e ∈ n.store.log, e.type = .normal)
    (hn : (matchTables R).node i n) (hop : (matchTables R).OpOk i n op)
    (hex : (n.withFaults faults).exec op = some (m, eff)) (hzero : ∀ p t, R p t 0) :
    (matchTables R).node i m := by
  intro hl p v hp hv
  have hterm : m.store.term = n.store.term := (exec_leader_term hex hl :)
  rw [hterm]
  by_cases hlead : n.role = .leader
  swap
  · obtain ⟨votes, rfl⟩ := exec_wins hex hlead hl
    rw [← hid] at hp
    have hfresh := elected_unmatched (n := { n.withFaults faults with votes := votes }) hlead hp hv
    rw [hfresh]
    exact hzero p _
  have hold : n.matchIndex p = some v → R p n.store.term v := hn hlead p v hp
  cases exec_match hex hlead hl hnormal with
  | kept matched =>
    rw [matched] at hv
    exact hold hv
  | own matched =>
    have hother : p ≠ (n.withFaults faults).id := by rw [← hid] at hp; exact hp
    rw [matched, Function.update_of_ne hother] at hv
    exact hold hv
  | acked peer req resp index request reach acks higher matched =>
    rw [matched, Function.update_apply] at hv
    split at hv
    · next hpeer =>
      subst hpeer request
      obtain ⟨-, -, hreply⟩ := hop
      obtain rfl := Option.some.inj hv
      exact hreply _ _ reach acks
    · exact hold hv

/-- The relation the table is read with may be replaced by a weaker one. -/
theorem matchTables_mono (h : All (matchTables R) c) (hmono : ∀ p t m, R p t m → R' p t m) :
    All (matchTables R') c := by
  refine h.weaken (fun i hn hl p v hp hv => hmono _ _ _ (hn hl p v hp hv)) (fun _ _ _ hc => hc) ?_
    fun _ _ _ hw => hw
  intro d req resp hr term index hreach hacks
  exact hmono _ _ _ (hr term index hreach hacks)

/-- **One action.** -/
theorem matchTables_step {Q : Finset Nat → Prop} {a a' : Ghost} (h : Refined False Q c a)
    (hclean : All (clean cfg) c) (hfixed : All (fixedVoters cfg) c) (he : TermLog.Ext a a')
    (hs : c.step cfg act = some c') (hfree : act.FaultFree)
    (hall : All (matchTables (CaughtUp a c)) c) : All (matchTables (CaughtUp a' c')) c' := by
  have hmono : ∀ p t m, CaughtUp a c p t m → CaughtUp a' c' p t m := fun p t m hm =>
    hm.mono he fun lead L P ldr hne hP hret => h.retains hclean hfixed ldr hne hP hs hfree hret
  cases act with
  | run e faults =>
    obtain rfl := hfree (e, faults) rfl
    obtain ⟨i, n, eff, ho, rfl⟩ := step_run hs
    obtain ⟨op, hres, -, hex⟩ := outcome_some ho
    have hnode := matchTables.exec (hclean.node i).1 (hfixed.node i).2.2.log (hall.node i)
      (hall.op hres) hex fun _ _ => .inl rfl
    refine hall.section hres (matchTables_keeps hmono c i) (fun hl p v hp hv => ?_)
      (fun _ _ hw => hw) (fun _ _ => ⟨trivial, trivial⟩) ?_
    · exact hmono _ _ _ (hnode hl p v hp hv)
    · rintro req resp rfl hresp term index hreach hacks
      obtain ⟨lead, L, ldr, hne, hm, hret⟩ := h.acks hclean hres hex hresp hreach hacks
      refine .of_retains he ldr hne hm ?_
      rw [node_finishSection, if_pos rfl]
      exact hret
  | restart i during faults point keep =>
    obtain ⟨-, files, store, -, -, rfl⟩ := step_restart hs
    exact hall.restarted (matchTables_keeps hmono c i) fun hl => (by cases hl)
  | _ =>
    have hsame := hall.silent hs rfl (by simp) fun _ _ _ _ _ _ _ _ _ => ⟨trivial, trivial⟩
    exact matchTables_mono hsame hmono

end Step

section Run

variable {cfg : Config} {σ : Nat → Cluster} {α : Nat → Option Action}

/-- **The tables and the replies are sound** at every moment. -/
theorem matchTables_run (hrun : IsRun (Cluster.step cfg) (Cluster.init cfg) σ α)
    (fixed : ∀ k act, α k = some act → ¬act.Reconfigures (σ k))
    (free : ∀ k act, α k = some act → act.FaultFree) {γ : Nat → Ghost}
    (href : ∀ k, Refined False (RunQuorum σ) (σ k) (γ k))
    (hext : ∀ j k, j ≤ k → TermLog.Ext (γ j) (γ k)) (k : Nat) :
    All (matchTables (CaughtUp (γ k) (σ k))) (σ k) := by
  induction k with
  | zero =>
    rw [hrun.start]
    refine ⟨fun i hl => (by cases hl), ?_, ?_, ?_⟩
    · intro k call hk
      simp [Cluster.init] at hk
    · intro k call hk
      simp [Cluster.init] at hk
    · intro i q hq
      simp [Cluster.init, Process.start] at hq
  | succ k ih =>
    have he := hext k (k + 1) (Nat.le_succ k)
    cases ha : α k with
    | none =>
      rw [hrun.idle k ha]
      exact matchTables_mono ih fun p t m h => h.mono he fun _ _ _ _ _ _ hret => hret
    | some act =>
      exact matchTables_step (href k) (clean_run hrun free k) (fixed_run hrun fixed k) he
        (hrun.next k act ha) (free k act ha) ih

end Run

/-! ## Soundness -/

/-- `p` has everything up to `m`, in its log or its snapshot, and where `l` has an entry too it is the
    same. -/
structure MatchSound (l p : Node) (m : Nat) : Prop where
  covered : ∀ index, index ≤ m →
    index ≤ p.store.snapIndex ∨ ∃ e, p.store.entryAt index = some e
  same : ∀ index e e', index ≤ m → p.store.entryAt index = some e →
    l.store.entryAt index = some e' → e = e'

theorem MatchSound.of_front {l p : Node} {P : List Entry}
    (hs : Chain p.store.snapIndex p.store.log) (hp : P.drop p.store.snapIndex <+: p.store.log)
    (hl : ∀ index e, index ≤ P.length → l.store.entryAt index = some e → P[index - 1]? = some e) :
    MatchSound l p P.length := by
  have hagree := agrees_of_front hp
  refine ⟨fun index hle => ?_, fun index e e' hle he he' => ?_⟩
  · rcases Nat.lt_or_ge p.store.snapIndex index with hlt | hge
    · have hpos : index - 1 < P.length := by omega
      exact .inr ⟨_, hagree index _ hlt hle (List.getElem?_eq_getElem hpos)⟩
    · exact .inl hge
  · have hlow := (entryAt_le hs he).1
    rw [hagree index e' hlow hle (hl index e' hle he')] at he
    exact (Option.some.inj he).symm

/-- What the table says of a peer in the leader's term: it covers a prefix of the leader's log. -/
theorem Refined.matched_front {Q : Finset Nat → Prop} {c : Cluster} {a : Ghost}
    (h : Refined False Q c a) (htable : All (matchTables (CaughtUp a c)) c) {i p : Nat}
    (lead : (c.node i).role = .leader)
    (hterm : (c.node p).store.term = (c.node i).store.term) :
    ∃ P, P.length = ((c.node i).matchIndex p).getD 0 ∧ P <+: a.log i ∧
      P.drop (c.node p).store.snapIndex <+: (c.node p).store.log := by
  have hleader := (h.all.node i).leader lead
  have hnone : ∃ P : List Entry, P.length = 0 ∧ P <+: a.log i ∧
      P.drop (c.node p).store.snapIndex <+: (c.node p).store.log :=
    ⟨[], rfl, List.nil_prefix, by rw [List.drop_nil]; exact List.nil_prefix⟩
  cases hm : (c.node i).matchIndex p with
  | none => exact hnone
  | some v =>
    rw [Option.getD_some]
    by_cases hp : p = i
    · subst hp
      have hlog : (a.log p).drop (c.node p).store.snapIndex = (c.node p).store.log :=
        (h.all.node p).rel.log
      refine ⟨(a.log p).take v, List.length_take_of_le (hleader.self v hm), List.take_prefix _ _, ?_⟩
      rw [← hlog]
      exact (List.take_prefix _ _).drop _
    · rcases htable.node i lead p v hp hm with rfl | ⟨lead', L, ldr, -, hle, hret⟩
      · exact hnone
      · -- there is one leader in the term, and this is its log
        obtain ⟨-, rfl⟩ := Prod.mk.inj (Option.some.inj (hleader.own.symm.trans ldr))
        exact ⟨(a.log i).take v, List.length_take_of_le hle, List.take_prefix _ _,
          hret.held hterm⟩

/-- **`matchIndex` is sound.** In every run without configuration changes and storage failures, with
    requests and replies lost, repeated, delayed and reordered in any way: if a peer is in the term of
    a leader, it has the leader's log up to `matchIndex`, as far as neither has compacted it, and while
    a node leads in one term no entry of its table falls. -/
theorem match_index_sound (cfg : Config) (σ : Nat → Cluster) (α : Nat → Option Action)
    (hrun : IsRun (Cluster.step cfg) (Cluster.init cfg) σ α)
    (fixed : ∀ k act, α k = some act → ¬act.Reconfigures (σ k))
    (free : ∀ k act, α k = some act → act.FaultFree) (k i p : Nat)
    (lead : ((σ k).node i).role = .leader) :
    (((σ k).node p).store.term = ((σ k).node i).store.term →
      MatchSound ((σ k).node i) ((σ k).node p) ((((σ k).node i).matchIndex p).getD 0)) ∧
    ∀ j, k ≤ j → ((σ j).node i).role = .leader →
      ((σ j).node i).store.term = ((σ k).node i).store.term →
      (((σ k).node i).matchIndex p).getD 0 ≤ (((σ j).node i).matchIndex p).getD 0 := by
  obtain ⟨γ, href, hext⟩ :=
    refined_run (q := False) hrun free (overlapping_fixed hrun fixed) False.elim
  have hnode : ∀ t, NodeRel False (γ t) i ((σ t).node i) := fun t => (href t).all.node i
  have hstored : ∀ t a, Stored ((σ t).node a).store := fun t a =>
    ((clean_run hrun free t).node a).2.store.1.stored
  refine ⟨fun hterm => ?_, fun j hj hlead hcur => ?_⟩
  · have htable := matchTables_run hrun fixed free href hext k
    obtain ⟨P, hlen, hpre, hheld⟩ := (href k).matched_front htable lead hterm
    rw [← hlen]
    refine .of_front (hstored k p).chain hheld fun index e hle he => ?_
    obtain ⟨hlow, hget⟩ := (hnode k).rel.entryAt_eq he
    exact TermLog.getElem?_restrict hpre (by omega) hget
  · have hreign : Reign ((σ k).node i).store.term
        (fun n => (((σ k).node i).matchIndex p).getD 0 ≤ (n.matchIndex p).getD 0)
        ((σ k).node i) :=
      ⟨fun _ hc => (by cases lead.symm.trans hc), fun _ _ => Nat.le_refl _⟩
    refine (hreign.run hrun (fun t ht => ?_) (fun t faults op m eff _ hex hn hm hle => ?_)
      hj).leader hcur hlead
    · have hmono := (hext k t ht).term i
      rwa [(hnode k).rel.term, (hnode t).rel.term] at hmono
    · have hstep := exec_match hex hn hm ((fixed_run hrun fixed t).node i).2.2.log
      refine Nat.le_trans hle (hstep.le (fun v hv => ?_) p)
      exact (hnode t).match_le (hstored t i) hn hv

/-- After `firstTerm` node 3 acknowledges the no-op of term 1, and the reply is delayed. Node 2 stands for
    term 2 with the vote of node 1, and node 1 is elected again, in term 3, with the vote of node 2. Its
    second no-op is acknowledged by node 2; then the reply of term 1 comes in, and then that of node 3
    to the second no-op. -/
def lateReply : List Action :=
  firstTerm ++ [sec (.deliver 3), sec (.tick 2 true fun _ => true), sec (.deliver 4),
    sec (.tick 1 true fun _ => true), sec (.deliver 6), sec (.reply 6 0), sec (.deliver 8),
    sec (.reply 8 0), sec (.reply 3 0), sec (.deliver 9), sec (.reply 9 0)]

theorem lateReply_run : IsRun (Cluster.step threeNodes) (Cluster.init threeNodes)
    (stateAt lateReply) (fun k => lateReply[k]?) :=
  isRun_stateAt (by decide +kernel)

theorem lateReply_fixed (k : Nat) (act : Action) (h : lateReply[k]? = some act) :
    ¬act.Reconfigures (stateAt lateReply k) ∧ act.FaultFree :=
  Action.calm_of_mem (by decide) h _

/-- The late reply does not count, and what counts is sound. -/
theorem match_index_sound_late :
    ((stateAt lateReply 15).node 1).matchIndex 2 = some 2 ∧
    ((stateAt lateReply 15).node 1).matchIndex 3 = some 0 ∧
    MatchSound ((stateAt lateReply 17).node 1) ((stateAt lateReply 17).node 3) 2 ∧
    2 ≤ (((stateAt lateReply 17).node 1).matchIndex 2).getD 0 := by
  have hsound := match_index_sound threeNodes _ _ lateReply_run
    (fun k act hact => (lateReply_fixed k act hact).1)
    (fun k act hact => (lateReply_fixed k act hact).2)
  have htwo : ((stateAt lateReply 15).node 1).matchIndex 2 = some 2 := by decide +kernel
  have hthree : ((stateAt lateReply 17).node 1).matchIndex 3 = some 2 := by decide +kernel
  have hpeer := (hsound 17 1 3 (by decide +kernel)).1 (by decide +kernel)
  have hlater := (hsound 15 1 2 (by decide +kernel)).2 17 (by decide) (by decide +kernel)
    (by decide +kernel)
  rw [hthree] at hpeer
  rw [htwo] at hlater
  exact ⟨htwo, by decide +kernel, hpeer, hlater⟩

end Raft
end DistKV
