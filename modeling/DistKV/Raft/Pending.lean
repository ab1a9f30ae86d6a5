import DistKV.Raft.ConfHistory
import DistKV.Raft.Origin
import DistKV.Raft.Reapply

/-!
# What a leader's log still has in store

A leader's log only grows, and what it applies next is in it already. So the configuration a leader
will come to is decided by the log it has (`Node.confAt`), up to the changes that are accepted later;
and as long as none is accepted, every section leaves it where it is (`Rides.exec`).
-/

namespace DistKV
namespace Raft

open Run (IsRun)

/-! ## The applier and `commitIndex` -/

section Applier

variable {n m : Node}

/-- The applier has not gone beyond what is committed. -/
def OrderedNode (_ : Nat) (n : Node) : Prop :=
  n.locked = false → n.store.snapIndex ≤ n.lastApplied ∧ n.lastApplied ≤ n.commitIndex

theorem exec_ordered {op : NodeOp} {eff : Effect} (hex : n.exec op = some (m, eff))
    (hn : n.store.snapIndex ≤ n.lastApplied ∧ n.lastApplied ≤ n.commitIndex) :
    m.lastApplied ≤ m.commitIndex := by
  by_cases hc : op = .collect
  · subst hc
    have hcollect := (Node.exec_collect hex).1
    rw [collectLoop_reaches hcollect hn.1 hn.2 (Nat.le_refl _),
      (Node.collectLoop_frame hcollect).2.2.1]
  by_cases hi : ∃ req, op = .handle (.installSnapshot req)
  · obtain ⟨req, rfl⟩ := hi
    have hinst := Node.exec_install hex
    generalize eff.install = msg at hinst
    cases hinst with
    | refused frame _ =>
      rw [frame.applied]
      exact Nat.le_trans hn.2 frame.commit
    | failed _ _ _ commit applied =>
      rw [commit, applied]
      exact hn.2
    | installed _ _ _ _ commit applied => rw [commit, applied]
  · have hframe := Node.exec_frame hex hc fun req hop => hi ⟨req, hop⟩
    rw [hframe.applied]
    exact Nat.le_trans hn.2 hframe.commit

theorem orderedRule (cfg : Config) : Rule cfg (fun _ _ _ => True) { node := OrderedNode } where
  init _ _ := ⟨Nat.le_refl _, Nat.le_refl _⟩
  files _ := trivial
  recover _ _ _ := ⟨Nat.le_refl _, Nat.le_refl _⟩
  exec _ hn _ _ hex :=
    have hopen := hn (open_of_exec hex)
    ⟨fun hl => ⟨exec_applied hex hopen.1 hl, exec_ordered hex hopen⟩, fun _ _ => trivial,
      fun _ _ _ => trivial, fun _ _ => ⟨trivial, trivial⟩, fun _ _ _ _ => trivial⟩
  read _ _ _ _ _ _ _ _ := ⟨trivial, trivial⟩

end Applier

/-! ## The entries of a leader -/

section Entries

variable {K : Entry → Prop} {s s' : DiskStorage} {n m : Node} {op : NodeOp} {eff : Effect}

theorem heldGuard (K : Entry → Prop) : Guard (fun s => ∀ e ∈ s.log, K e) (fun _ => True) where
  quiet _ h := h
  files _ := trivial
  flush h := h

theorem held_setHardState (hs : ∀ e ∈ s.log, K e) (term votedFor : Nat) :
    ∀ e ∈ (s.setHardState term votedFor).1.log, K e := by
  have hkept : Kept (fun s => ∀ e ∈ s.log, K e) (fun _ => True) (s.setHardState term votedFor).1 :=
    (heldGuard K).setHardState ⟨hs, fun _ _ => trivial⟩ hs hs
  exact hkept.1

/-- The sections that do not append entries only drop them. -/
theorem StoreStep.held {i : Nat} {conf : ConfState} (h : StoreStep i conf op s s')
    (hown : ¬op.Appends) (hop : ¬op.Copies) (hs : ∀ e ∈ s.log, K e) : ∀ e ∈ s'.log, K e := by
  have hg := heldGuard K
  have hk : Kept (fun s => ∀ e ∈ s.log, K e) (fun _ => True) s := ⟨hs, fun _ _ => trivial⟩
  have hconf : ∀ c, Kept (fun s => ∀ e ∈ s.log, K e) (fun _ => True) (s.setConfState c).1 :=
    fun _ => hg.setConfState hk hs hs
  cases h with
  | stepDown term later => exact held_setHardState hs _ _
  | campaign member => exact held_setHardState hs _ _
  | vote req request current free => exact held_setHardState hs _ _
  | entry e next current type own => exact absurd own hown
  | accept req request current reaches =>
    subst request
    exact absurd trivial hop
  | sync => exact (hg.sync hk).1
  | install req request current =>
    subst request
    exact absurd trivial hop
  | compact index term data request held =>
    have hkeep : ∀ e ∈ s.log.filter (fun e => decide (e.index > index)), K e :=
      fun e he => hs e (List.mem_of_mem_filter he)
    exact (hg.saveSnapshot hk hs (fun _ => hs) (fun _ => hs) (fun _ => hkeep)
      fun _ f _ _ _ _ _ => hkeep).1
  | applied request e held type c => exact (hconf c).1

theorem OwnAppend.held {e : Entry} (h : OwnAppend s e s') (next : e.index = s.lastIndex + 1)
    (he : K e) (hs : ∀ x ∈ s.log, K x) : ∀ x ∈ s'.log, K x := by
  have hg := heldGuard K
  have happend : Kept (fun s => ∀ e ∈ s.log, K e) (fun _ => True) (s.appendEntries [e]).1 := by
    refine hg.appendNext next ⟨hs, fun _ _ => trivial⟩ fun _ x hx => ?_
    rcases List.mem_append.mp hx with hx | hx
    · exact hs x hx
    · rw [List.mem_singleton.mp hx]
      exact he
  cases h with
  | written => exact happend.1
  | synced => exact (hg.sync happend).1

/-- **A node that copies nothing has only its own new entries**, besides those it had. -/
theorem exec_entries (hex : n.exec op = some (m, eff)) (hop : m = n ∨ ¬op.Copies) :
    ∀ x ∈ m.store.log, x ∈ n.store.log ∨ Authors n op x := by
  rcases hop with rfl | hop
  · exact fun x hx => .inl hx
  by_cases hown : op.Appends
  · rcases exec_appends hown hex with hsame | ⟨term, hterm⟩ | ⟨e, he, happend⟩
    · rw [hsame]
      exact fun x hx => .inl hx
    · rw [hterm]
      exact held_setHardState (fun x hx => .inl hx) _ _
    · exact happend.held he.next.1 (.inr he) fun x hx => .inl hx
  · exact (Node.exec_store hex).keep
      (P := fun s => ∀ x ∈ s.log, x ∈ n.store.log ∨ Authors n op x) (fun x hx => .inl hx)
      fun hstep hs => hstep.held hown hop hs

end Entries

/-! ## The configuration to come -/

section ConfAt

variable {n n₀ m : Node} {op : NodeOp} {eff : Effect}

/-- Beyond the log there is nothing. -/
theorem Node.ahead_beyond (hs : Chain n.store.snapIndex n.store.log) {index : Nat}
    (h : n.store.lastIndex < index) : (n.ahead index).change? = none := by
  have hnone : n.store.entryAt index = none := by
    cases he : n.store.entryAt index with
    | none => rfl
    | some e =>
      have hbelow : n.store.snapIndex < index := by
        rw [lastIndex_of_chain hs] at h
        omega
      rw [entryAt_above hbelow] at he
      have hlt := (List.getElem?_eq_some_iff.mp he).1
      rw [lastIndex_of_chain hs] at h
      omega
  rw [ahead, hnone]
  split <;> rfl

/-- **Only a `LEAVE_JOINT` of the log leads out of a joint configuration.** -/
theorem Node.confAt_joint (hjoint : n.conf.inJoint = true)
    (h : ∀ e ∈ n.store.log, n.lastApplied < e.index → ∀ cc, e.change? = some cc →
      cc.type ≠ .leaveJoint) (hs : Chain n.store.snapIndex n.store.log) (index : Nat) :
    n.confAt index = n.conf := by
  have hnone : ∀ index cc, (n.ahead index).change? = some cc → cc.type ≠ .leaveJoint := by
    intro index cc hcc
    rw [ahead] at hcc
    split at hcc
    · cases hcc
    next hlow =>
    cases he : n.store.entryAt index with
    | none =>
      rw [he] at hcc
      cases hcc
    | some e =>
      rw [he] at hcc
      refine h e (mem_of_entryAt he) ?_ cc hcc
      rw [entryAt_index hs he]
      exact Nat.lt_of_not_le hlow
  rw [confAt]
  induction index with
  | zero => rfl
  | succ index ih =>
    rw [foldConf, ih]
    exact ConfState.absorb_joint hjoint fun cc hcc => hnone _ cc hcc

/-- The node goes along the log that `n₀` had. -/
structure Rides (n₀ n : Node) : Prop where
  conf : n.conf = n₀.confAt n.lastApplied
  entry : ∀ e ∈ n.store.log, n.lastApplied < e.index → e.change? = (n₀.ahead e.index).change?
  reach : n₀.store.lastIndex ≤ n.store.lastIndex

theorem Rides.refl (hs : Chain n.store.snapIndex n.store.log) : Rides n n := by
  refine ⟨n.confAt_applied.symm, fun e he hlt => ?_, Nat.le_refl _⟩
  obtain ⟨p, hp⟩ := List.getElem?_of_mem he
  have hindex := hs p e hp
  have hat : n.store.entryAt e.index = some e := by
    rw [entryAt_above (by omega), ← hp]
    congr 1
    omega
  rw [Node.ahead, if_neg (Nat.not_le.mpr hlt), hat, Option.getD_some]

theorem Rides.entryAt (h : Rides n₀ n) (hs : Chain n.store.snapIndex n.store.log) {index : Nat}
    {e : Entry} (hlow : n.lastApplied < index) (he : n.store.entryAt index = some e) :
    e.change? = (n₀.ahead index).change? := by
  have hindex := entryAt_index hs he
  rw [← hindex]
  refine h.entry e (mem_of_entryAt he) ?_
  rw [hindex]
  exact hlow

/-- The configuration moves with `lastApplied`. -/
theorem exec_conf_same (hc : op ≠ .collect) (hex : n.exec op = some (m, eff))
    (hop : m = n ∨ ¬op.Copies) : m.conf = n.conf ∧ m.lastApplied = n.lastApplied := by
  rcases hop with rfl | hop
  · exact ⟨rfl, rfl⟩
  · have hframe := Node.exec_frame hex hc fun req hreq => hop (by rw [hreq]; trivial)
    exact ⟨hframe.conf, hframe.applied⟩

/-- **A section that copies nothing goes along**, unless it accepts a change. -/
theorem Rides.exec (h : Rides n₀ n) (hs₀ : Chain n₀.store.snapIndex n₀.store.log)
    (hs : Chain n.store.snapIndex n.store.log) (hsnap : n.store.snapIndex ≤ n.lastApplied)
    (hcc : ∀ cc, op = .proposeConfChange cc → ¬n.AcceptsConfChange cc)
    (hex : n.exec op = some (m, eff)) (hop : m = n ∨ ¬op.Copies) : Rides n₀ m := by
  have hreach := Nat.le_trans h.reach (exec_reach hex hop)
  have hentries := exec_entries hex hop
  -- what the section appends is no change, and stands where `n₀` has nothing
  have hnew : ∀ x, Authors n op x → x.change? = (n₀.ahead x.index).change? := by
    intro x hx
    have hbeyond : (n₀.ahead x.index).change? = none := by
      refine Node.ahead_beyond hs₀ ?_
      rw [hx.next.1]
      exact Nat.lt_succ_of_le h.reach
    rw [hbeyond]
    cases hx with
    | propose command leader => rfl
    | confChange cc accepts => exact absurd accepts (hcc cc rfl)
    | noop peer req resp candidate current answer granted quorum => rfl
  by_cases hc : op = .collect
  · subst hc
    have hcollect := (Node.exec_collect hex).1
    have happlied := (Node.collectLoop_frame hcollect).2.2.2
    refine ⟨?_, fun x hx hlt => ?_, hreach⟩
    · exact collectLoop_conf hcollect hsnap (fun index e hlow _ he => h.entryAt hs hlow he) h.conf
    · rcases hentries x hx with hold | hauthor
      · exact h.entry x hold (Nat.lt_of_le_of_lt happlied hlt)
      · exact hnew x hauthor
  · have hsame := exec_conf_same hc hex hop
    refine ⟨?_, fun x hx hlt => ?_, hreach⟩
    · rw [hsame.1, hsame.2]
      exact h.conf
    · rw [hsame.2] at hlt
      rcases hentries x hx with hold | hauthor
      · exact h.entry x hold hlt
      · exact hnew x hauthor

end ConfAt

end Raft
end DistKV
