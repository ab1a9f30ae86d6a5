import DistKV.Raft.Chain
import DistKV.Raft.Roles

/-!
# Unsynced entries of a leader

`sync` does nothing on a storage that is not dirty, so a leader may rely on it only if every log
record of its own that is not synced has made the storage dirty. That holds for leaders and for
candidates with an election under way (`dirtyRule`), whatever fails. It does not hold for
followers: a failed fsync of an AppendEntries leaves the flag, but a failed append in the middle
of one leaves records without it.
-/

namespace DistKV
namespace Raft

/-! ## Storage calls -/

/-- No record about the log waits for an fsync. -/
def LogSynced (s : DiskStorage) : Prop := ∀ r ∈ s.disk.files.unsynced, ¬r.IsLog

def DirtyOk (s : DiskStorage) : Prop := s.dirty = true ∨ LogSynced s

theorem LogSynced.nil {s : DiskStorage} (h : s.disk.files.unsynced = []) : LogSynced s := by
  intro r hr
  rw [h] at hr
  cases hr

theorem syncedGuard : Guard LogSynced (fun _ => True) where
  quiet hd h := by
    intro r hr
    rw [hd] at hr
    exact h r hr
  files _ := trivial
  flush _ := .nil rfl

theorem LogSynced.write {s s' : DiskStorage} {r : WalRecord} (h : LogSynced s) (hr : ¬r.IsLog)
    (hfiles : s'.disk.files = s.disk.files.write r) : LogSynced s' := by
  intro x hx
  rw [hfiles] at hx
  rcases List.mem_append.mp hx with hx | hx
  · exact h x hx
  · rw [List.mem_singleton.mp hx]; exact hr

section Calls

variable {s : DiskStorage}

theorem DirtyOk.setHardState (h : DirtyOk s) (term votedFor : Nat) :
    DirtyOk (s.setHardState term votedFor).1 := by
  rcases h with h | h
  · refine .inl ?_
    rw [DiskStorage.setHardState, andThen]
    split <;> exact h
  · have hrec : ¬(WalRecord.hardState term votedFor).IsLog := id
    have hmem : LogSynced { s with term := term, votedFor := votedFor } := h
    exact .inr (syncedGuard.setHardState ⟨h, fun _ _ => trivial⟩ hmem (hmem.write hrec rfl)).1

theorem DirtyOk.setConfState (h : DirtyOk s) (c : ConfState) : DirtyOk (s.setConfState c).1 := by
  rcases h with h | h
  · refine .inl ?_
    rw [DiskStorage.setConfState, andThen]
    split <;> exact h
  · have hrec : ¬(WalRecord.confState c).IsLog := id
    have hmem : LogSynced { s with conf := c } := h
    exact .inr (syncedGuard.setConfState ⟨h, fun _ _ => trivial⟩ hmem (hmem.write hrec rfl)).1

/-- A successful `sync` leaves the storage as it is because it is clean, or syncs everything. -/
theorem sync_ok (h : s.sync.2 = true) :
    s.sync.1 = s ∧ s.dirty = false ∨ s.sync.1.disk.files = s.disk.files.flush := by
  rw [DiskStorage.sync] at h ⊢
  cases hd : s.dirty with
  | false => exact .inl ⟨rfl, rfl⟩
  | true =>
    simp only [hd, Bool.not_true, Bool.false_eq_true, if_false] at h ⊢
    obtain ⟨hsync, heq⟩ := andThen_ok h
    rw [heq]
    exact .inr (Disk.sync_ok hsync)

theorem DirtyOk.sync (h : DirtyOk s) : DirtyOk s.sync.1 := by
  cases hok : s.sync.2 with
  | true =>
    rcases sync_ok hok with ⟨heq, -⟩ | hfiles
    · rw [heq]; exact h
    · exact .inr (.nil (by rw [hfiles]; rfl))
  | false =>
    -- a failed sync leaves the flag
    rw [DiskStorage.sync] at hok ⊢
    cases hd : s.dirty with
    | false => exact h
    | true =>
      simp only [hd, Bool.not_true, Bool.false_eq_true, if_false] at hok ⊢
      refine .inl ?_
      rw [andThen] at hok ⊢
      split at hok
      · cases hok
      · next hsync => rw [if_neg hsync]; exact hd

/-- A leader's own entry is in the WAL and the storage dirty, or nothing has been written. -/
theorem DirtyOk.entry (h : DirtyOk s) {e : Entry}
    (hlast : ∀ x, s.log.getLast? = some x → x.index < e.index) :
    DirtyOk (s.appendEntries [e]).1 := by
  have htrunc : s.truncateConflict e.index = (s, true) := by
    rw [DiskStorage.truncateConflict]
    split
    · next x hx => rw [if_neg (Nat.not_le_of_lt (hlast x hx))]
    · rfl
  simp only [DiskStorage.appendEntries, htrunc, DiskStorage.appendLoop]
  cases hok : (s.disk.append (.append e)).2 with
  | true =>
    simp only [andThen, DiskStorage.onDisk, hok, if_true]
    exact .inl rfl
  | false =>
    simp only [andThen, DiskStorage.onDisk, hok, Bool.false_eq_true, if_false, if_true]
    have hfiles := (s.disk.append_into (.append e)).files
    rw [hok] at hfiles
    rcases h with h | h
    · exact .inl h
    · exact .inr (syncedGuard.quiet (b := s.dirty) hfiles h)

/-- The flag is as before, or nothing waits for an fsync. -/
def FlagOrSynced (dirty : Bool) (s : DiskStorage) : Prop :=
  s.dirty = dirty ∨ s.disk.files.unsynced = []

theorem rewriteWal_dirty (conf : ConfState) : FlagOrSynced s.dirty (s.rewriteWal conf).1 := by
  rw [DiskStorage.rewriteWal]
  refine andThen_ind (P := FlagOrSynced s.dirty) (.inl rfl) fun _ =>
    andThen_ind (P := FlagOrSynced s.dirty) (.inl rfl) fun _ =>
    andThen_ind (P := FlagOrSynced s.dirty) (.inl rfl) fun hok => .inr ?_
  -- the rename has put the new WAL in place
  generalize ((s.onDisk _).1.onDisk Disk.close).1 = s' at hok ⊢
  have hfiles := (s'.disk.replace_into fun f =>
    { f with synced := s.snapshotRecords conf, unsynced := [] }).files
  have hdone : (s'.disk.replace fun f =>
    { f with synced := s.snapshotRecords conf, unsynced := [] }).2 = true := hok
  rw [hdone] at hfiles
  have hio := Disk.io_files (s'.disk.replace fun f =>
    { f with synced := s.snapshotRecords conf, unsynced := [] }).1
  exact congrArg Files.unsynced (hio.1.trans hfiles)

theorem saveSnapshot_dirty (index term : Nat) (data : Bytes) (conf : ConfState) :
    FlagOrSynced s.dirty (s.saveSnapshot index term data conf).1 := by
  rw [DiskStorage.saveSnapshot]
  split
  · exact .inl rfl
  have hw : (s.writeSnapshot index term data conf).1.dirty = s.dirty := by
    obtain ⟨d, hd⟩ := writeSnapshot_rest (s := s) index term data conf
    rw [hd]
  refine andThen_ind (P := FlagOrSynced s.dirty) (.inl hw) fun _ => ?_
  rcases rewriteWal_dirty (s := { (s.writeSnapshot index term data conf).1 with
    log := (s.writeSnapshot index term data conf).1.log.filter fun e => decide (e.index > index)
    snapIndex := index, snapTerm := term, snapshot := data, conf := conf }) conf with h | h
  · exact .inl (h.trans hw)
  · exact .inr h

theorem DirtyOk.saveSnapshot (h : DirtyOk s) (index term : Nat) (data : Bytes)
    (conf : ConfState) : DirtyOk (s.saveSnapshot index term data conf).1 := by
  rcases saveSnapshot_dirty (s := s) index term data conf with hd | hd
  swap
  · exact .inr (.nil hd)
  rcases h with h | h
  · exact .inl (hd.trans h)
  · refine .inr (syncedGuard.saveSnapshot ⟨h, fun _ _ => trivial⟩ h (fun _ => h) (fun _ => h)
      (fun _ => h) ?_).1
    intro _ f _ _ _ huns _
    exact .nil huns

end Calls

theorem StoreStep.dirtyOk {i : Nat} {conf : ConfState} {op : NodeOp} {s s' : DiskStorage}
    (h : StoreStep i conf op s s') (hop : ∀ req, op ≠ .handle (.appendEntries req))
    (hs : Stored s) (hd : DirtyOk s) : DirtyOk s' := by
  cases h with
  | stepDown term later => exact hd.setHardState _ _
  | campaign member => exact hd.setHardState _ _
  | vote req request current free => exact hd.setHardState _ _
  | entry e next current type =>
    refine hd.entry fun x hx => ?_
    have hx' := hs.chain.getLast? hx
    have hlast := hs.lastIndex
    omega
  | accept req request current reaches => exact absurd request (hop req)
  | sync => exact hd.sync
  | install req request current => exact hd.saveSnapshot _ _ _ _
  | compact index term data request held => exact hd.saveSnapshot _ _ _ _
  | applied request e held type c => exact hd.setConfState c

theorem exec_dirtyOk {n m : Node} {faults : List Bool} {op : NodeOp} {eff : Effect}
    (hex : (n.withFaults faults).exec op = some (m, eff))
    (hreq : ∀ req, op = .handle req → ChainedRequest req) (hs : Stored n.store)
    (hd : DirtyOk n.store) (hrole : m.role ≠ .follower) : DirtyOk m.store := by
  by_cases hop : ∃ req, op = .handle (.appendEntries req)
  · -- the request is turned down, since the node is not a follower afterwards
    obtain ⟨req, rfl⟩ := hop
    have hlock := Node.exec_unlocked hex
    simp only [Node.exec, hlock, Bool.false_eq_true, if_false] at hex
    obtain ⟨rfl, -⟩ := Prod.mk.inj (Option.some.inj hex)
    rcases Node.handleAppendEntries_role (n := n.withFaults faults) req with ⟨-, hsame⟩ | ⟨hf, -⟩
    · show DirtyOk ((n.withFaults faults).handleAppendEntries req).1.store
      rw [hsame]
      exact hd
    · exact absurd hf hrole
  · have hkeep := (Node.exec_store hex).keep
      (P := fun s => Kept Stored Recoverable s ∧ DirtyOk s) ⟨stored_withFaults hs faults, hd⟩
      fun hstep hs => ⟨hstep.stored hreq hs.1,
        hstep.dirtyOk (fun req heq => hop ⟨req, heq⟩) hs.1.1 hs.2⟩
    exact hkeep.2

/-- What a waiting vote request says about its candidate: everything was synced when the
    election started. -/
def VotePending (n : Node) : Request → Prop
  | .requestVote req => req.term ≤ n.store.term ∧
      (n.role = .candidate → n.store.term = req.term → DirtyOk n.store)
  | _ => True

def dirtyFlag : Assertion where
  node i n := ChainedNode i n ∧ (n.role = .leader → DirtyOk n.store)
  files _ := Recoverable
  call _ _ := ChainedRequest
  waiting n _ := VotePending n

/-- The vote requests of a section are those of an election that has just been recorded. -/
theorem votePending_sent {n m : Node} {op : NodeOp} {eff : Effect}
    (hex : n.exec op = some (m, eff)) {s : Send} (hs : s ∈ eff.sends) : VotePending m s.req := by
  cases hreq : s.req with
  | requestVote req =>
    obtain ⟨election, hterm, -⟩ := Node.exec_asks hex hs hreq
    exact ⟨Nat.le_of_eq hterm, fun _ _ => .inr (.nil (by rw [election.durable]; rfl))⟩
  | _ => trivial

theorem dirtyRule (cfg : Config) : Rule cfg (fun _ _ _ => True) dirtyFlag where
  init i := ⟨(chainRule cfg).init i, fun h => by cases h⟩
  files h := (chainRule cfg).files h.1
  recover h ho := ⟨(chainRule cfg).recover h ho, fun h => by cases h⟩
  exec {i n faults op n' eff} hi hn hok hop hex := by
    have hreq : ∀ req, op = .handle req → ChainedRequest req := by
      rintro req rfl
      obtain ⟨_, h⟩ := hop
      exact h
    have hchain : chained.OpOk i n op := by
      cases op with
      | handle req => exact hop
      | reply peer req resp => exact ⟨hop.1, trivial, trivial⟩
      | _ => trivial
    obtain ⟨hnode, htrail, -, hsend, -⟩ := (chainRule cfg).exec hi hn.1 hok hchain hex
    have hkeep : n'.role ≠ .follower → DirtyOk n.store → DirtyOk n'.store :=
      fun hr hd => exec_dirtyOk hex hreq hn.1.2 hd hr
    have hgrows : n.store.term ≤ n'.store.term := (Node.exec_store hex).grows.1
    have hrole := Node.exec_role hex
    refine ⟨⟨hnode, fun hl => ?_⟩, htrail, fun p r hw => ?_,
      fun s hs => ⟨(hsend s hs).1, votePending_sent hex hs⟩, fun _ _ _ _ => trivial⟩
    · -- a leader was one before, or has just won its election
      have hne : n'.role ≠ .follower := by rw [hl]; simp
      cases hrole with
      | follower role _ => exact absurd role hne
      | same role _ _ _ => exact hkeep hne (hn.2 (role.symm.trans hl))
      | failed role _ _ _ => rw [role] at hl; cases hl
      | campaign election => rw [election.role] at hl; cases hl
      | vote peer req resp request candidate current _ _ _ _ _ =>
        subst request
        exact hkeep hne (hop.2.1.2 candidate current)
    · cases r with
      | requestVote req =>
        refine ⟨Nat.le_trans hw.1 hgrows, fun hc ht => ?_⟩
        have hne : n'.role ≠ .follower := by rw [hc]; simp
        have hle : req.term ≤ n.store.term := hw.1
        cases hrole with
        | follower role _ => exact absurd role hne
        | same role term _ _ => exact hkeep hne (hw.2 (role.symm.trans hc) (term.symm.trans ht))
        | failed _ term _ _ => exact absurd (term.symm.trans ht) (by show n.store.term + 1 ≠ _; omega)
        | campaign election =>
          exact absurd (election.term.symm.trans ht) (by show n.store.term + 1 ≠ _; omega)
        | vote _ _ _ _ candidate _ _ term _ _ _ =>
          exact hkeep hne (hw.2 candidate (term.symm.trans ht))
      | _ => trivial
  read _ _ _ _ _ _ _ hreq := ⟨by rw [hreq]; trivial, by rw [hreq]; trivial⟩

end Raft
end DistKV
