import DistKV.Raft.Section
import DistKV.Raft.Stored
import DistKV.Raft.StoreStep

/-!
# Terms and votes on disk

A hard state is a term and the vote cast in it. `HardLe` orders them: a later term is later, and
within a term a vote may be added but not changed. Every storage call writes a hard state that is
not below the one in memory, whatever fails; so the records in the WAL form a chain below the one
in memory (`HardAbove`), and a bound that is on disk once stays below everything any recovery
finds.
-/

namespace DistKV
namespace Raft

/-- `(term, votedFor)` may be followed by `(term', votedFor')`. -/
def HardLe (a b : Nat × Nat) : Prop := a.1 < b.1 ∨ a.1 = b.1 ∧ (a.2 = 0 ∨ a.2 = b.2)

theorem HardLe.refl (a : Nat × Nat) : HardLe a a := .inr ⟨rfl, .inr rfl⟩

theorem HardLe.trans {a b c : Nat × Nat} (h : HardLe a b) (h' : HardLe b c) : HardLe a c := by
  rcases h with h | ⟨h1, h2⟩
  · rcases h' with h' | ⟨h1', -⟩
    · exact .inl (Nat.lt_trans h h')
    · exact .inl (h1' ▸ h)
  · rcases h' with h' | ⟨h1', h2'⟩
    · exact .inl (h1 ▸ h')
    · refine .inr ⟨h1.trans h1', ?_⟩
      rcases h2 with h2 | h2
      · exact .inl h2
      · rw [h2]; exact h2'

/-- The state of an empty directory is below every other. -/
theorem HardLe.zero (a : Nat × Nat) : HardLe (0, 0) a := by
  rcases Nat.eq_zero_or_pos a.1 with h | h
  · exact .inr ⟨h.symm, .inl rfl⟩
  · exact .inl h

theorem HardLe.term {a b : Nat × Nat} (h : HardLe a b) : a.1 ≤ b.1 := by
  rcases h with h | ⟨h, -⟩
  · exact Nat.le_of_lt h
  · exact Nat.le_of_eq h

/-- Two states above one vote in the same term agree on it. -/
theorem HardLe.vote {term v : Nat} {b : Nat × Nat} (h : HardLe (term, v) b) (hv : v ≠ 0)
    (ht : b.1 = term) : b.2 = v := by
  rcases h with h | ⟨-, h | h⟩
  · exact absurd (ht ▸ h) (Nat.lt_irrefl _)
  · exact absurd h hv
  · exact h.symm

/-! ## Chains of records -/

/-- Along the records the hard state only goes up. -/
def HardChain (recs : List WalRecord) : Prop :=
  ∀ p q, p <+: q → q <+: recs → HardLe (hardOf p) (hardOf q)

theorem HardChain.nil : HardChain [] := by
  intro p q hp hq
  obtain rfl := List.prefix_nil.mp hq
  obtain rfl := List.prefix_nil.mp hp
  exact .refl _

theorem HardChain.concat {recs : List WalRecord} {r : WalRecord} (h : HardChain recs)
    (hr : HardLe (hardOf recs) (replayHard (hardOf recs) r)) : HardChain (recs ++ [r]) := by
  intro p q hp hq
  rcases List.prefix_concat_iff.mp hq with rfl | hq
  · rcases List.prefix_concat_iff.mp hp with rfl | hp
    · exact .refl _
    · rw [hardOf_append]
      exact (h p recs hp (List.prefix_refl _)).trans hr
  · exact h p q hp hq

/-- A record of another kind. -/
theorem HardChain.other {recs : List WalRecord} {r : WalRecord} (h : HardChain recs)
    (hr : ∀ a, replayHard a r = a) : HardChain (recs ++ [r]) :=
  h.concat (by rw [hr]; exact .refl _)

theorem HardChain.logs {recs recs' : List WalRecord} (h : HardChain recs)
    (hr : ∀ r ∈ recs', r.IsLog) : HardChain (recs ++ recs') := by
  induction recs' using List.reverseRecOn with
  | nil => rw [List.append_nil]; exact h
  | append_singleton recs' r ih =>
    rw [← List.append_assoc]
    have hlast := hr r (List.mem_append_right _ List.mem_cons_self)
    refine (ih fun x hx => hr x (List.mem_append_left _ hx)).concat ?_
    have hsame : hardOf (recs ++ recs' ++ [r]) = hardOf (recs ++ recs') :=
      hardOf_logs _ fun x hx => by rw [List.mem_singleton.mp hx]; exact hlast
    rw [← hardOf_append, hsame]
    exact .refl _

/-- The WAL of a process, or of a directory without one: the records form a chain, and the
    synced ones have reached `b`. -/
structure FilesAbove (b : Nat × Nat) (f : Files) : Prop where
  chain : HardChain f.records
  above : HardLe b (hardOf f.synced)

structure HardAbove (b : Nat × Nat) (s : DiskStorage) : Prop where
  files : FilesAbove b s.disk.files
  memory : HardLe (hardOf s.disk.files.records) (s.term, s.votedFor)

theorem FilesAbove.records {b : Nat × Nat} {f : Files} (h : FilesAbove b f) :
    HardLe b (hardOf f.records) :=
  h.above.trans (h.chain _ _ (List.prefix_append _ _) (List.prefix_refl _))

theorem HardAbove.le {b : Nat × Nat} {s : DiskStorage} (h : HardAbove b s) :
    HardLe b (s.term, s.votedFor) := h.files.records.trans h.memory

section Calls

variable {b : Nat × Nat} {s : DiskStorage}

theorem hardGuard (b : Nat × Nat) : Guard (HardAbove b) (FilesAbove b) where
  quiet hd h := by
    constructor
    · simpa only [hd] using h.files
    · simpa only [hd] using h.memory
  files h := h.files
  flush {s} h := by
    refine ⟨⟨?_, ?_⟩, ?_⟩
    · rw [DiskStorage.withFiles, Files.records_flush]; exact h.files.chain
    · exact h.files.records
    · rw [DiskStorage.withFiles, Files.records_flush]; exact h.memory

theorem HardAbove.congr {s' : DiskStorage} (h : HardAbove b s)
    (hsyn : s'.disk.files.synced = s.disk.files.synced)
    (huns : s'.disk.files.unsynced = s.disk.files.unsynced)
    (hmem : (s'.term, s'.votedFor) = (s.term, s.votedFor)) : HardAbove b s' := by
  have hrecs : s'.disk.files.records = s.disk.files.records := by
    rw [Files.records, hsyn, huns]; rfl
  refine ⟨⟨?_, ?_⟩, ?_⟩
  · rw [hrecs]; exact h.files.chain
  · rw [hsyn]; exact h.files.above
  · rw [hrecs, hmem]; exact h.memory

/-- A record of another kind behind the last fsync. -/
theorem HardAbove.write {s' : DiskStorage} {r : WalRecord} (h : HardAbove b s)
    (hr : ∀ a, replayHard a r = a) (hfiles : s'.disk.files = s.disk.files.write r)
    (hmem : (s'.term, s'.votedFor) = (s.term, s.votedFor)) : HardAbove b s' := by
  refine ⟨⟨?_, ?_⟩, ?_⟩
  · rw [hfiles, Files.records_write]; exact h.files.chain.other hr
  · rw [hfiles]; exact h.files.above
  · rw [hfiles, Files.records_write, hardOf_append, hr, hmem]; exact h.memory

theorem HardAbove.setHardState (h : Kept (HardAbove b) (FilesAbove b) s) {term votedFor : Nat}
    (hle : HardLe (s.term, s.votedFor) (term, votedFor)) :
    Kept (HardAbove b) (FilesAbove b) (s.setHardState term votedFor).1 := by
  have hrec := h.1.memory.trans hle
  refine (hardGuard b).setHardState h ⟨h.1.files, hrec⟩ ⟨⟨?_, h.1.files.above⟩, ?_⟩
  · rw [DiskStorage.withFiles, Files.records_write]
    exact h.1.files.chain.concat hrec
  · rw [DiskStorage.withFiles, Files.records_write, hardOf_append]
    exact .refl _

theorem HardAbove.setConfState (h : Kept (HardAbove b) (FilesAbove b) s) (c : ConfState) :
    Kept (HardAbove b) (FilesAbove b) (s.setConfState c).1 :=
  (hardGuard b).setConfState h (h.1.congr rfl rfl rfl) (h.1.write (fun _ => rfl) rfl rfl)

theorem HardAbove.appendEntries (h : Kept (HardAbove b) (FilesAbove b) s) (es : List Entry) :
    Kept (HardAbove b) (FilesAbove b) (s.appendEntries es).1 :=
  (hardGuard b).appendEntries (Q := fun _ => HardAbove b) (fun hs => hs)
    (fun hd hs => (hardGuard b).quiet hd hs) (fun hs => hs.write (fun _ => rfl) rfl rfl) h
    (fun _ _ _ _ => h.1) (fun _ _ _ _ _ _ => h.1.write (fun _ => rfl) rfl rfl)

theorem HardAbove.saveSnapshot (h : Kept (HardAbove b) (FilesAbove b) s) (index term : Nat)
    (data : Bytes) (conf : ConfState) :
    Kept (HardAbove b) (FilesAbove b) (s.saveSnapshot index term data conf).1 := by
  refine (hardGuard b).saveSnapshot h ?_ ?_ ?_ ?_ ?_
  · exact h.1.congr rfl rfl rfl
  · exact fun _ => h.1.congr rfl rfl rfl
  · exact fun _ => h.1.congr rfl rfl rfl
  · exact fun _ => h.1.congr rfl rfl rfl
  · -- the new WAL starts with the hard state in memory
    intro _ f _ _ _ huns hsyn
    have hfirst : HardChain [.hardState s.term s.votedFor, .confState conf] :=
      (HardChain.nil.concat (HardLe.zero _)).other fun _ => rfl
    have hlogs : ∀ r ∈ (s.log.filter fun e => decide (e.index > index)).map WalRecord.append,
        r.IsLog := isLog_map_append
    have hrecs : f.records = f.synced := by rw [Files.records, huns, List.append_nil]
    have hhard : hardOf f.synced = (s.term, s.votedFor) := by
      rw [hsyn]
      exact hardOf_logs [.hardState s.term s.votedFor, .confState conf] hlogs
    have hchain : HardChain f.synced := by rw [hsyn]; exact hfirst.logs hlogs
    refine ⟨⟨?_, ?_⟩, ?_⟩
    · show HardChain f.records
      rw [hrecs]; exact hchain
    · show HardLe b (hardOf f.synced)
      rw [hhard]; exact h.1.le
    · show HardLe (hardOf f.records) (s.term, s.votedFor)
      rw [hrecs, hhard]; exact .refl _

end Calls

/-! ## Sections and recovery -/

theorem StoreStep.hard {i : Nat} {conf : ConfState} {op : NodeOp} {s s' : DiskStorage}
    {b : Nat × Nat} (h : StoreStep i conf op s s') (hs : Kept (HardAbove b) (FilesAbove b) s) :
    Kept (HardAbove b) (FilesAbove b) s' := by
  cases h with
  | stepDown term later => exact HardAbove.setHardState hs (.inl later)
  | campaign member => exact HardAbove.setHardState hs (.inl (Nat.lt_succ_self _))
  | vote req request current free => exact HardAbove.setHardState hs (.inr ⟨rfl, free⟩)
  | entry e next current type => exact HardAbove.appendEntries hs _
  | accept req request current reaches => exact HardAbove.appendEntries hs _
  | sync => exact (hardGuard b).sync hs
  | install req request current => exact HardAbove.saveSnapshot hs _ _ _ _
  | compact index term data request held => exact HardAbove.saveSnapshot hs _ _ _ _
  | applied request e held type c => exact HardAbove.setConfState hs c

theorem hard_withFaults {b : Nat × Nat} {n : Node} (h : HardAbove b n.store) (faults : List Bool) :
    Kept (HardAbove b) (FilesAbove b) (n.withFaults faults).store :=
  ⟨h.congr rfl rfl rfl, by simp [Node.withFaults]⟩

/-- **A section keeps the hard state above what was on disk**, at every point of it. -/
theorem exec_hard {b : Nat × Nat} {n m : Node} {faults : List Bool} {op : NodeOp} {eff : Effect}
    (h : HardAbove b n.store) (hex : (n.withFaults faults).exec op = some (m, eff)) :
    Kept (HardAbove b) (FilesAbove b) m.store :=
  (Node.exec_store hex).keep (hard_withFaults h faults) fun hstep hs => hstep.hard hs

theorem FilesAbove.recover {b : Nat × Nat} {f : Files} (h : FilesAbove b f) {keep : Nat}
    {peers : List Nat} {s : DiskStorage}
    (ho : DiskStorage.openDiskStorage (f.crash keep) peers = some s) : HardAbove b s := by
  have hr := recovered_of_open ho
  have hcut := f.crash_synced keep
  have hrecs : (f.crash keep).records = (f.crash keep).synced := by
    simp [Files.records, Files.crash]
  refine ⟨⟨?_, ?_⟩, ?_⟩
  · rw [hr.disk, hrecs]
    exact fun p q hp hq => h.chain p q hp (hq.trans hcut)
  · rw [hr.disk]
    exact h.above.trans (h.chain _ _ (List.prefix_append _ _) hcut)
  · rw [hr.disk, hrecs, hr.term, hr.votedFor]
    exact .refl _

theorem HardAbove.fresh (conf : ConfState) : HardAbove (0, 0) { conf := conf } :=
  ⟨⟨HardChain.nil, .refl _⟩, .refl _⟩

/-- A bound that is on disk can be used from there on. -/
theorem HardAbove.raise {b b' : Nat × Nat} {s : DiskStorage} (h : HardAbove b s)
    (hb : HardLe b' (hardOf s.disk.files.synced)) : HardAbove b' s :=
  ⟨⟨h.files.chain, hb⟩, h.memory⟩

/-- In every run the hard states in the WAL form a chain below the one in memory. -/
theorem hardRule (cfg : Config) : Rule cfg (fun _ _ _ => True)
    { node := fun _ n => HardAbove (0, 0) n.store, files := fun _ => FilesAbove (0, 0) } where
  init _ := .fresh _
  files h := h.files
  recover h ho := h.recover ho
  exec _ hn _ _ hex := by
    have hk := exec_hard hn hex
    exact ⟨hk.1, hk.2, fun _ _ _ => trivial, fun _ _ => ⟨trivial, trivial⟩, fun _ _ _ _ => trivial⟩
  read _ _ _ _ _ _ _ _ := ⟨trivial, trivial⟩

/-! ## A successful `setHardState` is on disk -/

theorem Disk.append_ok {d : Disk} {r : WalRecord} (h : (d.append r).2 = true) :
    (d.append r).1.files = d.files.write r := by
  rw [(d.append_into r).files, if_pos h]

theorem Disk.sync_ok {d : Disk} (h : d.sync.2 = true) : d.sync.1.files = d.files.flush := by
  rw [d.sync_into.files, if_pos h]

theorem setHardState_ok {s : DiskStorage} {term votedFor : Nat}
    (h : (s.setHardState term votedFor).2 = true) :
    (s.setHardState term votedFor).1.disk.files =
      (s.disk.files.write (.hardState term votedFor)).flush := by
  rw [DiskStorage.setHardState] at h ⊢
  obtain ⟨happend, heq⟩ := andThen_ok h
  rw [heq] at h ⊢
  have hsync := Disk.sync_ok h
  have hfiles := Disk.append_ok happend
  exact hsync.trans (congrArg Files.flush hfiles)

theorem setHardState_synced {s : DiskStorage} {term votedFor : Nat}
    (h : (s.setHardState term votedFor).2 = true) :
    hardOf (s.setHardState term votedFor).1.disk.files.synced = (term, votedFor) := by
  rw [setHardState_ok h]
  show hardOf (s.disk.files.synced ++ (s.disk.files.unsynced ++ [_])) = _
  rw [← List.append_assoc, hardOf_append]
  rfl

/-- A granted vote is the last hard state on disk. -/
theorem handleRequestVote_durable {n : Node} {req : RequestVoteRequest}
    (h : (n.handleRequestVote req).2.voteGranted = true) :
    hardOf (n.handleRequestVote req).1.store.disk.files.synced = (req.term, req.candidateId) := by
  have hle := Node.le_meetTerm (n := n) req.term
  unfold Node.handleRequestVote at h ⊢
  dsimp only at h ⊢
  generalize n.meetTerm req.term = m at h hle ⊢
  split at h
  · cases h
  next hge =>
  split at h
  · cases h
  next hmember =>
  split at h
  swap
  · cases h
  next hvote =>
  split at h
  swap
  · cases h
  next hok =>
  have hterm : m.store.term = req.term := Nat.le_antisymm (Nat.le_of_not_lt hge) hle
  rw [if_neg hge, if_neg hmember, if_pos hvote, if_pos hok]
  rw [hterm] at hok ⊢
  exact setHardState_synced hok

end Raft
end DistKV
