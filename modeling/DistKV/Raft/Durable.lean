import DistKV.Raft.Calm
import DistKV.Raft.DirtyFlag

/-!
# What is on disk when a node answers

A vote is granted after its `setHardState` has returned without an error, so it is on disk. A
leader raises `commitIndex` after a successful `sync`, and that covers its log. A follower that
answers an AppendEntries with success is another matter: it trusts its memory, and memory is ahead
of the disk after a failure. An entry it steps over need not be synced, and a failed
`setHardState` in `stepDownLocked` is ignored. `Backed` is exactly what has to be on disk already
(`answers_are_durable`), and a retry after a failed fsync finds it missing
(`retry_acknowledges_unsynced`).
-/

namespace DistKV
namespace Raft

open Run (IsRun)

/-! ## Files after a call that worked -/

section Calls

variable {s : DiskStorage}

/-- The three ends of `setHardState`: nothing written, written but not synced, synced. -/
theorem setHardState_files (term votedFor : Nat) :
    (s.setHardState term votedFor).1.disk.files =
      if s.disk.faults[0]? = some true then s.disk.files
      else if s.disk.opened = true ∧ s.disk.faults[1]? ≠ some true then
        (s.disk.files.write (.hardState term votedFor)).flush
      else s.disk.files.write (.hardState term votedFor) := by
  obtain ⟨⟨files, opened, faults, trail⟩, _⟩ := s
  cases faults with
  | nil => cases opened <;> rfl
  | cons b faults =>
    cases b with
    | true => rfl
    | false =>
      cases faults with
      | nil => cases opened <;> rfl
      | cons b' faults => cases opened <;> cases b' <;> rfl

theorem appendLoop_ok {es : List Entry} (h : (s.appendLoop es).2 = true) :
    (s.appendLoop es).1.log = s.log ++ es := by
  induction es generalizing s with
  | nil => exact (List.append_nil _).symm
  | cons e es ih =>
    rw [DiskStorage.appendLoop] at h ⊢
    obtain ⟨-, heq⟩ := andThen_ok h
    rw [heq] at h ⊢
    rw [ih h]
    exact List.append_assoc s.log [e] es

theorem truncateConflict_ok {first : Nat} (h : (s.truncateConflict first).2 = true) :
    (s.truncateConflict first).1.log = truncateFrom s.log first := by
  rw [DiskStorage.truncateConflict] at h ⊢
  split at h
  · next x hx =>
    split at h
    · next hge =>
      obtain ⟨-, heq⟩ := andThen_ok h
      simp only [if_pos hge, heq]
      rfl
    · next hlt =>
      simp only [if_neg hlt]
      refine (DiskStorage.truncateFrom_self fun y hy => ?_).symm
      rw [hx, Option.some.injEq] at hy
      rw [← hy]
      exact Nat.lt_of_not_le hlt
  · next hnil =>
    exact (DiskStorage.truncateFrom_self fun y hy => by rw [hnil] at hy; cases hy).symm

theorem appendEntries_ok {e : Entry} {es : List Entry} (h : (s.appendEntries (e :: es)).2 = true) :
    (s.appendEntries (e :: es)).1.log = truncateFrom s.log e.index ++ e :: es ∧
      (s.appendEntries (e :: es)).1.dirty = true := by
  rw [DiskStorage.appendEntries] at h ⊢
  obtain ⟨htrunc, heq⟩ := andThen_ok h
  rw [heq] at h ⊢
  obtain ⟨hloop, heq'⟩ := andThen_ok h
  rw [heq']
  exact ⟨(appendLoop_ok hloop).trans (by rw [truncateConflict_ok htrunc]), rfl⟩

/-- Entries leave the hard state of the WAL alone. -/
theorem appendEntries_hardOf (es : List Entry) :
    hardOf (s.appendEntries es).1.disk.files.records = hardOf s.disk.files.records := by
  have hguard : Guard (fun s' => hardOf s'.disk.files.records = hardOf s.disk.files.records)
      (fun _ => True) :=
    { quiet := fun hd h => by rw [hd]; exact h
      files := fun _ => trivial
      flush := fun h => by rw [DiskStorage.withFiles, Files.records_flush]; exact h }
  refine (hguard.appendEntries
    (Q := fun _ s' => hardOf s'.disk.files.records = hardOf s.disk.files.records)
    (fun hq => hq) (fun hd h => by rw [hd]; exact h) ?_ ⟨rfl, fun _ _ => trivial⟩
    (fun _ _ _ _ => rfl) ?_).1
  · intro e _ s' h
    rw [DiskStorage.withFiles, Files.records_write, hardOf_append]
    exact h
  · intro e _ _ _ _ _
    rw [DiskStorage.withFiles, Files.records_write, hardOf_append]
    rfl

end Calls

/-! ## A successful AppendEntries -/

/-- Success means that the entries went through `storeEntries`. -/
theorem handleAppendEntries_success {n : Node} {req : AppendEntriesRequest}
    (h : (n.handleAppendEntries req).2.success = true) :
    n.store.term ≤ req.term ∧
      req.prevLogIndex ≤ (n.follow req.term req.leaderId).store.lastIndex ∧
      (Node.storeEntries (n.follow req.term req.leaderId).store req.entries).2 = true ∧
      (n.handleAppendEntries req).1.store =
        (Node.storeEntries (n.follow req.term req.leaderId).store req.entries).1 := by
  have haccept : ∀ (m : Node) resp, resp.success = false → (m.acceptEntries req resp).2.success = true →
      (Node.storeEntries m.store req.entries).2 = true ∧
        (m.acceptEntries req resp).1.store = (Node.storeEntries m.store req.entries).1 := by
    intro m resp hresp hm
    simp only [Node.acceptEntries] at hm ⊢
    split at hm
    · rw [hresp] at hm; cases hm
    · next hok =>
      rw [if_neg hok]
      refine ⟨by simpa using hok, ?_⟩
      dsimp only
      split <;> rfl
  unfold Node.handleAppendEntries at h ⊢
  split at h
  · cases h
  next hge =>
  rw [if_neg hge]
  dsimp only at h ⊢
  split at h
  · cases h
  next hreach =>
  rw [if_neg hreach]
  refine ⟨Nat.le_of_not_lt hge, Nat.le_of_not_lt hreach, ?_⟩
  split at h
  · next hprev =>
    rw [if_pos hprev]
    split at h
    · cases h
    next t ht =>
    split at h
    · cases h
    next hsame =>
    rw [if_neg hsame]
    exact haccept _ _ rfl h
  · next hprev =>
    rw [if_neg hprev]
    exact haccept _ _ rfl h

theorem dropWhile_ne_nil {α : Type} {p : α → Bool} {l : List α} (h : l.all p = false) :
    ∃ x xs, l.dropWhile p = x :: xs := by
  induction l with
  | nil => cases h
  | cons a l ih =>
    cases ha : p a with
    | true =>
      rw [List.dropWhile_cons_of_pos ha]
      refine ih ?_
      rwa [List.all_cons, ha, Bool.true_and] at h
    | false => exact ⟨a, l, List.dropWhile_cons_of_neg (by simp [ha])⟩

/-- Nothing is appended and nothing synced, or the new entries are on disk with everything else
    that was pending. -/
theorem storeEntries_ok {s : DiskStorage} {es : List Entry} (h : (Node.storeEntries s es).2 = true) :
    (es.all (Node.alreadyHas s) = true ∧ (Node.storeEntries s es).1 = s) ∨
      (es.all (Node.alreadyHas s) = false ∧
        (Node.storeEntries s es).1.disk.files.unsynced = [] ∧
        hardOf (Node.storeEntries s es).1.disk.files.records = hardOf s.disk.files.records ∧
        ∃ e es', es.dropWhile (Node.alreadyHas s) = e :: es' ∧
          (Node.storeEntries s es).1.log = truncateFrom s.log e.index ++ e :: es') := by
  cases hall : es.all (Node.alreadyHas s) with
  | true =>
    have hnil : es.dropWhile (Node.alreadyHas s) = [] :=
      List.dropWhile_eq_nil_iff.mpr (List.all_eq_true.mp hall)
    refine .inl ⟨rfl, ?_⟩
    simp [Node.storeEntries, hnil]
  | false =>
    obtain ⟨e, es', hdrop⟩ := dropWhile_ne_nil hall
    simp only [Node.storeEntries, hdrop, List.length_cons, gt_iff_lt, Nat.zero_lt_succ,
      if_true] at h ⊢
    obtain ⟨happend, heq⟩ := andThen_ok h
    rw [heq] at h ⊢
    obtain ⟨hlog, hdirty⟩ := appendEntries_ok happend
    rcases sync_ok h with ⟨-, hclean⟩ | hfiles
    · rw [hdirty] at hclean; cases hclean
    refine .inr ⟨trivial, by rw [hfiles]; rfl, ?_, e, es', rfl, ?_⟩
    · rw [hfiles, Files.records_flush]
      exact appendEntries_hardOf (e :: es')
    · rw [sync_log]
      exact hlog

theorem storeEntries_snapIndex (s : DiskStorage) (es : List Entry) :
    (Node.storeEntries s es).1.snapIndex = s.snapIndex := by
  simp only [Node.storeEntries]
  split
  · refine andThen_ind (P := fun s' : DiskStorage => s'.snapIndex = s.snapIndex)
      (appendEntries_head _).snapIndex fun _ => ?_
    exact sync_head.snapIndex.trans (appendEntries_head _).snapIndex
  · rfl

/-! ## What has to be on disk already -/

/-- What the callback of `ReplayWAL` makes of the synced records. -/
def replayed (s : DiskStorage) : DiskStorage :=
  s.disk.files.synced.foldl DiskStorage.replayRecord { conf := s.conf, snapIndex := s.snapIndex }

theorem replayed_eq (s : DiskStorage) :
    ((replayed s).term, (replayed s).votedFor) = hardOf s.disk.files.synced ∧
      (replayed s).log = logOf s.snapIndex s.disk.files.synced := by
  rw [replayed, foldl_replayRecord]
  exact ⟨rfl, rfl⟩

/-- The term and the entries of a request are on disk. -/
def EntriesDurable (s : DiskStorage) (req : AppendEntriesRequest) : Prop :=
  req.term ≤ (replayed s).term ∧ ∀ x ∈ req.entries, s.snapIndex < x.index → x ∈ (replayed s).log

/-- The records that are on disk after the request, apart from the new ones: if there is nothing
    to write, nothing is synced. -/
def Node.covered (n : Node) (req : AppendEntriesRequest) : List WalRecord :=
  if req.term ≤ n.store.term ∧ req.entries.all (alreadyHas n.store) = true then
    n.store.disk.files.synced
  else n.store.disk.files.records

/-- The term of the request is on disk already or its `setHardState` works, as far as nothing
    later syncs it; the entries the node steps over are on disk already. -/
def Node.Backed (n : Node) (req : AppendEntriesRequest) : Prop :=
  (req.term ≤ (hardOf (n.covered req)).1 ∨ n.store.term < req.term ∧
    n.store.disk.faults[0]? ≠ some true ∧ (req.entries.all (alreadyHas n.store) = true →
      n.store.disk.opened = true ∧ n.store.disk.faults[1]? ≠ some true)) ∧
  ∀ x ∈ req.entries.takeWhile (alreadyHas n.store), n.store.snapIndex < x.index →
    x ∈ logOf n.store.snapIndex (n.covered req)

theorem mem_takeWhile_or_dropWhile {α : Type} {p : α → Bool} {l : List α} {x : α} :
    x ∈ l ↔ x ∈ l.takeWhile p ∨ x ∈ l.dropWhile p := by
  rw [← List.mem_append, List.takeWhile_append_dropWhile]

/-- The entries the node steps over come before those it appends. -/
theorem takeWhile_index {prev : Nat} {es es' : List Entry} {e : Entry} {p : Entry → Bool}
    (hc : Chain prev es) (hdrop : es.dropWhile p = e :: es') :
    (∀ x ∈ es.takeWhile p, x.index < e.index) ∧ ∀ x ∈ e :: es', e.index ≤ x.index := by
  have hsplit : es.takeWhile p ++ e :: es' = es := by
    rw [← hdrop]; exact List.takeWhile_append_dropWhile
  rw [← hsplit] at hc
  have hindex : ∀ (k : Nat) x, (e :: es')[k]? = some x →
      x.index = prev + 1 + ((es.takeWhile p).length + k) := by
    intro k x hx
    refine hc _ x ?_
    rw [List.getElem?_append_right (Nat.le_add_right _ _), Nat.add_sub_cancel_left]
    exact hx
  have he := hindex 0 e rfl
  constructor
  · intro x hx
    obtain ⟨k, hk, rfl⟩ := List.getElem_of_mem hx
    have hx' := hc k _ (by rw [List.getElem?_append_left hk]; exact List.getElem?_eq_getElem hk)
    omega
  · intro x hx
    obtain ⟨k, hk, rfl⟩ := List.getElem_of_mem hx
    have hx' := hindex k _ (List.getElem?_eq_getElem hk)
    omega

/-- Which entries of the request are in the log after `storeEntries` appended some of them. -/
theorem stored_entries_iff {s : DiskStorage} {prev : Nat} {es es' : List Entry} {e : Entry}
    (hs : Stored s) (hc : Chain prev es)
    (hdrop : es.dropWhile (Node.alreadyHas s) = e :: es') :
    (∀ x ∈ es, s.snapIndex < x.index → x ∈ truncateFrom s.log e.index ++ e :: es') ↔
      ∀ x ∈ es.takeWhile (Node.alreadyHas s), s.snapIndex < x.index → x ∈ s.log := by
  obtain ⟨hbefore, hafter⟩ := takeWhile_index hc hdrop
  have hcut : ∀ x, x.index < e.index → (x ∈ truncateFrom s.log e.index ↔ x ∈ s.log) := by
    intro x hx
    rw [hs.chain.truncateFrom]
    refine ⟨fun hm => List.mem_of_mem_take hm, fun hm => ?_⟩
    obtain ⟨k, hk, rfl⟩ := List.getElem_of_mem hm
    have hix := hs.chain k _ (List.getElem?_eq_getElem hk)
    exact List.mem_take_iff_getElem.mpr ⟨k, by omega, rfl⟩
  constructor
  · intro h x hx hlt
    rcases List.mem_append.mp (h x (mem_takeWhile_or_dropWhile.mpr (.inl hx)) hlt) with hm | hm
    · exact (hcut x (hbefore x hx)).mp hm
    · exact absurd (hafter x hm) (Nat.not_le_of_lt (hbefore x hx))
  · intro h x hx hlt
    rcases mem_takeWhile_or_dropWhile.mp hx with hx | hx
    · exact List.mem_append_left _ ((hcut x (hbefore x hx)).mpr (h x hx hlt))
    · rw [hdrop] at hx
      exact List.mem_append_right _ hx

theorem entriesDurable_iff {s : DiskStorage} {req : AppendEntriesRequest} :
    EntriesDurable s req ↔ req.term ≤ (hardOf s.disk.files.synced).1 ∧
      ∀ x ∈ req.entries, s.snapIndex < x.index → x ∈ logOf s.snapIndex s.disk.files.synced := by
  obtain ⟨hhard, hlog⟩ := replayed_eq s
  rw [EntriesDurable, hlog, ← hhard]

/-- `setHardState` touches the hard state and the disk. -/
theorem setHardState_rest (s : DiskStorage) (term votedFor : Nat) :
    ∃ d, (s.setHardState term votedFor).1 = { s with disk := d, term := term, votedFor := votedFor } := by
  rw [DiskStorage.setHardState, andThen]
  split
  · exact ⟨_, rfl⟩
  · exact ⟨_, rfl⟩

/-- And so does the acceptance of a leader. -/
theorem follow_rest (n : Node) (term leaderId : Nat) : ∃ d t v, (n.follow term leaderId).store =
    { n.store with disk := d, term := t, votedFor := v } := by
  rw [Node.follow_disk]
  split
  · obtain ⟨d, hd⟩ := setHardState_rest n.store term 0
    exact ⟨d, _, _, hd⟩
  · exact ⟨_, _, _, rfl⟩

section Handler

variable {n : Node} {req : AppendEntriesRequest}

/-- The hard state on disk is not ahead of memory. -/
theorem HardAbove.term_le {b : Nat × Nat} {s : DiskStorage} (h : HardAbove b s) :
    (hardOf s.disk.files.synced).1 ≤ s.term ∧ (hardOf s.disk.files.records).1 ≤ s.term :=
  ⟨Nat.le_trans (h.files.chain _ _ (List.prefix_append _ _) (List.prefix_refl _)).term h.memory.term,
    h.memory.term⟩

/-- Nothing to append: what is on disk is what `follow` leaves there. -/
theorem durable_iff_matched (req : AppendEntriesRequest) (hh : HardAbove (0, 0) n.store)
    (hall : req.entries.all (Node.alreadyHas n.store) = true) :
    EntriesDurable (n.follow req.term req.leaderId).store req ↔ n.Backed req := by
  obtain ⟨hsyn, hrecs⟩ := hh.term_le
  have htake : req.entries.takeWhile (Node.alreadyHas n.store) = req.entries :=
    List.takeWhile_eq_self_iff.mpr (List.all_eq_true.mp hall)
  rw [entriesDurable_iff, Node.follow_disk, Node.Backed, Node.covered, htake]
  by_cases hlt : n.store.term < req.term
  swap
  · have hcov : req.term ≤ n.store.term ∧ req.entries.all (Node.alreadyHas n.store) = true :=
      ⟨Nat.le_of_not_lt hlt, hall⟩
    rw [if_neg hlt, if_pos hcov]
    exact and_congr_left fun _ => ⟨.inl, fun h => h.elim id fun hb => absurd hb.1 hlt⟩
  have hcov : ¬(req.term ≤ n.store.term ∧ req.entries.all (Node.alreadyHas n.store) = true) :=
    fun h => absurd hlt (Nat.not_lt_of_le h.1)
  rw [if_pos hlt, if_neg hcov, setHardState_snapIndex, setHardState_files]
  have hmem : ¬req.term ≤ (hardOf n.store.disk.files.records).1 := by omega
  have hdisk : ¬req.term ≤ (hardOf n.store.disk.files.synced).1 := by omega
  by_cases h0 : n.store.disk.faults[0]? = some true
  · rw [if_pos h0]
    exact ⟨fun h => absurd h.1 hdisk, fun h => h.1.elim (fun h => absurd h hmem)
      fun h => absurd h0 h.2.1⟩
  rw [if_neg h0]
  by_cases h1 : n.store.disk.opened = true ∧ n.store.disk.faults[1]? ≠ some true
  swap
  · rw [if_neg h1]
    exact ⟨fun h => absurd h.1 hdisk, fun h => h.1.elim (fun h => absurd h hmem)
      fun h => absurd (h.2.2 hall) h1⟩
  -- the term is recorded, and with it everything that was pending
  rw [if_pos h1]
  have hflush : ((n.store.disk.files.write (.hardState req.term 0)).flush).synced =
      n.store.disk.files.records ++ [.hardState req.term 0] :=
    (List.append_assoc _ _ _).symm
  rw [hflush, hardOf_append, logOf_append]
  exact and_congr ⟨fun _ => .inr ⟨hlt, h0, fun _ => h1⟩, fun _ => Nat.le_refl _⟩ Iff.rfl

/-- The term that is on disk once everything pending is. -/
theorem term_iff_pending (req : AppendEntriesRequest) (hh : HardAbove (0, 0) n.store) :
    req.term ≤ (hardOf (n.follow req.term req.leaderId).store.disk.files.records).1 ↔
      req.term ≤ (hardOf n.store.disk.files.records).1 ∨
        n.store.term < req.term ∧ n.store.disk.faults[0]? ≠ some true := by
  obtain ⟨-, hrecs⟩ := hh.term_le
  rw [Node.follow_disk]
  by_cases hlt : n.store.term < req.term
  swap
  · rw [if_neg hlt]
    exact ⟨.inl, fun h => h.elim id fun hb => absurd hb.1 hlt⟩
  rw [if_pos hlt, setHardState_files]
  have hmem : ¬req.term ≤ (hardOf n.store.disk.files.records).1 := by omega
  by_cases h0 : n.store.disk.faults[0]? = some true
  · rw [if_pos h0]
    exact ⟨.inl, fun h => h.elim id fun hb => absurd h0 hb.2⟩
  have hnew : hardOf (n.store.disk.files.write (.hardState req.term 0)).records = (req.term, 0) := by
    rw [Files.records_write, hardOf_append]; rfl
  rw [if_neg h0]
  refine ⟨fun _ => .inr ⟨hlt, h0⟩, fun _ => ?_⟩
  split
  · rw [Files.records_flush, hnew]
  · rw [hnew]

/-- **What a successful AppendEntries has on disk**, in terms of the node before it. -/
theorem handleAppendEntries_durable (hs : Kept Stored Recoverable n.store)
    (hh : HardAbove (0, 0) n.store) (hc : Chain req.prevLogIndex req.entries)
    (hok : (n.handleAppendEntries req).2.success = true) :
    EntriesDurable (n.handleAppendEntries req).1.store req ↔ n.Backed req := by
  obtain ⟨-, -, hstored, hstore⟩ := handleAppendEntries_success hok
  have hkeep : Kept Stored Recoverable (n.handleAppendEntries req).1.store :=
    (Node.handleAppendEntries_store req).keep hs fun hstep hs => hstep.stored
      (fun r hr => by obtain rfl := NodeOp.handle.inj hr; exact hc) hs
  have hfollow : Stored (n.follow req.term req.leaderId).store :=
    ((Node.follow_store (.handle (.appendEntries req)) req.term req.leaderId).keep hs fun hstep hs =>
      hstep.stored (fun r hr => by obtain rfl := NodeOp.handle.inj hr; exact hc) hs).1
  have hterm := term_iff_pending req hh
  have hmatched := durable_iff_matched req hh
  obtain ⟨d, t, v, hsame⟩ := follow_rest n req.term req.leaderId
  have halready : Node.alreadyHas (n.follow req.term req.leaderId).store =
      Node.alreadyHas n.store := by rw [hsame]; rfl
  rw [hstore] at hkeep ⊢
  rcases storeEntries_ok hstored with ⟨hall, hquiet⟩ | ⟨hall, huns, hhard, e, es', hdrop, hlog⟩
  · rw [hquiet]
    exact hmatched (halready ▸ hall)
  -- everything is synced, so the log on disk is the one in memory
  have hrecs : (Node.storeEntries (n.follow req.term req.leaderId).store req.entries).1.disk.files.synced
      = (Node.storeEntries (n.follow req.term req.leaderId).store req.entries).1.disk.files.records := by
    rw [Files.records, huns, List.append_nil]
  have hsnap : (Node.storeEntries (n.follow req.term req.leaderId).store req.entries).1.snapIndex =
      (n.follow req.term req.leaderId).store.snapIndex := storeEntries_snapIndex _ _
  have hentries := stored_entries_iff hfollow hc hdrop
  have hmem : (n.follow req.term req.leaderId).store.log =
      logOf n.store.snapIndex n.store.disk.files.records := by rw [hsame]; exact hs.1.log
  have hbase : (n.follow req.term req.leaderId).store.snapIndex = n.store.snapIndex := by rw [hsame]
  have hcov : ¬(req.term ≤ n.store.term ∧ req.entries.all (Node.alreadyHas n.store) = true) := by
    rw [← halready, hall]
    exact fun h => absurd h.2 Bool.false_ne_true
  rw [entriesDurable_iff, hrecs, ← hkeep.1.log, hhard, hsnap, hlog, hentries, hterm, hmem, hbase,
    halready, Node.Backed, Node.covered, if_neg hcov]
  refine and_congr_left fun _ => or_congr Iff.rfl (and_congr_right fun _ => ?_)
  rw [← halready, hall]
  exact ⟨fun h => ⟨h, by simp⟩, fun h => h.1⟩

end Handler

/-! ## Commits -/

/-- `commitIndex` goes up only behind a successful `sync`. -/
theorem advanceCommitLocked_synced {n : Node}
    (h : n.commitIndex < n.advanceCommitLocked.commitIndex) :
    n.store.sync.2 = true ∧ n.advanceCommitLocked.store = n.store.sync.1 := by
  unfold Node.advanceCommitLocked at h ⊢
  dsimp only at h ⊢
  split at h
  · exact absurd h (Nat.lt_irrefl _)
  next hmajority =>
  split at h
  · exact absurd h (Nat.lt_irrefl _)
  next hok =>
  rw [if_neg hmajority, if_neg hok]
  refine ⟨by simpa using hok, ?_⟩
  split
  · rfl
  · split <;> rfl

theorem onAppendReply_synced {n : Node} {peer : Nat} {req : AppendEntriesRequest}
    {resp : AppendEntriesResponse} (h : n.commitIndex < (n.onAppendReply peer req resp).commitIndex) :
    n.role = .leader ∧ n.store.sync.2 = true ∧
      (n.onAppendReply peer req resp).store = n.store.sync.1 := by
  unfold Node.onAppendReply at h ⊢
  split at h
  · next hlater =>
    rw [Node.stepDownLocked] at h
    split at h <;> exact absurd h (Nat.lt_irrefl _)
  next hlater =>
  split at h
  · exact absurd h (Nat.lt_irrefl _)
  next hcurrent =>
  split at h
  swap
  · -- only a success moves `commitIndex`
    split at h
    · exact absurd h (Nat.lt_irrefl _)
    split at h
    · exact absurd h (Nat.lt_irrefl _)
    split at h <;> exact absurd h (Nat.lt_irrefl _)
  next hsuccess =>
  rw [if_neg hlater, if_neg hcurrent, if_pos hsuccess]
  have hadvance := advanceCommitLocked_synced
    (n := n.recordMatch peer (req.prevLogIndex + req.entries.length)) h
  exact ⟨by simpa using fun hrole => hcurrent (.inl hrole), hadvance⟩

/-- After a successful `sync` the log is on disk, if the flag can be trusted. -/
theorem sync_durable {s : DiskStorage} (hs : Stored s) (hd : DirtyOk s) (hok : s.sync.2 = true) :
    (replayed s.sync.1).log = s.sync.1.log := by
  rw [(replayed_eq _).2, sync_log, hs.log, sync_head.snapIndex]
  rcases sync_ok hok with ⟨hsame, hclean⟩ | hfiles
  · rw [hsame, Files.records]
    rcases hd with hd | hd
    · rw [hd] at hclean; cases hclean
    · exact (logOf_others _ _ hd).symm
  · rw [hfiles]
    rfl

/-! ## Runs -/

/-- What a section that takes node `n` to `m` has to have on disk: a granted vote, the entries of
    an accepted AppendEntries and, when a leader commits, its log. -/
structure Durable (n : Node) (op : NodeOp) (m : Node) (eff : Effect) : Prop where
  vote : ∀ req resp, op = .handle (.requestVote req) → eff.resp = some (.requestVote resp) →
    resp.voteGranted = true → (replayed m.store).term = req.term ∧
      (replayed m.store).votedFor = req.candidateId
  entries : ∀ req resp, op = .handle (.appendEntries req) →
    eff.resp = some (.appendEntries resp) → resp.success = true → EntriesDurable m.store req
  commit : ∀ peer req resp, op = .reply peer (.appendEntries req) (.appendEntries resp) →
    n.commitIndex < m.commitIndex → ∀ x ∈ m.store.log, x.index ≤ m.commitIndex →
      x ∈ (replayed m.store).log

theorem exec_durable {n m : Node} {faults : List Bool} {op : NodeOp} {eff : Effect}
    (hex : (n.withFaults faults).exec op = some (m, eff)) (hs : Stored n.store)
    (hh : HardAbove (0, 0) n.store) (hd : n.role = .leader → DirtyOk n.store)
    (hreq : ∀ req, op = .handle req → ChainedRequest req) :
    Durable n op m eff ↔ ∀ req resp, op = .handle (.appendEntries req) →
      eff.resp = some (.appendEntries resp) → resp.success = true →
      (n.withFaults faults).Backed req := by
  have hkept := stored_withFaults hs faults
  have hlock := Node.exec_unlocked hex
  have hentries : ∀ req resp, op = .handle (.appendEntries req) →
      eff.resp = some (.appendEntries resp) → resp.success = true →
      (EntriesDurable m.store req ↔ (n.withFaults faults).Backed req) := by
    rintro req resp rfl hresp hok
    simp only [Node.exec, hlock, Bool.false_eq_true, if_false] at hex
    obtain ⟨rfl, rfl⟩ := Prod.mk.inj (Option.some.inj hex)
    obtain rfl := Response.appendEntries.inj (Option.some.inj hresp)
    exact handleAppendEntries_durable hkept (hard_withFaults hh faults).1 (hreq _ rfl) hok
  constructor
  · intro h req resp hop hresp hok
    exact (hentries req resp hop hresp hok).mp (h.entries req resp hop hresp hok)
  intro h
  refine ⟨?_, fun req resp hop hresp hok =>
    (hentries req resp hop hresp hok).mpr (h req resp hop hresp hok), ?_⟩
  · rintro req resp rfl hresp hgranted
    simp only [Node.exec, hlock, Bool.false_eq_true, if_false] at hex
    obtain ⟨rfl, rfl⟩ := Prod.mk.inj (Option.some.inj hex)
    obtain rfl := Response.requestVote.inj (Option.some.inj hresp)
    have hdisk := (replayed_eq _).1.trans (handleRequestVote_durable hgranted)
    exact Prod.mk.inj hdisk
  · rintro peer req resp rfl hraise x hx -
    simp only [Node.exec, hlock, Bool.false_eq_true, if_false, Node.onReply] at hex
    obtain ⟨rfl, -⟩ := Prod.mk.inj (Option.some.inj hex)
    obtain ⟨hrole, hok, hstore⟩ := onAppendReply_synced (n := n.withFaults faults) hraise
    rw [hstore] at hx ⊢
    rw [sync_durable hkept.1 (hd hrole) hok]
    exact hx

/-- **What is on disk when a node answers.** In every run, with any failures, a section has on disk
    what its answer says unless it accepts an AppendEntries request that is not `Backed`. -/
theorem answers_are_durable (cfg : Config) (σ : Nat → Cluster) (α : Nat → Option Action)
    (hrun : IsRun (Cluster.step cfg) (Cluster.init cfg) σ α) (k i : Nat) (e : Event)
    (faults : List Bool) (op : NodeOp) (m : Node) (eff : Effect)
    (action : α k = some (.run e faults)) (runs : (σ k).resolve e = some (i, op))
    (hex : (((σ k).node i).withFaults faults).exec op = some (m, eff)) :
    (σ (k + 1)).node i = m ∧
      (Durable ((σ k).node i) op m eff ↔ ∀ req resp, op = .handle (.appendEntries req) →
        eff.resp = some (.appendEntries resp) → resp.success = true →
        (((σ k).node i).withFaults faults).Backed req) := by
  have hall := (dirtyRule cfg).run hrun (fun _ _ _ _ _ _ _ _ _ => trivial) k
  have hhard := (hardRule cfg).run hrun (fun _ _ _ _ _ _ _ _ _ => trivial) k
  constructor
  · obtain ⟨j, n, eff', ho, hnext⟩ := step_run (hrun.next k _ action)
    obtain ⟨op', hres, -, hex'⟩ := outcome_some ho
    obtain ⟨rfl, rfl⟩ := Prod.mk.inj (Option.some.inj (runs.symm.trans hres))
    obtain ⟨rfl, rfl⟩ := Prod.mk.inj (Option.some.inj (hex.symm.trans hex'))
    rw [hnext, node_finishSection, if_pos rfl]
  · refine exec_durable hex (hall.node i).1.2 (hhard.node i) (hall.node i).2 ?_
    rintro req rfl
    obtain ⟨source, hreq⟩ := hall.op runs
    exact hreq

/-- The AppendEntries request of node 1 to node 2 in `firstTerm`. -/
def firstAppend : AppendEntriesRequest :=
  { term := 1, leaderId := 1, prevLogIndex := 0, prevLogTerm := 0,
    entries := [{ term := 1, index := 1 }], leaderCommit := 0 }

theorem answers_are_durable_first : ∃ m eff,
    (stateAt firstTerm 4).node 2 = m ∧
      Durable ((stateAt firstTerm 3).node 2) (.handle (.appendEntries firstAppend)) m eff := by
  obtain ⟨⟨m, eff⟩, hex⟩ : ∃ r, (((stateAt firstTerm 3).node 2).withFaults []).exec
      (.handle (.appendEntries firstAppend)) = some r :=
    Option.isSome_iff_exists.mp (by decide +kernel)
  obtain ⟨hnode, hiff⟩ := answers_are_durable threeNodes (stateAt firstTerm) (fun k => firstTerm[k]?)
    (isRun_stateAt (by decide +kernel)) 3 2 (.deliver 2) [] _ m eff rfl rfl hex
  refine ⟨m, eff, hnode, hiff.mpr fun req resp hop _ _ => ?_⟩
  obtain rfl := Request.appendEntries.inj (NodeOp.handle.inj hop)
  exact ⟨.inl (by decide +kernel), by decide +kernel⟩

/-- Node 3 writes the entry of node 1, but the fsync fails and it says so. The request is delivered
    again. -/
def failedSync : List Action :=
  firstTerm ++ [.run (.deliver 3) [false, false, false, true], sec (.deliver 3)]

/-- **A retry acknowledges what was never synced.** The entry is in memory, so the second delivery
    has nothing to append and does not sync. -/
theorem retry_acknowledges_unsynced :
    IsRun (Cluster.step threeNodes) (Cluster.init threeNodes) (stateAt failedSync)
      (fun k => failedSync[k]?) ∧
    failedSync[7]? = some (sec (.deliver 3)) ∧
    (stateAt failedSync 8).calls[3]?.map (fun call => (call.dest, call.req, call.replies)) =
      some (3, .appendEntries firstAppend,
        [.appendEntries { term := 1, success := false },
          .appendEntries { term := 1, success := true }]) ∧
    ((stateAt failedSync 8).node 3).store.snapIndex = 0 ∧
    (replayed ((stateAt failedSync 8).node 3).store).log = [] :=
  ⟨isRun_stateAt (by decide +kernel), rfl, by decide +kernel, by decide +kernel, by decide +kernel⟩

end Raft
end DistKV
