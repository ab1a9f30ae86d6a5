import DistKV.Raft.Clean
import DistKV.Raft.View

/-!
# The storage calls, seen from the abstract log

A storage call takes the files through several states, and a crash may find any of them, with any
number of the unsynced records. `CrashProof R` says that `R` holds of the storage in memory and of
each of these outcomes, and there is one rule for each call: `R` has to hold of what the call leaves
in memory and of every prefix of the records it writes.

The abstract log is one such `R`: `CrashSafe` says that each outcome is one the abstract node could
have reached by steps of its own, and `Tracks` adds the abstract state that belongs to the storage in
memory.
-/

namespace DistKV
namespace Raft

/-! ## The view of a clean storage -/

section Clean

variable {peers : List Nat} {s : DiskStorage}

/-- What would be recovered from the synced records and others about the log. -/
theorem Clean.view_logs (h : Clean peers s) {tail : List WalRecord} (htail : ∀ r ∈ tail, r.IsLog) :
    s.disk.files.view (s.disk.files.synced ++ tail) =
      { s.view with log := logOf s.snapIndex (s.disk.files.synced ++ tail) } := by
  rw [Files.view, hardOf_logs _ htail, h.hard, h.files_snapIndex, h.files_snapTerm]

theorem Clean.view_cut (h : Clean peers s) {p : List WalRecord}
    (hs : s.disk.files.synced <+: p) (hp : p <+: s.disk.files.records) :
    s.disk.files.view p = { s.view with log := logOf s.snapIndex p } := by
  obtain ⟨tail, rfl⟩ := hs
  exact h.view_logs fun r hr => h.tail r (((List.prefix_append_right_inj _).mp hp).subset hr)

theorem Clean.view_records (h : Clean peers s) :
    s.disk.files.view s.disk.files.records = s.view := by
  have hsynced : s.disk.files.synced <+: s.disk.files.records := List.prefix_append _ _
  rw [h.view_cut hsynced (List.prefix_refl _), ← h.stored.log]

theorem Clean.log_records (h : Clean peers s) :
    logOf s.disk.files.snapIndex s.disk.files.records = s.log := by
  rw [h.files_snapIndex, ← h.stored.log]

/-! ### What each call leaves in memory -/

theorem Clean.setHardState_view (h : Clean peers s) (term votedFor : Nat) :
    (s.setHardState term votedFor).1.view = { s.view with term := term, votedFor := votedFor } := by
  rw [DiskStorage.setHardState_calm h.calm]
  rfl

theorem Clean.setConfState_view (h : Clean peers s) (c : ConfState) :
    (s.setConfState c).1.view = s.view := by
  rw [DiskStorage.setConfState_calm h.calm]
  rfl

theorem Clean.sync_view (h : Clean peers s) : s.sync.1.view = s.view := by
  rw [DiskStorage.sync_calm h.calm]
  cases s.dirty <;> rfl

theorem Clean.appendEntries_view (h : Clean peers s) (e : Entry) (es : List Entry) :
    (s.appendEntries (e :: es)).1.view =
      { s.view with log := truncateFrom s.log e.index ++ e :: es } := by
  rw [DiskStorage.appendEntries_calm h.calm]
  rfl

theorem Clean.saveSnapshot_view (h : Clean peers s) {index : Nat} (hlt : s.snapIndex < index)
    (term : Nat) (data : Bytes) (conf : ConfState) :
    (s.saveSnapshot index term data conf).1.view =
      { s.view with
        snapIndex := index, snapTerm := term, log := s.log.drop (index - s.snapIndex) } := by
  rw [DiskStorage.saveSnapshot_calm h.calm hlt, ← h.stored.chain.filter (Nat.le_of_lt hlt)]
  rfl

end Clean

/-! ## Crashes -/

/-- Whatever a crash keeps of the unsynced records, `R` holds of what would be recovered. -/
def Files.AfterCrash (R : View → Prop) (f : Files) : Prop :=
  ∀ p, f.synced <+: p → p <+: f.records → R (f.view p)

/-- `R` holds of a clean storage, and of everything a crash since the start of the section can have
    left. -/
structure CrashProof (R : View → Prop) (peers : List Nat) (s : DiskStorage) : Prop where
  clean : Kept (Clean peers) CleanFiles s
  view : R s.view
  files : s.disk.files.AfterCrash R
  trail : ∀ f ∈ s.disk.trail, f.AfterCrash R

section CrashProof

variable {R : View → Prop} {peers : List Nat} {s s' : DiskStorage}

/-- With everything synced there is one outcome. -/
theorem Files.eq_records {f : Files} (hu : f.unsynced = []) {p : List WalRecord}
    (hs : f.synced <+: p) (hp : p <+: f.records) : p = f.records := by
  rw [Files.records, hu, List.append_nil] at hp ⊢
  exact (hs.eq_of_length_le hp.length_le).symm

/-- Nothing is left to lose. -/
theorem Files.afterCrash_synced {f : Files} (hu : f.unsynced = []) (h : R (f.view f.records)) :
    f.AfterCrash R := by
  intro p hs hp
  rw [Files.eq_records hu hs hp]
  exact h

/-- The recovery that follows the crash. -/
theorem Files.AfterCrash.recover {f : Files} (h : f.AfterCrash R) {keep : Nat}
    (ho : DiskStorage.openDiskStorage (f.crash keep) peers = some s) : R s.view := by
  have hr := recovered_of_open ho
  have hview : s.view = f.view (f.crash keep).synced := by
    show (⟨s.term, s.votedFor, s.snapIndex, s.snapTerm, s.log⟩ : View) = _
    rw [hr.term, hr.votedFor, hr.snapIndex, hr.snapTerm, hr.log]
    rfl
  rw [hview]
  exact h _ (List.prefix_append _ _) (f.crash_synced keep)

theorem CrashProof.puts (h : CrashProof R peers s) {fs : List Files}
    (hclean : Kept (Clean peers) CleanFiles s') (hview : R s'.view)
    (hdisk : s'.disk = s.disk.puts fs) (hfs : ∀ f ∈ fs, f.AfterCrash R) :
    CrashProof R peers s' := by
  refine ⟨hclean, hview, ?_, ?_⟩
  · rw [hdisk]
    simp only [Disk.puts]
    cases hl : fs.getLast? with
    | none => exact h.files
    | some f => exact hfs f (List.mem_of_getLast? hl)
  · intro f hf
    rw [hdisk] at hf
    rcases List.mem_append.mp hf with hf | hf
    · exact h.trail f hf
    · exact hfs f hf

/-- A record that is synced at once. -/
theorem CrashProof.record (h : CrashProof R peers s) {r : WalRecord}
    (hclean : Kept (Clean peers) CleanFiles s')
    (hdisk : s'.disk = s.disk.puts [s.disk.files.write r, (s.disk.files.write r).flush])
    (hrecord : s.disk.files.view (s.disk.files.records ++ [r]) = s'.view) (hview : R s'.view) :
    CrashProof R peers s' := by
  refine h.puts hclean hview hdisk fun f hf => ?_
  rw [← hrecord] at hview
  rcases List.mem_cons.mp hf with rfl | hf
  · intro p hs hp
    rw [Files.records_write] at hp
    rcases List.prefix_concat_iff.mp hp with rfl | hp
    · exact hview
    · exact h.files p hs hp
  · rw [List.mem_singleton.mp hf]
    refine Files.afterCrash_synced rfl ?_
    rw [Files.records_flush, Files.records_write]
    exact hview

theorem CrashProof.setHardState (h : CrashProof R peers s) {term votedFor : Nat}
    (hclean : Kept (Clean peers) CleanFiles (s.setHardState term votedFor).1)
    (hview : R { s.view with term := term, votedFor := votedFor }) :
    CrashProof R peers (s.setHardState term votedFor).1 := by
  have hc := h.clean.1
  rw [← hc.setHardState_view] at hview
  rw [DiskStorage.setHardState_calm hc.calm] at hclean hview ⊢
  refine h.record hclean rfl ?_ hview
  rw [Files.view, hardOf_append, logOf_append, hc.log_records, hc.files_snapIndex,
    hc.files_snapTerm]
  rfl

/-- A configuration in the WAL says nothing about the log. -/
theorem CrashProof.setConfState (h : CrashProof R peers s) {c : ConfState}
    (hclean : Kept (Clean peers) CleanFiles (s.setConfState c).1) :
    CrashProof R peers (s.setConfState c).1 := by
  have hc := h.clean.1
  have hview := h.view
  rw [← hc.setConfState_view c] at hview
  rw [DiskStorage.setConfState_calm hc.calm] at hclean hview ⊢
  refine h.record hclean rfl ?_ hview
  have hhard : hardOf s.disk.files.records = (s.term, s.votedFor) :=
    Prod.ext (congrArg View.term hc.view_records) (congrArg View.votedFor hc.view_records)
  rw [Files.view, hardOf_append, logOf_append, hc.log_records, hc.files_snapIndex,
    hc.files_snapTerm, hhard]
  rfl

theorem CrashProof.sync (h : CrashProof R peers s)
    (hclean : Kept (Clean peers) CleanFiles s.sync.1) : CrashProof R peers s.sync.1 := by
  have hc := h.clean.1
  rw [DiskStorage.sync_calm hc.calm] at hclean ⊢
  simp only at hclean ⊢
  split
  swap
  · exact h
  next hd =>
  rw [if_pos hd] at hclean
  refine h.puts hclean h.view rfl ?_
  intro f hf
  rw [List.mem_singleton.mp hf]
  refine Files.afterCrash_synced rfl ?_
  rw [Files.records_flush]
  have hview := hc.view_records
  exact hview ▸ h.view

/-! ### `appendEntries` -/

theorem prefix_append_cases {α : Type} {l l₁ l₂ : List α} (h : l <+: l₁ ++ l₂) :
    l <+: l₁ ∨ ∃ l', l = l₁ ++ l' ∧ l' <+: l₂ := by
  rcases List.prefix_or_prefix_of_prefix h (List.prefix_append l₁ l₂) with hle | ⟨l', rfl⟩
  · exact .inl hle
  · exact .inr ⟨l', rfl, (List.prefix_append_right_inj _).mp h⟩

theorem truncation_length (s : DiskStorage) (first : Nat) : (s.truncation first).length ≤ 1 := by
  rw [DiskStorage.truncation]
  split
  · split <;> simp
  · simp

theorem logOf_entries {b : Nat} (recs : List WalRecord) {es : List Entry}
    (h : ∀ e ∈ es, b < e.index) : logOf b (recs ++ es.map .append) = logOf b recs ++ es := by
  induction es using List.reverseRecOn with
  | nil => simp
  | append_singleton es e ih =>
    have he : e.index > b := h e (by simp)
    rw [List.map_append, List.map_singleton, ← List.append_assoc, logOf_append,
      ih fun x hx => h x (List.mem_append_left _ hx), replayLog, if_pos he, List.append_assoc]

theorem logOf_truncation (hs : Stored s) (first : Nat) :
    logOf s.snapIndex (s.disk.files.records ++ s.truncation first) = truncateFrom s.log first := by
  rw [DiskStorage.truncation]
  have hkeep : truncateFrom s.log first = s.log →
      logOf s.snapIndex (s.disk.files.records ++ []) = truncateFrom s.log first := by
    intro heq
    rw [List.append_nil, ← hs.log, heq]
  split
  · next x hx =>
    split
    · rw [logOf_append, ← hs.log]
      rfl
    · next hlt =>
      refine hkeep (DiskStorage.truncateFrom_self fun y hy => ?_)
      rw [hx, Option.some.injEq] at hy
      rw [← hy]
      exact Nat.lt_of_not_le hlt
  · next hnone =>
    refine hkeep (DiskStorage.truncateFrom_self fun y hy => ?_)
    rw [hnone] at hy
    cases hy

/-- The log after each of the records `appendEntries` writes. -/
theorem logOf_appendRecords (hs : Stored s) {e : Entry} {es : List Entry}
    (above : ∀ x ∈ e :: es, s.snapIndex < x.index) {rs : List WalRecord}
    (hrs : rs <+: s.appendRecords e es) :
    rs = [] ∨ ∃ j, logOf s.snapIndex (s.disk.files.records ++ rs) =
      truncateFrom s.log e.index ++ (e :: es).take j := by
  have htake : ∀ j, logOf s.snapIndex
      (s.disk.files.records ++ (s.truncation e.index ++ ((e :: es).take j).map .append)) =
      truncateFrom s.log e.index ++ (e :: es).take j := by
    intro j
    rw [← List.append_assoc, logOf_entries _ fun x hx => above x (List.mem_of_mem_take hx),
      logOf_truncation hs]
  rcases prefix_append_cases hrs with hrs | ⟨rest, rfl, hrest⟩
  · rcases Nat.eq_zero_or_pos rs.length with hnil | hpos
    · exact .inl (List.length_eq_zero_iff.mp hnil)
    · obtain rfl := hrs.eq_of_length_le (Nat.le_trans (truncation_length s e.index) hpos)
      exact .inr ⟨0, by simpa using htake 0⟩
  · obtain ⟨xs, hxs, rfl⟩ := List.prefix_map_iff.mp hrest
    obtain ⟨j, rfl⟩ : ∃ j, xs = (e :: es).take j := ⟨_, List.prefix_iff_eq_take.mp hxs⟩
    exact .inr ⟨j, htake j⟩

theorem appendRecords_isLog {e : Entry} {es : List Entry} :
    ∀ r ∈ s.appendRecords e es, r.IsLog := by
  intro r hr
  rcases List.mem_append.mp hr with hr | hr
  · exact truncation_isLog s _ r hr
  · exact isLog_map_append r hr

/-- Each entry goes to the WAL and to the slice, so the log changes with every record. -/
theorem CrashProof.appendEntries (h : CrashProof R peers s) {e : Entry} {es : List Entry}
    (hclean : Kept (Clean peers) CleanFiles (s.appendEntries (e :: es)).1)
    (above : ∀ x ∈ e :: es, s.snapIndex < x.index)
    (hcut : ∀ j, R { s.view with log := truncateFrom s.log e.index ++ (e :: es).take j }) :
    CrashProof R peers (s.appendEntries (e :: es)).1 := by
  have hc := h.clean.1
  have hall := hcut (e :: es).length
  rw [List.take_length, ← hc.appendEntries_view] at hall
  rw [DiskStorage.appendEntries_calm hc.calm] at hclean hall ⊢
  refine h.puts hclean hall rfl ?_
  intro f hf p hs hp
  obtain ⟨n, rfl⟩ := Files.mem_writes hf
  have hrecords : p <+: s.disk.files.records ++ (s.appendRecords e es).take n := by
    rwa [Files.records, Files.writeAll, ← List.append_assoc] at hp
  rcases prefix_append_cases hrecords with hold | ⟨rs, rfl, hrs⟩
  · exact h.files p hs hold
  have hview : s.disk.files.view (s.disk.files.records ++ rs) =
      { s.view with log := logOf s.snapIndex (s.disk.files.records ++ rs) } := by
    rw [Files.records, List.append_assoc]
    refine hc.view_logs fun r hr => ?_
    rcases List.mem_append.mp hr with hr | hr
    · exact hc.tail r hr
    · exact appendRecords_isLog _ (List.mem_of_mem_take (hrs.subset hr))
  show R (s.disk.files.view (s.disk.files.records ++ rs))
  rw [hview]
  rcases logOf_appendRecords hc.stored above (hrs.trans (List.take_prefix _ _)) with rfl | ⟨j, hj⟩
  · rw [List.append_nil, ← hc.stored.log]
    exact h.view
  · rw [hj]
    exact hcut j

/-! ### `saveSnapshot` -/

/-- The snapshot takes effect with `snapshot.meta`, over whatever of the old WAL survives, and the
    new WAL replays to the same. -/
theorem CrashProof.saveSnapshot (h : CrashProof R peers s) {index term : Nat} {data : Bytes}
    {conf : ConfState} (hlt : s.snapIndex < index)
    (hclean : Kept (Clean peers) CleanFiles (s.saveSnapshot index term data conf).1)
    (hcut : ∀ p, s.disk.files.synced <+: p → p <+: s.disk.files.records →
      R { s.view with
        snapIndex := index, snapTerm := term
        log := (logOf s.snapIndex p).drop (index - s.snapIndex) }) :
    CrashProof R peers (s.saveSnapshot index term data conf).1 := by
  have hc := h.clean.1
  have hle := Nat.le_of_lt hlt
  have hall := hcut s.disk.files.records (List.prefix_append _ _) (List.prefix_refl _)
  rw [← hc.stored.log] at hall
  have hfinal := hall
  rw [← hc.saveSnapshot_view hlt term data conf] at hfinal
  rw [DiskStorage.saveSnapshot_calm hc.calm hlt] at hclean hfinal ⊢
  have hlog : s.log.filter (fun e => decide (e.index > index)) =
      s.log.drop (index - s.snapIndex) := hc.stored.chain.filter hle
  -- the view of the old WAL next to the new snapshot
  have hover : ∀ p, s.disk.files.synced <+: p → p <+: s.disk.files.records →
      (s.disk.files.withMeta data index term).view p =
        { s.view with
          snapIndex := index, snapTerm := term
          log := (logOf s.snapIndex p).drop (index - s.snapIndex) } := by
    intro p hs hp
    have hwal := hc.stored.wal.restrict hp
    have hold := hc.view_cut hs hp
    have hhard : hardOf p = (s.term, s.votedFor) :=
      Prod.ext (congrArg View.term hold) (congrArg View.votedFor hold)
    rw [← hwal.chain.filter hle, ← logOf_filter hle hwal]
    show (⟨(hardOf p).1, (hardOf p).2, index, term, logOf index p⟩ : View) = _
    rw [hhard]
  -- and that of the new WAL
  have hnew : ∀ recs, recs = WalRecord.hardState s.term s.votedFor :: .confState conf ::
      (s.log.drop (index - s.snapIndex)).map .append →
      (⟨(hardOf recs).1, (hardOf recs).2, index, term, logOf index recs⟩ : View) =
        { s.view with
          snapIndex := index, snapTerm := term, log := s.log.drop (index - s.snapIndex) } := by
    rintro recs rfl
    have habove : ∀ e ∈ s.log.drop (index - s.snapIndex), index < e.index := by
      rw [← hlog]
      intro e he
      simpa using (List.mem_filter.mp he).2
    have hhard := hardOf_logs [.hardState s.term s.votedFor, .confState conf]
      (@isLog_map_append (s.log.drop (index - s.snapIndex)))
    have hlogs := logOf_entries [.hardState s.term s.votedFor, .confState conf] habove
    simp only [List.cons_append, List.nil_append] at hhard hlogs
    rw [hhard, hlogs]
    rfl
  have hmeta : ∀ p, s.disk.files.synced <+: p → p <+: s.disk.files.records →
      R ((s.disk.files.withMeta data index term).view p) := by
    intro p hs hp
    rw [hover p hs hp]
    exact hcut p hs hp
  refine h.puts hclean hfinal rfl ?_
  intro f hf
  simp only [DiskStorage.snapshotStates, List.mem_cons, List.not_mem_nil, or_false] at hf
  rcases hf with rfl | rfl | rfl | rfl | rfl
  · exact h.files
  · exact hmeta
  · exact hmeta
  · -- the old WAL is synced when it is closed
    have hclosed := hmeta _ (List.prefix_append _ _) (List.prefix_refl _)
    exact Files.afterCrash_synced rfl (by rw [Files.records_flush]; exact hclosed)
  · refine Files.afterCrash_synced rfl ?_
    rw [Files.records, List.append_nil, hlog]
    rw [← hnew _ rfl] at hall
    exact hall

end CrashProof

/-! ## The abstract log -/

/-- Whatever a crash keeps of the unsynced records, the node can have got there by steps. -/
def CrashSafe (q : Prop) (G : GhostGuard) (a : Ghost) (i : Nat) (f : Files) : Prop :=
  ∀ p, f.synced <+: p → p <+: f.records → ∃ a', GhostSteps G i a a' ∧ Rel q a' i (f.view p)

structure Tracks (q : Prop) (G : GhostGuard) (peers : List Nat) (a₀ a : Ghost) (i : Nat)
    (s : DiskStorage) : Prop where
  clean : Kept (Clean peers) CleanFiles s
  steps : GhostSteps G i a₀ a
  rel : Rel q a i s.view
  files : CrashSafe q G a₀ i s.disk.files
  trail : ∀ f ∈ s.disk.trail, CrashSafe q G a₀ i f

section Tracks

variable {q : Prop} {G : GhostGuard} {peers : List Nat} {a₀ a a' : Ghost} {i : Nat}
  {s : DiskStorage}

theorem Tracks.crashProof (h : Tracks q G peers a₀ a i s) :
    CrashProof (fun v => ∃ b, GhostSteps G i a₀ b ∧ Rel q b i v) peers s :=
  ⟨h.clean, ⟨a, h.steps, h.rel⟩, h.files, h.trail⟩

theorem CrashProof.tracks
    (h : CrashProof (fun v => ∃ b, GhostSteps G i a₀ b ∧ Rel q b i v) peers s)
    (hsteps : GhostSteps G i a₀ a) (hrel : Rel q a i s.view) : Tracks q G peers a₀ a i s :=
  ⟨h.clean, hsteps, hrel, h.files, h.trail⟩

/-- Abstract steps that change nothing in the storage. -/
theorem Tracks.idle (h : Tracks q G peers a₀ a i s) (hsteps : GhostSteps G i a a')
    (hrel : Rel q a' i s.view) : Tracks q G peers a₀ a' i s :=
  h.crashProof.tracks (h.steps.trans hsteps) hrel

theorem Tracks.setHardState (h : Tracks q G peers a₀ a i s) {term votedFor : Nat}
    (hclean : Kept (Clean peers) CleanFiles (s.setHardState term votedFor).1)
    (hsteps : GhostSteps G i a a')
    (hrel : Rel q a' i { s.view with term := term, votedFor := votedFor }) :
    Tracks q G peers a₀ a' i (s.setHardState term votedFor).1 := by
  have hall := h.steps.trans hsteps
  refine (h.crashProof.setHardState hclean ⟨a', hall, hrel⟩).tracks hall ?_
  rw [h.clean.1.setHardState_view]
  exact hrel

theorem Tracks.setConfState (h : Tracks q G peers a₀ a i s) {c : ConfState}
    (hclean : Kept (Clean peers) CleanFiles (s.setConfState c).1) :
    Tracks q G peers a₀ a i (s.setConfState c).1 := by
  refine (h.crashProof.setConfState hclean).tracks h.steps ?_
  rw [h.clean.1.setConfState_view]
  exact h.rel

theorem Tracks.sync (h : Tracks q G peers a₀ a i s)
    (hclean : Kept (Clean peers) CleanFiles s.sync.1) : Tracks q G peers a₀ a i s.sync.1 := by
  refine (h.crashProof.sync hclean).tracks h.steps ?_
  rw [h.clean.1.sync_view]
  exact h.rel

/-- Abstractly the log changes with every record. -/
theorem Tracks.appendEntries (h : Tracks q G peers a₀ a i s) {e : Entry} {es : List Entry}
    (hclean : Kept (Clean peers) CleanFiles (s.appendEntries (e :: es)).1)
    (above : ∀ x ∈ e :: es, s.snapIndex < x.index)
    (hcut : ∀ j, ∃ b, GhostSteps G i a b ∧
      Rel q b i { s.view with log := truncateFrom s.log e.index ++ (e :: es).take j })
    (hsteps : GhostSteps G i a a')
    (hrel : Rel q a' i { s.view with log := truncateFrom s.log e.index ++ e :: es }) :
    Tracks q G peers a₀ a' i (s.appendEntries (e :: es)).1 := by
  refine (h.crashProof.appendEntries hclean above fun j => ?_).tracks (h.steps.trans hsteps) ?_
  · obtain ⟨b, hb, hrelb⟩ := hcut j
    exact ⟨b, h.steps.trans hb, hrelb⟩
  · rw [h.clean.1.appendEntries_view]
    exact hrel

theorem Tracks.saveSnapshot (h : Tracks q G peers a₀ a i s) {index term : Nat} {data : Bytes}
    {conf : ConfState} (hlt : s.snapIndex < index)
    (hclean : Kept (Clean peers) CleanFiles (s.saveSnapshot index term data conf).1)
    (hcut : ∀ p, s.disk.files.synced <+: p → p <+: s.disk.files.records →
      ∃ b, GhostSteps G i a b ∧
        Rel q b i { s.view with
          snapIndex := index, snapTerm := term
          log := (logOf s.snapIndex p).drop (index - s.snapIndex) })
    (hsteps : GhostSteps G i a a')
    (hrel : Rel q a' i { s.view with
      snapIndex := index, snapTerm := term, log := s.log.drop (index - s.snapIndex) }) :
    Tracks q G peers a₀ a' i (s.saveSnapshot index term data conf).1 := by
  refine (h.crashProof.saveSnapshot hlt hclean fun p hs hp => ?_).tracks (h.steps.trans hsteps) ?_
  · obtain ⟨b, hb, hrelb⟩ := hcut p hs hp
    exact ⟨b, h.steps.trans hb, hrelb⟩
  · rw [h.clean.1.saveSnapshot_view hlt]
    exact hrel

end Tracks

end Raft
end DistKV
