import Mathlib.Data.Countable.Basic
import Mathlib.Logic.Equiv.List
import Mathlib.Tactic.DeriveCountable
import DistKV.Raft.Records
import DistKV.Raft.SnapshotAtomic

/-!
# Disk state and memory state

Any sequence of storage calls, with the storage closed and opened or crashed and opened in between,
on files that never fail. What is in memory is what the bytes of the files read back to, and a
crash takes nothing but a suffix of the log records that no fsync has covered.

The configuration of a snapshot has to have voters, as that of `setConfState` has: `openDiskStorage`
takes a configuration without voters for a missing one (`voterless_snapshot_forgotten`).
-/

namespace DistKV
namespace Raft

open Run (IsRun)

/-! ## Calls -/

inductive StoreOp where
  | setHardState (term votedFor : Nat)
  | appendEntries (entries : List Entry)
  | setConfState (c : ConfState)
  | sync
  | saveSnapshot (index term : Nat) (data : Bytes) (conf : ConfState)
  /-- `close` and `openDiskStorage`. -/
  | reopen
  /-- A crash that `keep` of the unsynced records survive, and `openDiskStorage`. -/
  | crash (keep : Nat)

namespace StoreOp

def step (bootstrap : List Nat) (s : DiskStorage) : StoreOp → Option DiskStorage
  | .setHardState term votedFor => some (s.setHardState term votedFor).1
  | .appendEntries entries => some (s.appendEntries entries).1
  | .setConfState c => some (s.setConfState c).1
  | .sync => some s.sync.1
  | .saveSnapshot index term data conf => some (s.saveSnapshot index term data conf).1
  | .reopen => DiskStorage.openDiskStorage s.disk.close.1.files bootstrap
  | .crash keep => DiskStorage.openDiskStorage (s.disk.files.crash keep) bootstrap

/-- What the callers guarantee, and that everything fits its place in the files. -/
def Allowed (k : Codec) (s : DiskStorage) : StoreOp → Prop
  | .setHardState term votedFor => term < 2 ^ 64 ∧ votedFor < 2 ^ 64
  | .appendEntries entries => Appendable s entries ∧ ∀ e ∈ entries, k.Fits (.append e)
  | .setConfState c => 0 < c.voters.card ∧ c.Fits
  | .saveSnapshot index term _ conf =>
    0 < conf.voters.card ∧ conf.Fits ∧ index < 2 ^ 64 ∧ term < 2 ^ 64
  | _ => True

end StoreOp

/-! ## What fits stays fitting -/

section Fit

variable {k : Codec}

/-- Files with more records that fit. -/
theorem Codec.FitFiles.add {f f' : Files} (h : k.FitFiles f) (rs : List WalRecord)
    (hrs : ∀ r ∈ rs, k.Fits r) (hrecords : ∀ r ∈ f'.records, r ∈ f.records ∨ r ∈ rs)
    (hmeta : f'.snapshotMeta = f.snapshotMeta) (hconf : f'.snapshotConf = f.snapshotConf) :
    k.FitFiles f' := by
  refine ⟨fun r hr => ?_, fun m hm => h.saved m (hmeta ▸ hm), fun c hc => h.conf c (hconf ▸ hc)⟩
  rcases hrecords r hr with hold | hnew
  · exact h.records r hold
  · exact hrs r hnew

theorem mem_records_crash {f : Files} {keep : Nat} {r : WalRecord}
    (h : r ∈ (f.crash keep).records) : r ∈ f.records := by
  rw [Files.records, Files.crash, List.append_nil] at h
  rcases List.mem_append.mp h with hsynced | htail
  · exact List.mem_append_left _ hsynced
  · exact List.mem_append_right _ (List.mem_of_mem_take htail)

theorem hardOf_fits {recs : List WalRecord} (h : ∀ r ∈ recs, k.Fits r) :
    (hardOf recs).1 < 2 ^ 64 ∧ (hardOf recs).2 < 2 ^ 64 := by
  induction recs using List.reverseRecOn with
  | nil => exact ⟨Nat.two_pow_pos 64, Nat.two_pow_pos 64⟩
  | append_singleton recs r ih =>
    have hold := ih fun x hx => h x (List.mem_append_left _ hx)
    rw [hardOf_append]
    cases r with
    | hardState term votedFor => exact h _ (List.mem_append_right _ (List.mem_singleton_self _))
    | append e => exact hold
    | truncate first => exact hold
    | confState c => exact hold

end Fit

/-! ## The invariant -/

/-- Memory and files agree, and what is in the files fits. -/
structure Tended (k : Codec) (bootstrap : List Nat) (s : DiskStorage) : Prop where
  kept : Kept Stored Recoverable s
  clean : Clean bootstrap s
  flag : s.dirty = false → s.disk.files.unsynced = []
  fit : k.FitFiles s.disk.files

section Step

variable {k : Codec} {bootstrap : List Nat} {s s' : DiskStorage}

theorem Files.flush_eq_crash (f : Files) : f.flush = f.crash f.unsynced.length := by
  rw [Files.crash, List.take_length]
  rfl

theorem close_files (h : s.disk.Calm) : s.disk.close.1.files = s.disk.files.flush := by
  rw [h.close]
  rfl

/-- However much a crash loses, a storage of the same kind is opened. -/
theorem Tended.recover (h : Tended k bootstrap s) {keep : Nat}
    (ho : DiskStorage.openDiskStorage (s.disk.files.crash keep) bootstrap = some s') :
    Tended k bootstrap s' := by
  have hr := recovered_of_open ho
  refine ⟨h.clean.files.recoverable.recover ho, h.clean.files.recover ho, fun _ => ?_, ?_⟩
  · rw [hr.disk]
    rfl
  · rw [hr.disk]
    exact h.fit.add [] (by simp) (fun r hmem => .inl (mem_records_crash hmem)) rfl rfl

theorem Tended.setHardState (h : Tended k bootstrap s) {term votedFor : Nat}
    (hterm : term < 2 ^ 64) (hvote : votedFor < 2 ^ 64) :
    Tended k bootstrap (s.setHardState term votedFor).1 := by
  have hkept := Stored.setHardState h.kept term votedFor
  refine ⟨hkept, h.clean.setHardState hkept.1, fun _ => ?_, ?_⟩
  · rw [DiskStorage.setHardState_calm h.clean.calm]
    rfl
  · rw [DiskStorage.setHardState_calm h.clean.calm]
    refine h.fit.add [.hardState term votedFor]
      (fun r hr => List.mem_singleton.mp hr ▸ ⟨hterm, hvote⟩) (fun r hr => ?_) rfl rfl
    change r ∈ ((s.disk.files.write (.hardState term votedFor)).flush).records at hr
    rw [Files.records_flush, Files.records_write] at hr
    exact List.mem_append.mp hr

theorem Tended.setConfState (h : Tended k bootstrap s) {c : ConfState} (hc : 0 < c.voters.card)
    (hfits : c.Fits) : Tended k bootstrap (s.setConfState c).1 := by
  have hkept := Stored.setConfState h.kept c
  refine ⟨hkept, h.clean.setConfState hc hkept.1, fun _ => ?_, ?_⟩
  · rw [DiskStorage.setConfState_calm h.clean.calm]
    rfl
  · rw [DiskStorage.setConfState_calm h.clean.calm]
    refine h.fit.add [.confState c] (fun r hr => List.mem_singleton.mp hr ▸ hfits)
      (fun r hr => ?_) rfl rfl
    change r ∈ ((s.disk.files.write (.confState c)).flush).records at hr
    rw [Files.records_flush, Files.records_write] at hr
    exact List.mem_append.mp hr

theorem Tended.sync (h : Tended k bootstrap s) : Tended k bootstrap s.sync.1 := by
  have hkept := Stored.sync h.kept
  refine ⟨hkept, h.clean.sync hkept.1, fun _ => ?_, ?_⟩
  · rw [DiskStorage.sync_calm h.clean.calm]
    cases hd : s.dirty with
    | true => rfl
    | false => exact h.flag hd
  · rw [DiskStorage.sync_calm h.clean.calm]
    cases hd : s.dirty with
    | true =>
      refine h.fit.add [] (by simp) (fun r hr => .inl ?_) rfl rfl
      change r ∈ s.disk.files.flush.records at hr
      rwa [Files.records_flush] at hr
    | false => exact h.fit

/-- The files after `appendEntries`: a truncation, perhaps, and the entries. -/
theorem appendEntries_files (h : s.disk.Calm) (e : Entry) (es : List Entry) :
    (s.appendEntries (e :: es)).1.disk.files = s.disk.files.writeAll (s.appendRecords e es) := by
  rw [DiskStorage.appendEntries_calm h]
  exact Files.getLast?_writes _ _

theorem mem_truncation {first : Nat} {r : WalRecord} (h : r ∈ s.truncation first) :
    r = .truncate first := by
  rw [DiskStorage.truncation] at h
  split at h
  · split at h
    · exact List.mem_singleton.mp h
    · cases h
  · cases h

theorem Tended.appendEntries (h : Tended k bootstrap s) {es : List Entry} (hes : Appendable s es)
    (hfits : ∀ e ∈ es, k.Fits (.append e)) : Tended k bootstrap (s.appendEntries es).1 := by
  have hkept := Stored.appendEntries h.kept hes
  cases es with
  | nil => exact h
  | cons e es =>
    refine ⟨hkept, h.clean.appendEntries hkept.1, fun hd => ?_, ?_⟩
    · rw [DiskStorage.appendEntries_calm h.clean.calm] at hd
      cases hd
    · rw [appendEntries_files h.clean.calm]
      refine h.fit.add (s.appendRecords e es) (fun r hr => ?_) (fun r hr => ?_) rfl rfl
      · rcases List.mem_append.mp hr with hcut | hnew
        · rw [mem_truncation hcut]
          exact (hfits e List.mem_cons_self).2.1
        · obtain ⟨x, hx, rfl⟩ := List.mem_map.mp hnew
          exact hfits x hx
      · rw [Files.records, Files.writeAll, ← List.append_assoc] at hr
        exact List.mem_append.mp hr

theorem Tended.saveSnapshot (h : Tended k bootstrap s) {index term : Nat} {data : Bytes}
    {conf : ConfState} (hc : 0 < conf.voters.card) (hfits : conf.Fits) (hindex : index < 2 ^ 64)
    (hterm : term < 2 ^ 64) : Tended k bootstrap (s.saveSnapshot index term data conf).1 := by
  have hkept := Stored.saveSnapshot h.kept index term data conf
  rcases Nat.lt_or_ge s.snapIndex index with hlt | hge
  swap
  · rw [DiskStorage.saveSnapshot_below hge]
    exact h
  refine ⟨hkept, h.clean.saveSnapshot (.inl hc) hkept.1, fun _ => ?_, ?_⟩
  · rw [DiskStorage.saveSnapshot_calm h.clean.calm hlt]
    rfl
  · rw [DiskStorage.saveSnapshot_calm h.clean.calm hlt]
    have hhard : s.term < 2 ^ 64 ∧ s.votedFor < 2 ^ 64 := by
      have hall := hardOf_fits fun r hr => h.fit.records r (List.mem_append_left _ hr)
      rw [h.clean.hard] at hall
      exact hall
    refine ⟨fun r hr => ?_, fun m hm => ?_, fun c hconf => ?_⟩
    · change r ∈ (.hardState s.term s.votedFor :: .confState conf ::
        (s.log.filter fun e => decide (e.index > index)).map WalRecord.append) ++ [] at hr
      rw [List.append_nil] at hr
      rcases List.mem_cons.mp hr with rfl | hr
      · exact hhard
      rcases List.mem_cons.mp hr with rfl | hr
      · exact hfits
      obtain ⟨e, he, rfl⟩ := List.mem_map.mp hr
      have hlog := (List.mem_filter.mp he).1
      rw [h.clean.stored.log] at hlog
      exact h.fit.records _ (mem_logOf hlog)
    · cases hm
      exact ⟨hindex, hterm⟩
    · cases hconf
      exact hfits

theorem Tended.step (h : Tended k bootstrap s) {op : StoreOp} (hop : op.Allowed k s)
    (hstep : op.step bootstrap s = some s') : Tended k bootstrap s' := by
  cases op with
  | setHardState term votedFor =>
    cases hstep
    exact h.setHardState hop.1 hop.2
  | appendEntries entries =>
    cases hstep
    exact h.appendEntries hop.1 hop.2
  | setConfState c =>
    cases hstep
    exact h.setConfState hop.1 hop.2
  | sync =>
    cases hstep
    exact h.sync
  | saveSnapshot index term data conf =>
    cases hstep
    exact h.saveSnapshot hop.1 hop.2.1 hop.2.2.1 hop.2.2.2
  | reopen =>
    rw [StoreOp.step, close_files h.clean.calm, Files.flush_eq_crash] at hstep
    exact h.recover hstep
  | crash keep => exact h.recover hstep

theorem Tended.fresh : Tended k bootstrap { conf := .newConfState bootstrap } := by
  have hfiles : CleanFiles {} :=
    ⟨⟨fun h => (by cases h), 0, Nat.le_refl _, WalOk.nil⟩, ⟨by simp, fun _ => rfl⟩⟩
  have hopen : DiskStorage.openDiskStorage (Files.crash {} 0) bootstrap =
      some { conf := .newConfState bootstrap } := rfl
  exact ⟨hfiles.recoverable.recover hopen, hfiles.recover hopen, fun _ => rfl,
    ⟨List.forall_mem_nil _, by simp, by simp⟩⟩

end Step

/-! ## Entries that were synced -/

/-- Whatever a crash leaves of the unsynced records, the entry is in the log that is read back,
    unless the snapshot covers it. -/
def Survives (e : Entry) (s : DiskStorage) : Prop :=
  s.snapIndex < e.index → ∀ p, s.disk.files.synced <+: p → p <+: s.disk.files.records →
    e ∈ logOf s.snapIndex p

section Survive

variable {k : Codec} {bootstrap : List Nat} {s s' : DiskStorage} {e : Entry}

theorem Survives.mem_log (h : Survives e s) (hc : Clean bootstrap s) (habove : s.snapIndex < e.index) :
    e ∈ s.log := by
  rw [hc.stored.log]
  exact h habove _ (List.prefix_append _ _) (List.prefix_refl _)

/-- When everything is synced, every entry of the log survives. -/
theorem survives_of_mem (hc : Clean bootstrap s) (hsynced : s.disk.files.unsynced = [])
    (he : e ∈ s.log) : Survives e s := by
  intro _ p hlow hhigh
  rw [Files.records, hsynced, List.append_nil] at hhigh
  have hp : p = s.disk.files.records := by
    rw [Files.records, hsynced, List.append_nil]
    exact (hhigh.eq_of_length_le hlow.length_le)
  rw [hp, ← hc.stored.log]
  exact he

/-- A record takes an entry out of the log only if it is a truncation at or below it. -/
theorem mem_replayLog {b : Nat} {log : List Entry} {r : WalRecord} (he : e ∈ log)
    (hr : ∀ first, r = .truncate first → e.index < first) : e ∈ replayLog b log r := by
  cases r with
  | hardState term votedFor => exact he
  | confState c => exact he
  | append x =>
    rw [replayLog]
    split
    · exact List.mem_append_left _ he
    · exact he
  | truncate first =>
    rw [replayLog, truncateFrom]
    have hsplit : log.rdropWhile (fun x : Entry => decide (x.index ≥ first)) ++
        log.rtakeWhile (fun x : Entry => decide (x.index ≥ first)) = log :=
      List.rdropWhile_append_rtakeWhile
    rw [← hsplit] at he
    rcases List.mem_append.mp he with hkept | hcut
    · exact hkept
    · have hin := List.mem_rtakeWhile_imp hcut
      have hge : first ≤ e.index := of_decide_eq_true hin
      exact absurd (hr first rfl) (Nat.not_lt_of_le hge)

theorem mem_logOf_append {b : Nat} {recs q : List WalRecord} (he : e ∈ logOf b recs)
    (hq : ∀ first, .truncate first ∈ q → e.index < first) : e ∈ logOf b (recs ++ q) := by
  induction q using List.reverseRecOn with
  | nil => rwa [List.append_nil]
  | append_singleton q r ih =>
    rw [← List.append_assoc, logOf_append]
    refine mem_replayLog (ih fun first hmem => hq first (List.mem_append_left _ hmem)) ?_
    rintro first rfl
    exact hq first (List.mem_append_right _ (List.mem_singleton_self _))

theorem Survives.appendEntries (h : Survives e s) (ht : Tended k bootstrap s) {es : List Entry}
    (hlater : ∀ x, es.head? = some x → e.index < x.index) :
    Survives e (s.appendEntries es).1 := by
  cases es with
  | nil => exact h
  | cons x es =>
    have hsnap := (appendEntries_head (s := s) (x :: es)).snapIndex
    intro habove p hlow hhigh
    rw [hsnap] at habove ⊢
    rw [appendEntries_files ht.clean.calm] at hlow hhigh
    rw [Files.records, Files.writeAll, ← List.append_assoc] at hhigh
    rcases List.prefix_or_prefix_of_prefix hhigh (List.prefix_append _ _) with hold | ⟨q, rfl⟩
    · exact h habove p hlow hold
    · -- of the records of the call only the truncation takes anything away
      have hq := (List.prefix_append_right_inj _).mp hhigh
      refine mem_logOf_append (h habove _ (List.prefix_append _ _) (List.prefix_refl _)) ?_
      intro first hmem
      rcases List.mem_append.mp (hq.subset hmem) with hcut | hnew
      · cases mem_truncation hcut
        exact hlater x rfl
      · obtain ⟨y, -, hy⟩ := List.mem_map.mp hnew
        cases hy

theorem Survives.recover (h : Survives e s) (ht : Tended k bootstrap s) {keep : Nat}
    (ho : DiskStorage.openDiskStorage (s.disk.files.crash keep) bootstrap = some s') :
    Survives e s' := by
  have ht' := ht.recover ho
  have hr := recovered_of_open ho
  refine fun habove => survives_of_mem ht'.clean (by rw [hr.disk]; rfl) ?_ habove
  have hsnap : s'.snapIndex = s.snapIndex := hr.snapIndex.trans ht.clean.files_snapIndex
  rw [hsnap] at habove
  rw [hr.log]
  have hindex : (s.disk.files.crash keep).snapIndex = s.snapIndex := ht.clean.files_snapIndex
  rw [hindex]
  exact h habove _ (List.prefix_append _ _) (s.disk.files.crash_synced keep)

/-- **A synced entry stays** through every call that does not overwrite it. -/
theorem Survives.step (h : Survives e s) (ht : Tended k bootstrap s) {op : StoreOp}
    (hop : op.Allowed k s) (hstep : op.step bootstrap s = some s')
    (hlater : ∀ es x, op = .appendEntries es → es.head? = some x → e.index < x.index) :
    Survives e s' := by
  have ht' := ht.step hop hstep
  cases op with
  | setHardState term votedFor =>
    cases hstep
    rw [DiskStorage.setHardState_calm ht.clean.calm] at ht' ⊢
    exact fun habove => survives_of_mem ht'.clean rfl (h.mem_log ht.clean habove) habove
  | appendEntries entries =>
    cases hstep
    exact h.appendEntries ht fun x hx => hlater entries x rfl hx
  | setConfState c =>
    cases hstep
    rw [DiskStorage.setConfState_calm ht.clean.calm] at ht' ⊢
    exact fun habove => survives_of_mem ht'.clean rfl (h.mem_log ht.clean habove) habove
  | sync =>
    cases hstep
    rw [DiskStorage.sync_calm ht.clean.calm] at ht' ⊢
    cases hd : s.dirty with
    | false => exact h
    | true =>
      rw [hd] at ht'
      exact fun habove => survives_of_mem ht'.clean rfl (h.mem_log ht.clean habove) habove
  | saveSnapshot index term data conf =>
    cases hstep
    rcases Nat.lt_or_ge s.snapIndex index with hlt | hge
    swap
    · rw [DiskStorage.saveSnapshot_below hge]
      exact h
    rw [DiskStorage.saveSnapshot_calm ht.clean.calm hlt] at ht' ⊢
    refine fun habove => survives_of_mem ht'.clean rfl ?_ habove
    have habove' : index < e.index := habove
    exact List.mem_filter.mpr
      ⟨h.mem_log ht.clean (Nat.lt_trans hlt habove'), decide_eq_true habove'⟩
  | reopen =>
    rw [StoreOp.step, close_files ht.clean.calm, Files.flush_eq_crash] at hstep
    exact h.recover ht hstep
  | crash keep => exact h.recover ht hstep

end Survive

/-! ## Runs -/

/-- The bytes a crash leaves read back to what is in memory, but for unsynced log records. -/
theorem Tended.readBack {k : Codec} {bootstrap : List Nat} {s : DiskStorage}
    (h : Tended k bootstrap s) (keep : Nat) :
    ∃ r, k.openDirectory (k.image (s.disk.files.crash keep)) bootstrap = .ok r ∧
      r.persisted = { s.persisted with
        log := logOf s.snapIndex (s.disk.files.synced ++ s.disk.files.unsynced.take keep) } := by
  obtain ⟨r, hopen, hpersisted⟩ := open_crash h.clean.stored.readable bootstrap keep
  have hfit : k.FitFiles (s.disk.files.crash keep) :=
    h.fit.add [] (by simp) (fun r hmem => .inl (mem_records_crash hmem)) rfl rfl
  refine ⟨_, k.openDirectory_image hfit hopen, ?_⟩
  rw [← h.clean.persisted keep]
  exact hpersisted

section Runs

variable {k : Codec} {bootstrap : List Nat} {σ : Nat → DiskStorage} {α : Nat → Option StoreOp}

theorem tended_run
    (hrun : IsRun (StoreOp.step bootstrap) { conf := .newConfState bootstrap } σ α)
    (hallowed : ∀ i op, α i = some op → op.Allowed k (σ i)) (i : Nat) :
    Tended k bootstrap (σ i) :=
  hrun.invariant Tended.fresh (fun j op hop h => h.step (hallowed j op hop) (hrun.next j op hop)) i

/-- **Disk state equals memory state.** After any calls, closing and opening reads back what is in
    memory. After a crash the same is read back, with the log the surviving records make; and an
    entry that was in the log when everything was synced is in it, unless a later call has
    overwritten it or a snapshot covers it. -/
theorem disk_equals_memory (k : Codec) (bootstrap : List Nat) (σ : Nat → DiskStorage)
    (α : Nat → Option StoreOp)
    (hrun : IsRun (StoreOp.step bootstrap) { conf := .newConfState bootstrap } σ α)
    (hallowed : ∀ i op, α i = some op → op.Allowed k (σ i)) (i : Nat) :
    (∃ r, k.openDirectory (k.image (σ i).disk.close.1.files) bootstrap = .ok r ∧
      r.persisted = (σ i).persisted) ∧
    ∀ keep, ∃ r, k.openDirectory (k.image ((σ i).disk.files.crash keep)) bootstrap = .ok r ∧
      r.persisted = { (σ i).persisted with
        log := logOf (σ i).snapIndex
          ((σ i).disk.files.synced ++ (σ i).disk.files.unsynced.take keep) } ∧
      ∀ j ≤ i, (σ j).disk.files.unsynced = [] → ∀ e ∈ (σ j).log, (σ i).snapIndex < e.index →
        (∀ m es x, j ≤ m → m < i → α m = some (.appendEntries es) → es.head? = some x →
          e.index < x.index) → e ∈ r.log := by
  have ht := tended_run hrun hallowed i
  refine ⟨?_, fun keep => ?_⟩
  · obtain ⟨r, hopen, hpersisted⟩ := ht.readBack (σ i).disk.files.unsynced.length
    refine ⟨r, ?_, ?_⟩
    · rw [close_files ht.clean.calm, Files.flush_eq_crash]
      exact hopen
    · rw [hpersisted, List.take_length, ← Files.records, ← ht.clean.stored.log]
      rfl
  · obtain ⟨r, hopen, hpersisted⟩ := ht.readBack keep
    refine ⟨r, hopen, hpersisted, fun j hj hsynced e he habove hlater => ?_⟩
    have hsurvives : Survives e (σ i) := by
      refine hrun.invariant_until (P := Survives e) ?_ (fun m op hm hlt hop h => ?_) hj
      · exact survives_of_mem (tended_run hrun hallowed j).clean hsynced he
      · refine h.step (tended_run hrun hallowed m) (hallowed m op hop) (hrun.next m op hop) ?_
        rintro es x rfl hx
        exact hlater m es x hm hlt hop hx
    have hlog : r.log = logOf (σ i).snapIndex
        ((σ i).disk.files.synced ++ (σ i).disk.files.unsynced.take keep) :=
      congrArg Persisted.log hpersisted
    rw [hlog]
    exact hsurvives habove _ (List.prefix_append _ _)
      ((σ i).disk.files.crash_synced keep)

end Runs

/-! ### A synced entry and a crash -/

instance instCountableUInt8 : Countable UInt8 :=
  Function.Injective.countable fun _ _ h => UInt8.toNat_inj.mp h

deriving instance Countable for EntryType, ConfChangeType, ConfChange, Entry

/-- Values can be written as bytes, a given one as we like. -/
theorem exists_code {α : Type} [Countable α] (x : α) (b : Bytes) :
    ∃ f : α → Bytes, Function.Injective f ∧ f x = b := by
  classical
  obtain ⟨number, hnumber⟩ := Countable.exists_injective_nat α
  refine ⟨fun y => if y = x then b else List.replicate (b.length + number y + 1) 0,
    fun y z hyz => ?_, if_pos rfl⟩
  have hlength := congrArg List.length hyz
  by_cases hy : y = x
  · by_cases hz : z = x
    · rw [hy, hz]
    · simp only [hy, hz, if_true, if_false, List.length_replicate] at hlength
      omega
  · by_cases hz : z = x
    · simp only [hy, hz, if_true, if_false, List.length_replicate] at hlength
      omega
    · simp only [hy, hz, if_false, List.length_replicate] at hlength
      exact hnumber (by omega)

theorem Codec.exists_marshal (e₀ : Entry) (b : Bytes) : ∃ k : Codec, k.marshal e₀ = b := by
  classical
  obtain ⟨f, hf, hb⟩ := exists_code e₀ b
  exact ⟨⟨f, Function.partialInv f, Function.partialInv_left hf⟩, hb⟩

def firstEntry : Entry := { term := 1, index := 1 }

def voteAndAppend : List StoreOp :=
  [.setHardState 1 1, .appendEntries [firstEntry], .sync, .setConfState (.newConfState [1, 2, 3, 4])]

def storeAt (n : Nat) : DiskStorage :=
  let start : DiskStorage := { conf := .newConfState [1, 2, 3] }
  (Run.after (StoreOp.step [1, 2, 3]) start (voteAndAppend.take n)).getD start

/-- The bytes of the entry are those of `proto.Marshal`: two fields of one byte each. -/
theorem disk_equals_memory_crash : ∃ (k : Codec) (r : DiskStorage),
    k.marshal firstEntry = [8, 1, 16, 1] ∧
    k.openDirectory (k.image ((storeAt 4).disk.files.crash 0)) [1, 2, 3] = .ok r ∧
      (storeAt 4).term = 1 ∧ r.persisted.term = (storeAt 4).term ∧ firstEntry ∈ r.log := by
  obtain ⟨k, hk⟩ := Codec.exists_marshal firstEntry [8, 1, 16, 1]
  have hrun : IsRun (StoreOp.step [1, 2, 3]) { conf := .newConfState [1, 2, 3] } storeAt
      (fun n => voteAndAppend[n]?) := IsRun.ofList rfl
  have hfits : k.Fits (.append firstEntry) := by
    refine ⟨by decide, by decide, ?_⟩
    rw [Codec.encodeEntry, hk]
    decide
  have hchain : Chain 0 [firstEntry] := by
    intro n e he
    cases n with
    | zero =>
      cases he
      rfl
    | succ n => cases he
  have hallowed : ∀ n (op : StoreOp), voteAndAppend[n]? = some op → op.Allowed k (storeAt n) := by
    intro n op hop
    rcases n with _ | _ | _ | _ | n
    · cases hop
      exact ⟨by decide, by decide⟩
    · cases hop
      refine ⟨fun e es h => ?_, fun e he => List.mem_singleton.mp he ▸ hfits⟩
      cases h
      exact ⟨by decide, by decide, hchain⟩
    · cases hop
      trivial
    · cases hop
      exact ⟨by decide, by decide, by decide, by decide⟩
    · cases hop
  obtain ⟨r, hopen, hpersisted, hsurvive⟩ :=
    (disk_equals_memory k [1, 2, 3] storeAt _ hrun hallowed 4).2 0
  refine ⟨k, r, hk, hopen, rfl, congrArg Persisted.term hpersisted, ?_⟩
  refine hsurvive 3 (by decide) rfl firstEntry (List.mem_singleton_self _) (by decide) ?_
  intro m es x hm hlt happend
  have hthree : m = 3 := Nat.le_antisymm (Nat.le_of_lt_succ hlt) hm
  subst hthree
  cases happend

/-- A snapshot whose configuration has no voters: in memory the configuration is empty, and what is
    opened has the voters of the bootstrap. -/
theorem voterless_snapshot_forgotten :
    let start : DiskStorage := { conf := .newConfState [1] }
    let saved := (start.saveSnapshot 1 1 [9] { voters := ∅ }).1
    (start.saveSnapshot 1 1 [9] { voters := ∅ }).2 = true ∧ saved.conf.voters = ∅ ∧
      (DiskStorage.openDiskStorage saved.disk.close.1.files [1]).map (·.conf.voters) = some {1} := by
  decide

end Raft
end DistKV
