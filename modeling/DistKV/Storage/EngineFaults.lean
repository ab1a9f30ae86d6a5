import DistKV.Storage.EngineRefines

/-!
# What a failed operation leaves behind

Every file operation may fail here. `Ends` is the rule for it: a program works exactly if `G`, and
then `Q` holds, and otherwise it returns the error of the operation, with `R`. Programs are put
together with `Ends.bind`. An engine whose WAL could not be opened again has no handle, and the next
operation on it panics; the rules are about engines with a handle.

A flush changes no answer of the engine, however it ends (`flushLocked_ends`). A write that fails in the WAL
has changed nothing, and one that fails in the flush has done everything (`writeMem_ends`). A reset
that fails leaves the pairs that were loaded so far (`reset_ends`).
-/

namespace DistKV
namespace Storage

open SortedRun (Increasing find first)

/-! ## Programs that may fail -/

/-- None of the next `n` file operations fails. -/
def Quiet (fs : List (Option Nat)) (n : Nat) : Prop := ∀ f ∈ fs.take n, f = none

instance instDecidableQuiet (fs : List (Option Nat)) (n : Nat) : Decidable (Quiet fs n) :=
  inferInstanceAs (Decidable (∀ f ∈ fs.take n, f = none))

theorem quiet_add {fs : List (Option Nat)} {n k : Nat} :
    Quiet fs (n + k) ↔ Quiet fs n ∧ Quiet (fs.drop n) k := by
  rw [Quiet, List.take_add]
  simp only [List.mem_append]
  constructor
  · intro h
    exact ⟨fun f hf => h f (Or.inl hf), fun f hf => h f (Or.inr hf)⟩
  · rintro ⟨hn, hk⟩ f (hf | hf)
    · exact hn f hf
    · exact hk f hf

theorem quiet_zero (fs : List (Option Nat)) : Quiet fs 0 := by
  intro f hf
  rw [List.take_zero] at hf
  cases hf

/-- The program works exactly if `G`. Then it has come by `n` file operations and `Q` holds of its
    result and the engine. Otherwise it returns an error and `R` holds of the engine. -/
structure Ends {α : Type} (m : EngineM α) (e : Engine) (G : Prop) (n : Nat) (Q : α → Engine → Prop)
    (R : Engine → Prop) : Prop where
  works : G → ∃ a e', m.exec e = (.ok a, e') ∧ e'.faults = e.faults.drop n ∧ Q a e'
  fails : ¬G → ∃ e', m.exec e = (.error .io, e') ∧ R e'

namespace Ends

variable {α β : Type} {m : EngineM α} {f : α → EngineM β} {e e' : Engine} {G H : Prop} {n k : Nat}
  {Q Q' : α → Engine → Prop} {P : β → Engine → Prop} {R R' : Engine → Prop}

/-- One program after the other. -/
theorem bind (hm : Ends m e G n Q R)
    (hf : ∀ a e', e'.faults = e.faults.drop n → Q a e' → Ends (f a) e' H k P R) :
    Ends (m >>= f) e (G ∧ H) (n + k) P R := by
  refine ⟨fun hG => ?_, fun hG => ?_⟩
  · obtain ⟨a, e', hexec, hfaults, hQ⟩ := hm.works hG.1
    obtain ⟨b, e'', hexec', hfaults', hP⟩ := (hf a e' hfaults hQ).works hG.2
    refine ⟨b, e'', by rw [exec_then hexec, hexec'], ?_, hP⟩
    rw [hfaults', hfaults, List.drop_drop]
  · by_cases hfirst : G
    · obtain ⟨a, e', hexec, hfaults, hQ⟩ := hm.works hfirst
      obtain ⟨e'', hexec', hR⟩ := (hf a e' hfaults hQ).fails fun hH => hG ⟨hfirst, hH⟩
      exact ⟨e'', by rw [exec_then hexec, hexec'], hR⟩
    · obtain ⟨e', hexec, hR⟩ := hm.fails hfirst
      exact ⟨e', by rw [exec_bind, hexec], hR⟩

/-- A step that is no file operation and always works. -/
theorem after {a : α} (hexec : m.exec e = (.ok a, e')) (hfaults : e'.faults = e.faults)
    (h : Ends (f a) e' G k P R) : Ends (m >>= f) e G k P R := by
  refine ⟨fun hG => ?_, fun hG => ?_⟩
  · obtain ⟨b, e'', hexec', hfaults', hP⟩ := h.works hG
    exact ⟨b, e'', by rw [exec_then hexec, hexec'], by rw [hfaults', hfaults], hP⟩
  · obtain ⟨e'', hexec', hR⟩ := h.fails hG
    exact ⟨e'', by rw [exec_then hexec, hexec'], hR⟩

/-- A program that cannot fail and comes by no file operation. -/
theorem of_ok {a : α} (hexec : m.exec e = (.ok a, e')) (hfaults : e'.faults = e.faults)
    (h : Q a e') : Ends m e True 0 Q R :=
  ⟨fun _ => ⟨a, e', hexec, hfaults, h⟩, fun hG => absurd trivial hG⟩

theorem weaken (h : Ends m e G n Q R) (hQ : ∀ a e', Q a e' → Q' a e')
    (hR : ∀ e', R e' → R' e') : Ends m e G n Q' R' := by
  refine ⟨fun hG => ?_, fun hG => ?_⟩
  · obtain ⟨a, e', hexec, hfaults, hpost⟩ := h.works hG
    exact ⟨a, e', hexec, hfaults, hQ a e' hpost⟩
  · obtain ⟨e', hexec, hpost⟩ := h.fails hG
    exact ⟨e', hexec, hR e' hpost⟩

/-- What a failure leaves may depend on why it failed. -/
theorem failing (h : Ends m e G n Q R) (hR : ¬G → ∀ e', R e' → R' e') : Ends m e G n Q R' := by
  refine ⟨h.works, fun hG => ?_⟩
  obtain ⟨e', hexec, hpost⟩ := h.fails hG
  exact ⟨e', hexec, hR hG e' hpost⟩

/-- Behind a program that worked it is known why. -/
theorem knowing (h : Ends m e G n Q R) : Ends m e G n (fun a e' => G ∧ Q a e') R := by
  refine ⟨fun hG => ?_, h.fails⟩
  obtain ⟨a, e', hexec, hfaults, hpost⟩ := h.works hG
  exact ⟨a, e', hexec, hfaults, hG, hpost⟩

theorem iff (h : Ends m e G n Q R) (heq : H ↔ G) : Ends m e H n Q R :=
  ⟨fun hH => h.works (heq.mp hH), fun hH => h.fails fun hG => hH (heq.mpr hG)⟩

end Ends

/-! ## The WAL -/

/-- What a read looks at, and what decides about a flush, is the same. -/
structure Same (e e' : Engine) : Prop where
  mem : e'.mem = e.mem
  tables : e'.tables = e.tables
  nextSST : e'.nextSST = e.nextSST
  flushSize : e'.flushSize = e.flushSize
  syncWAL : e'.syncWAL = e.syncWAL

theorem Same.refl (e : Engine) : Same e e := ⟨rfl, rfl, rfl, rfl, rfl⟩

theorem Same.trans {e e' e'' : Engine} (h : Same e e') (h' : Same e' e'') : Same e e'' :=
  ⟨h'.mem.trans h.mem, h'.tables.trans h.tables, h'.nextSST.trans h.nextSST,
    h'.flushSize.trans h.flushSize, h'.syncWAL.trans h.syncWAL⟩

section Wal

variable {e : Engine}

/-- The engine with one file operation less to come. -/
def Engine.passed (e : Engine) : Engine := { e with faults := e.faults.drop 1 }

theorem nextFault_exec : nextFault.exec e = (.ok e.faults.head?.join, e.passed) := by
  cases hf : e.faults with
  | nil =>
    have hpassed : e.passed = e := by rw [Engine.passed, hf, List.drop_nil, ← hf]
    rw [nextFault_calm hf, hpassed]
    rfl
  | cons f fs =>
    have hpassed : e.passed = { e with faults := fs } := by rw [Engine.passed, hf]; rfl
    rw [hpassed]
    unfold nextFault
    rw [exec_then exec_get, hf]
    rfl

theorem quiet_one {fs : List (Option Nat)} : Quiet fs 1 ↔ fs.head?.join = none := by
  cases fs with
  | nil => simp [Quiet]
  | cons f fs => simp [Quiet]

theorem io_ends : Ends io e (Quiet e.faults 1) 1 (fun _ e' => e' = e.passed)
    (fun e' => e' = e.passed) := by
  have hexec : io.exec e = (if e.faults.head?.join.isSome then throw .io else pure () :
      EngineM Unit).exec e.passed := by
    unfold io
    rw [exec_then nextFault_exec]
  rw [quiet_one]
  refine ⟨fun h => ⟨(), e.passed, ?_, rfl, rfl⟩, fun h => ⟨e.passed, ?_, rfl⟩⟩
  · rw [hexec, h]
    rfl
  · rw [hexec, if_pos (Option.isSome_iff_ne_none.mpr h)]
    rfl

theorem Engine.passed_same (e : Engine) : Same e e.passed := ⟨rfl, rfl, rfl, rfl, rfl⟩

theorem Engine.moved_same (e : Engine) (d : Dir) : Same e (e.passed.moved d) :=
  ⟨rfl, rfl, rfl, rfl, rfl⟩

/-- A file operation and what follows it. -/
theorem io_then {β : Type} {f : Unit → EngineM β} {G : Prop} {k : Nat} {P : β → Engine → Prop}
    {R : Engine → Prop} (h : Ends (f ()) e.passed G k P R) (hR : R e.passed) :
    Ends (io >>= f) e (Quiet e.faults 1 ∧ G) (1 + k) P R := by
  refine (io_ends.weaken (fun _ _ he' => he') fun e' he' => ?_).bind fun _ e' _ he' => ?_
  · rw [he']
    exact hR
  · rw [he']
    exact h

/-- The same where nothing else can fail. -/
theorem io_done {β : Type} {f : Unit → EngineM β} {P : β → Engine → Prop} {R : Engine → Prop}
    (h : Ends (f ()) e.passed True 0 P R) (hR : R e.passed) :
    Ends (io >>= f) e (Quiet e.faults 1) 1 P R :=
  (io_then h hR).iff (Iff.of_eq (and_true _)).symm

/-- The handle of the WAL and what is done with it. -/
theorem walHandle_then {β : Type} {f : WAL → EngineM β} {G : Prop} {k : Nat}
    {P : β → Engine → Prop} {R : Engine → Prop} (hwal : e.dir.wal.isSome = true)
    (h : ∀ w, Ends (f w) e G k P R) : Ends (walHandle >>= f) e G k P R := by
  obtain ⟨w, hw⟩ := Option.isSome_iff_exists.mp hwal
  refine .after ?_ rfl (h w)
  unfold walHandle
  rw [exec_then exec_get, hw]
  rfl

/-- Without a handle the call panics. -/
theorem walHandle_nilWal (hwal : e.dir.wal = none) : walHandle.exec e = (.error .nilWal, e) := by
  unfold walHandle
  rw [exec_then exec_get, hwal]
  rfl

theorem walAppend_ends (hwal : e.dir.wal.isSome = true) (payload : Bytes) :
    Ends (walAppend payload) e (Quiet e.faults 1) 1
      (fun _ e' => Same e e' ∧ e'.dir.wal.isSome = true ∧ e'.opened = e.opened) (Same e) := by
  unfold walAppend
  refine walHandle_then hwal fun w => ?_
  refine io_done ?_ e.passed_same
  exact .of_ok (touch_exec _) rfl ⟨e.moved_same _, rfl, rfl⟩

theorem walSync_ends (hwal : e.dir.wal.isSome = true) :
    Ends walSync e (Quiet e.faults 1 ∧ e.opened = true) 1
      (fun _ e' => Same e e' ∧ e'.dir.wal.isSome = true ∧ e'.opened = e.opened) (Same e) := by
  unfold walSync
  refine walHandle_then hwal fun w => ?_
  refine io_then (k := 0) ?_ e.passed_same
  refine .after exec_get rfl ?_
  by_cases hopen : e.opened = true
  · rw [if_pos (by exact hopen)]
    exact (Ends.of_ok (touch_exec _) rfl ⟨e.moved_same _, rfl, rfl⟩).iff (iff_true_intro hopen)
  · rw [if_neg (by exact hopen)]
    exact ⟨fun h => absurd h hopen, fun _ => ⟨e.passed, rfl, e.passed_same⟩⟩

theorem walRemove_ends : Ends walRemove e (Quiet e.faults 1) 1 (fun _ e' => Same e e') (Same e) := by
  unfold walRemove
  refine io_done ?_ e.passed_same
  exact .of_ok (touch_exec _) rfl (e.moved_same _)

theorem walOpen_ends : Ends walOpen e (Quiet e.faults 1) 1
    (fun _ e' => Same e e' ∧ e'.dir.wal.isSome = true ∧ e'.opened = true) (Same e) := by
  unfold walOpen
  refine io_done ?_ e.passed_same
  refine .after (touch_exec _) rfl ?_
  exact .of_ok (exec_modify _) rfl ⟨⟨rfl, rfl, rfl, rfl, rfl⟩, rfl, rfl⟩

/-- The handle is closed after it, whatever happens. -/
theorem walClose_ends (hwal : e.dir.wal.isSome = true) :
    Ends walClose e (e.opened = true ∧ Quiet e.faults 2) 2 (fun _ e' => Same e e') (Same e) := by
  have hsync : Ends (tryCatch walSync fun err => do
        modify fun e => { e with opened := false }
        throw err) e (Quiet e.faults 1 ∧ e.opened = true) 1 (fun _ e' => Same e e') (Same e) := by
    refine ⟨fun hG => ?_, fun hG => ?_⟩
    · obtain ⟨a, e', hexec, hfaults, hsame, -⟩ := (walSync_ends hwal).works hG
      exact ⟨a, e', by rw [exec_tryCatch, hexec], hfaults, hsame⟩
    · obtain ⟨e', hexec, hsame⟩ := (walSync_ends hwal).fails hG
      refine ⟨{ e' with opened := false }, ?_, ?_⟩
      · rw [exec_tryCatch, hexec]
        rfl
      · exact ⟨hsame.mem, hsame.tables, hsame.nextSST, hsame.flushSize, hsame.syncWAL⟩
  have hguard : e.opened = true ∧ Quiet e.faults 2 ↔
      (Quiet e.faults 1 ∧ e.opened = true) ∧ Quiet (e.faults.drop 1) 1 := by
    rw [show Quiet e.faults 2 ↔ _ from quiet_add (n := 1) (k := 1)]
    exact ⟨fun h => ⟨⟨h.2.1, h.1⟩, h.2.2⟩, fun h => ⟨h.1.2, h.1.1, h.2⟩⟩
  unfold walClose
  refine (hsync.bind (k := 1) fun _ e' hfaults hsame => ?_).iff hguard
  have hclosed : Same e { e' with opened := false } :=
    ⟨hsame.mem, hsame.tables, hsame.nextSST, hsame.flushSize, hsame.syncWAL⟩
  rw [← hfaults]
  refine .after (exec_modify _) rfl (io_ends.weaken (fun _ e₁ he₁ => ?_) fun e₁ he₁ => ?_)
  · rw [he₁]
    exact hclosed.trans (Engine.passed_same _)
  · rw [he₁]
    exact hclosed.trans (Engine.passed_same _)

/-- The WAL is closed, removed and opened again, and then something else happens. -/
theorem rollWal_then {β : Type} {m : EngineM β} {H : Prop} {k : Nat} {P : β → Engine → Prop}
    {R : Engine → Prop} (hwal : e.dir.wal.isSome = true)
    (h : e.opened = true ∧ Quiet e.faults 4 → ∀ e', e'.faults = e.faults.drop 4 → Same e e' →
      e'.dir.wal.isSome = true → e'.opened = true → Ends m e' H k P R)
    (hR : ¬(e.opened = true ∧ Quiet e.faults 4) → ∀ e', Same e e' → R e') :
    Ends (do walClose; walRemove; walOpen; m) e
      ((e.opened = true ∧ Quiet e.faults 4) ∧ H) (4 + k) P R := by
  have hfour : Quiet e.faults 4 ↔
      Quiet e.faults 2 ∧ Quiet (e.faults.drop 2) 1 ∧ Quiet (e.faults.drop 3) 1 := by
    rw [show Quiet e.faults 4 ↔ _ from quiet_add (n := 2) (k := 2),
      show Quiet (e.faults.drop 2) 2 ↔ _ from quiet_add (n := 1) (k := 1), List.drop_drop]
  rw [hfour] at h hR
  have hguard : (e.opened = true ∧ Quiet e.faults 4) ∧ H ↔
      (e.opened = true ∧ Quiet e.faults 2) ∧
        Quiet (e.faults.drop 2) 1 ∧ Quiet (e.faults.drop 3) 1 ∧ H := by
    rw [hfour]
    simp only [and_assoc]
  have hcount : 4 + k = 2 + (1 + (1 + k)) := by omega
  rw [hcount]
  refine Ends.iff ?_ hguard
  refine ((walClose_ends hwal).knowing.failing fun hno => hR fun hG => hno ⟨hG.1, hG.2.1⟩).bind
    fun _ e₁ hfaults₁ hclosed => ?_
  obtain ⟨⟨hopenOld, htwo⟩, hsame₁⟩ := hclosed
  rw [← hfaults₁] at h hR ⊢
  refine (walRemove_ends.knowing.failing fun hno e' hsame =>
    hR (fun hG => hno hG.2.2.1) e' (hsame₁.trans hsame)).bind fun _ e₂ hfaults₂ hremoved => ?_
  obtain ⟨hremove, hsame₂⟩ := hremoved
  have hsame₂ := hsame₁.trans hsame₂
  have hthree : e.faults.drop 3 = e₂.faults := by rw [hfaults₂, hfaults₁, List.drop_drop]
  rw [hthree] at h hR ⊢
  refine (walOpen_ends.knowing.failing fun hno e' hsame =>
    hR (fun hG => hno hG.2.2.2) e' (hsame₂.trans hsame)).bind fun _ e₃ hfaults₃ hopened => ?_
  obtain ⟨hopens, hsame₃, hwal₃, hopen⟩ := hopened
  refine h ⟨hopenOld, htwo, hremove, hopens⟩ e₃ ?_ (hsame₂.trans hsame₃) hwal₃ hopen
  rw [hfaults₃, ← hthree, List.drop_drop]

end Wal

/-! ## The tables -/

/-- An operation on the files of the tables. -/
structure OnTables (e e' : Engine) : Prop extends Same e e' where
  wal : e'.dir.wal = e.dir.wal
  opened : e'.opened = e.opened

theorem OnTables.refl (e : Engine) : OnTables e e := ⟨.refl e, rfl, rfl⟩

theorem OnTables.trans {e e' e'' : Engine} (h : OnTables e e') (h' : OnTables e' e'') :
    OnTables e e'' :=
  ⟨h.toSame.trans h'.toSame, h'.wal.trans h.wal, h'.opened.trans h.opened⟩

section Tables

variable {e : Engine}

theorem Engine.passed_onTables (e : Engine) : OnTables e e.passed := ⟨e.passed_same, rfl, rfl⟩

/-- A table that could not be written may be there in part. -/
theorem writeTable_ends (seq : Nat) (es : List KvEntry) : Ends (writeTable seq es) e
    (Quiet e.faults 1) 1
    (fun _ e' => OnTables e e' ∧ e'.dir.sst.lookup seq = some (writeSSTable es)) (Same e) := by
  unfold writeTable
  refine .after exec_get rfl ?_
  rw [quiet_one]
  refine ⟨fun hnone => ?_, fun hsome => ?_⟩
  · rw [exec_then nextFault_exec, hnone]
    refine ⟨(), _, rfl, rfl, ⟨⟨rfl, rfl, rfl, rfl, rfl⟩, rfl, rfl⟩, ?_⟩
    show List.lookup seq ((seq, (writeSSTable es).take (writeSSTable es).length) :: _) = _
    rw [List.lookup_cons, beq_self_eq_true, List.take_length]
  · obtain ⟨n, hn⟩ := Option.ne_none_iff_exists'.mp hsome
    rw [exec_then nextFault_exec, hn]
    exact ⟨_, rfl, ⟨rfl, rfl, rfl, rfl, rfl⟩⟩

theorem openTable_ends {seq : Nat} {es : List KvEntry} (hfits : Fits es)
    (hfile : e.dir.sst.lookup seq = some (writeSSTable es)) : Ends (openTable seq) e
    (Quiet e.faults 1) 1 (fun t e' => t = tableOf seq es ∧ OnTables e e') (Same e) := by
  unfold openTable
  refine io_done ?_ e.passed_same
  refine .after exec_get rfl ?_
  have hfile : e.passed.dir.sst.lookup seq = some (writeSSTable es) := hfile
  simp only [hfile, openSSTable_writeSSTable hfits]
  exact .of_ok (exec_pure _) rfl ⟨rfl, e.passed_onTables⟩

/-- A table that cannot be removed stays, and nobody is told. -/
theorem removeTable_ends (t : SSTable) {R : Engine → Prop} :
    Ends (removeTable t) e True 1 (fun _ e' => OnTables e e') R := by
  refine ⟨fun _ => ?_, fun h => absurd trivial h⟩
  unfold removeTable
  rw [exec_then nextFault_exec, exec_ite]
  split
  · exact ⟨(), _, rfl, rfl, ⟨rfl, rfl, rfl, rfl, rfl⟩, rfl, rfl⟩
  · exact ⟨(), _, rfl, rfl, e.passed_onTables⟩

theorem removeTables_ends (ts : List SSTable) {R : Engine → Prop} :
    Ends (ts.forM removeTable) e True ts.length (fun _ e' => OnTables e e') R := by
  induction ts generalizing e with
  | nil => exact .of_ok rfl rfl (.refl e)
  | cons t ts ih =>
    have hrest := ((removeTable_ends (e := e) (R := R) t).bind (f := fun _ => ts.forM removeTable)
      fun _ e' _ hsame => ih.weaken (fun _ e'' hsame' => hsame.trans hsame') fun _ hR => hR)
    rw [Nat.add_comm] at hrest
    exact hrest.iff (and_true True).symm.to_iff

theorem mergeTables_ends {K : Finset Bytes} {levels : List Level} (hroom : K.card < 2 ^ 30)
    (h : ∀ l ∈ levels, Run K l.2) : Ends (mergeTables (levels.map Level.table)) e
      (Quiet e.faults levels.length) levels.length
      (fun merged e' => merged = SortedRun.merge KvEntry.key (levels.map Prod.snd) ∧ OnTables e e')
      (Same e) := by
  induction levels with
  | nil => exact (Ends.of_ok rfl rfl ⟨rfl, .refl e⟩).iff (iff_true_intro (quiet_zero _))
  | cons l levels ih =>
    obtain ⟨hl, hlevels⟩ := List.forall_mem_cons.mp h
    rw [List.map_cons, mergeTables, List.length_cons]
    refine ((ih hlevels).bind (H := Quiet (e.faults.drop levels.length) 1) (k := 1)
      fun merged e' hfaults hmerged => ?_).iff quiet_add
    obtain ⟨rfl, hsame⟩ := hmerged
    rw [← hfaults]
    refine (io_done ?_ e'.passed_same).weaken (fun _ _ hQ => hQ) fun _ hR => hsame.toSame.trans hR
    rw [Level.table, all_tableOf (hl.fits hroom)]
    exact .of_ok (exec_pure _) rfl ⟨rfl, hsame.trans e'.passed_onTables⟩

end Tables

/-! ## Flush and compaction -/

/-- Reads are answered as by `f`. -/
def Answering (K : Finset Bytes) (f : Contents) (e : Engine) : Prop :=
  ∃ levels, Answers K e levels ∧ view e.mem levels = f

/-- The number of file operations of a compaction whose failure is reported. -/
def compactSteps (tables : Nat) : Nat := tables + 2

/-- The same for a flush, with the compaction it starts. -/
def flushSteps (tables : Nat) : Nat :=
  6 + if tables + 1 > maxTablesBeforeCompact then compactSteps (tables + 1) else 0

section Flush

variable {K : Finset Bytes} {e e' : Engine} {levels : List Level}

theorem Answers.same (h : Answers K e levels) (hsame : Same e e') : Answers K e' levels :=
  ⟨h.room, hsame.tables.trans h.tables, h.runs, by rw [hsame.mem]; exact h.mem⟩

theorem Answers.answering_same (h : Answers K e levels) (hsame : Same e e') :
    Answering K (view e.mem levels) e' := ⟨levels, h.same hsame, by rw [hsame.mem]⟩

/-- **A compaction changes no answer, however it ends.** -/
theorem compactLocked_ends (h : Answers K e levels) : Ends compactLocked e
    (Quiet e.faults (compactSteps levels.length)) (compactSteps levels.length + levels.length)
    (fun _ e' => Answering K (view e.mem levels) e') (Answering K (view e.mem levels)) := by
  have hfits : Fits (mergedRun levels) := h.compactedRun.fits h.room
  have hguard : Quiet e.faults (compactSteps levels.length) ↔
      Quiet e.faults levels.length ∧ Quiet (e.faults.drop levels.length) 1 ∧
        Quiet (e.faults.drop (levels.length + 1)) 1 ∧ True := by
    rw [compactSteps, quiet_add, show Quiet _ 2 ↔ _ from quiet_add (n := 1) (k := 1), List.drop_drop,
      and_true]
  have hcount : compactSteps levels.length + levels.length =
      levels.length + (1 + (1 + (0 + levels.length))) := by
    rw [compactSteps]
    omega
  rw [hcount]
  unfold compactLocked
  refine .after exec_get rfl ?_
  rw [h.tables]
  refine Ends.iff ?_ hguard
  refine ((mergeTables_ends h.room h.runs).weaken (fun _ _ hQ => hQ) fun e' hsame =>
    h.answering_same hsame).bind fun merged e₁ hfaults₁ hmerged => ?_
  obtain ⟨rfl, hsame₁⟩ := hmerged
  rw [← hfaults₁]
  refine ((writeTable_ends e.nextSST (mergedRun levels)).weaken (fun _ _ hQ => hQ) fun e' hsame =>
    h.answering_same (hsame₁.toSame.trans hsame)).bind fun _ e₂ hfaults₂ hwritten => ?_
  obtain ⟨hsame₂, hfile⟩ := hwritten
  have hsame₂ := hsame₁.trans hsame₂
  rw [← List.drop_drop, ← hfaults₁, ← hfaults₂]
  refine ((openTable_ends hfits hfile).weaken (fun _ _ hQ => hQ) fun e' hsame =>
    h.answering_same (hsame₂.toSame.trans hsame)).bind fun t e₃ _ hopened => ?_
  obtain ⟨rfl, hsame₃⟩ := hopened
  have hsame₃ := hsame₂.trans hsame₃
  refine Ends.after (exec_modify _) rfl ?_
  have hlength : levels.length = (levels.map Level.table).length := by
    rw [List.length_map]
  rw [Nat.zero_add, hlength]
  refine (removeTables_ends _).weaken (fun _ e' hsame => ?_) fun _ hR => hR
  -- the merged run is the only table now
  refine ⟨[(e.nextSST, mergedRun levels)], ⟨h.room, ?_, ?_, ?_⟩, ?_⟩
  · rw [hsame.tables]
    rfl
  · intro l hl
    rw [List.mem_singleton.mp hl]
    exact h.compactedRun
  · rw [hsame.mem]
    show Run K e₃.mem.nodes
    rw [hsame₃.mem]
    exact h.mem
  · rw [hsame.mem]
    show view e₃.mem _ = _
    rw [hsame₃.mem, h.view_compacted]

theorem quiet_flushSteps {fs : List (Option Nat)} {tables : Nat} :
    Quiet fs (flushSteps tables) ↔ Quiet fs 1 ∧ Quiet (fs.drop 1) 1 ∧ Quiet (fs.drop 2) 4 ∧
      (tables + 1 > maxTablesBeforeCompact → Quiet (fs.drop 6) (compactSteps (tables + 1))) := by
  have hsix : Quiet fs 6 ↔ Quiet fs 1 ∧ Quiet (fs.drop 1) 1 ∧ Quiet (fs.drop 2) 4 := by
    rw [show Quiet fs 6 ↔ _ from quiet_add (n := 1) (k := 5),
      show Quiet (fs.drop 1) 5 ↔ _ from quiet_add (n := 1) (k := 4), List.drop_drop]
  rw [flushSteps, quiet_add, hsix, and_assoc, and_assoc]
  by_cases hmany : tables + 1 > maxTablesBeforeCompact
  · rw [if_pos hmany, forall_prop_of_true hmany]
  · rw [if_neg hmany, iff_true_intro (quiet_zero _)]
    simp only [hmany, false_imp_iff]

/-- What is left of a flush once the WAL is new: the memtable is emptied, and there may be a
    compaction. -/
theorem emptied_ends {m : Memtable} {seq : Nat} (h : Answers K e ((seq, m.nodes) :: levels)) :
    Ends (do
        modify fun e => { e with mem := {} }
        if (← get).tables.length > maxTablesBeforeCompact then compactLocked) e
      (levels.length + 1 > maxTablesBeforeCompact →
        Quiet e.faults (compactSteps (levels.length + 1)))
      (if levels.length + 1 > maxTablesBeforeCompact then
        compactSteps (levels.length + 1) + (levels.length + 1) else 0)
      (fun _ e' => Answering K (view m levels) e') (Answering K (view m levels)) := by
  have hempty : Answers K { e with mem := {} } ((seq, m.nodes) :: levels) :=
    ⟨h.room, h.tables, h.runs, List.Pairwise.nil, by simp⟩
  have hview : view ({ e with mem := {} } : Engine).mem ((seq, m.nodes) :: levels) = view m levels :=
    view_flushed m seq levels
  have hcount : ({ e with mem := {} } : Engine).tables.length = levels.length + 1 := by
    rw [hempty.tables, List.length_map, List.length_cons]
  refine .after (exec_modify _) rfl (.after exec_get rfl ?_)
  rw [hcount]
  by_cases hmany : levels.length + 1 > maxTablesBeforeCompact
  · rw [if_pos hmany, if_pos hmany]
    have hcompact := compactLocked_ends hempty
    rw [hview] at hcompact
    exact hcompact.iff ⟨fun hG => hG hmany, fun hG _ => hG⟩
  · rw [if_neg hmany, if_neg hmany]
    exact (Ends.of_ok (exec_pure _) rfl ⟨_, hempty, hview⟩).iff
      (iff_true_intro fun habs => absurd habs hmany)

/-- **A flush changes no answer, however it ends.** -/
theorem flushLocked_ends (h : Answers K e levels) (hne : e.mem.nodes ≠ [])
    (hwal : e.dir.wal.isSome = true) :
    ∃ n, Ends flushLocked e (e.opened = true ∧ Quiet e.faults (flushSteps levels.length)) n
      (fun _ e' => Answering K (view e.mem levels) e') (Answering K (view e.mem levels)) := by
  have hnonempty : ¬e.mem.entries.length = 0 := fun h0 => hne (List.length_eq_zero_iff.mp h0)
  have hfits : Fits e.mem.entries := h.mem.fits h.room
  have hguard : e.opened = true ∧ Quiet e.faults (flushSteps levels.length) ↔
      Quiet e.faults 1 ∧ Quiet (e.faults.drop 1) 1 ∧
        (e.opened = true ∧ Quiet (e.faults.drop 2) 4) ∧
          (levels.length + 1 > maxTablesBeforeCompact →
            Quiet (e.faults.drop 6) (compactSteps (levels.length + 1))) := by
    rw [quiet_flushSteps]
    constructor
    · rintro ⟨hopen, hwrite, htable, hroll, hcompact⟩
      exact ⟨hwrite, htable, ⟨hopen, hroll⟩, hcompact⟩
    · rintro ⟨hwrite, htable, ⟨hopen, hroll⟩, hcompact⟩
      exact ⟨hopen, hwrite, htable, hroll, hcompact⟩
  refine ⟨1 + (1 + (4 + if levels.length + 1 > maxTablesBeforeCompact then
    compactSteps (levels.length + 1) + (levels.length + 1) else 0)), Ends.iff ?_ hguard⟩
  unfold flushLocked
  refine .after exec_get rfl ?_
  rw [if_neg hnonempty]
  refine ((writeTable_ends e.nextSST e.mem.entries).weaken (fun _ _ hQ => hQ) fun e' hsame =>
    h.answering_same hsame).bind fun _ e₁ hfaults₁ hwritten => ?_
  obtain ⟨hsame₁, hfile⟩ := hwritten
  rw [← hfaults₁]
  refine ((openTable_ends hfits hfile).weaken (fun _ _ hQ => hQ) fun e' hsame =>
    h.answering_same (hsame₁.toSame.trans hsame)).bind fun t e₂ hfaults₂ hopened => ?_
  obtain ⟨rfl, hsame₂⟩ := hopened
  have hsame₂ := hsame₁.trans hsame₂
  have hfaults : e₂.faults = e.faults.drop 2 := by rw [hfaults₂, hfaults₁, List.drop_drop]
  -- from here on the new table is there, and at first the memtable as well
  refine Ends.after (exec_modify _) rfl ?_
  have hboth : Answers K { e₂ with nextSST := e₂.nextSST + 1,
                                   tables := tableOf e.nextSST e.mem.entries :: e₂.tables }
      ((e.nextSST, e.mem.nodes) :: levels) := by
    refine ⟨h.room, ?_, ?_, ?_⟩
    · show _ :: e₂.tables = _
      rw [hsame₂.tables, h.tables]
      rfl
    · exact List.forall_mem_cons.mpr ⟨h.mem, h.runs⟩
    · show Run K e₂.mem.nodes
      rw [hsame₂.mem]
      exact h.mem
  have hview : view e₂.mem ((e.nextSST, e.mem.nodes) :: levels) = view e.mem levels := by
    rw [hsame₂.mem, view_twice]
  have hwal₂ : e₂.dir.wal.isSome = true := by rw [hsame₂.wal, hwal]
  rw [← hsame₂.opened, ← hfaults]
  refine rollWal_then hwal₂ (fun _ e₃ hfaults₃ hsame₃ _ _ => ?_) fun _ e' hsame => ?_
  · have hdrop : e.faults.drop 6 = e₃.faults := by
      rw [hfaults₃]
      show _ = e₂.faults.drop 4
      rw [hfaults, List.drop_drop]
    rw [hdrop]
    exact emptied_ends (hboth.same hsame₃)
  · have hanswers := hboth.answering_same hsame
    rw [show view _ _ = _ from hview] at hanswers
    exact hanswers

end Flush

/-! ## Writing -/

/-- The first part of `write`. -/
def logRecord (key value : Bytes) (tomb : Bool) : EngineM Unit := do
  walAppend (encodeWALRecord key value tomb)
  if (← get).syncWAL then walSync

theorem write_eq (key value : Bytes) (tomb : Bool) (e : Engine) :
    (write key value tomb).exec e = (logRecord key value tomb >>= fun _ =>
      writeMem key value tomb).exec e := by
  unfold write logRecord
  simp only [exec_bind]
  cases hlog : (walAppend (encodeWALRecord key value tomb)).exec e with
  | mk r e₁ =>
    cases r with
    | error x => rfl
    | ok a =>
      simp only [exec_get]
      by_cases hsync : e₁.syncWAL = true
      · simp only [hsync, if_true, exec_bind]
      · simp only [hsync, if_false, exec_pure, Bool.false_eq_true]

/-- The record reaches the WAL. -/
def Engine.Logs (e : Engine) : Prop :=
  Quiet e.faults 1 ∧ (e.syncWAL = true → Quiet (e.faults.drop 1) 1 ∧ e.opened = true)

/-- The file operations this takes. -/
def Engine.logSteps (e : Engine) : Nat := if e.syncWAL then 2 else 1

/-- The flush behind the write of an entry works, or none is due. -/
def Engine.Flushes (e : Engine) (r : KvEntry) : Prop :=
  (e.mem.put r.key r.value r.tombstone).approxSize ≥ e.flushSize →
    e.opened = true ∧ Quiet (e.faults.drop e.logSteps) (flushSteps e.tables.length)

section Write

variable {K : Finset Bytes} {e : Engine} {levels : List Level}

theorem logRecord_ends (hwal : e.dir.wal.isSome = true) (key value : Bytes) (tomb : Bool) :
    Ends (logRecord key value tomb) e e.Logs e.logSteps
      (fun _ e' => Same e e' ∧ e'.dir.wal.isSome = true ∧ e'.opened = e.opened) (Same e) := by
  have hsteps : e.logSteps = 1 + if e.syncWAL then 1 else 0 := by
    rw [Engine.logSteps]
    cases e.syncWAL with
    | true => rfl
    | false => rfl
  rw [hsteps]
  unfold logRecord
  refine (walAppend_ends hwal _).bind fun _ e₁ hfaults happended => ?_
  obtain ⟨hsame, hwal₁, hopened⟩ := happended
  rw [← hfaults, ← hopened]
  refine .after exec_get rfl ?_
  rw [hsame.syncWAL]
  cases hsync : e.syncWAL with
  | true =>
    simp only [if_true, forall_const]
    refine (walSync_ends hwal₁).weaken (fun _ e' hQ => ?_) fun e' hR => hsame.trans hR
    exact ⟨hsame.trans hQ.1, hQ.2.1, hQ.2.2⟩
  | false =>
    simp only [Bool.false_eq_true, if_false, false_imp_iff]
    exact .of_ok (exec_pure _) rfl ⟨hsame, hwal₁, rfl⟩

theorem insert_ne_nil (r : KvEntry) (run : List KvEntry) :
    SortedRun.insert KvEntry.key r run ≠ [] := by
  cases run with
  | nil => exact List.cons_ne_nil _ _
  | cons x run =>
    rw [SortedRun.insert]
    split
    · exact List.cons_ne_nil _ _
    split
    · exact List.cons_ne_nil _ _
    · exact List.cons_ne_nil _ _

/-- **The second part of a write has done its work, however it ends.** -/
theorem writeMem_ends (h : Answers K e levels) (hwal : e.dir.wal.isSome = true) {r : KvEntry}
    (hr : Small K r) :
    ∃ n, Ends (writeMem r.key r.value r.tombstone) e
      ((e.mem.put r.key r.value r.tombstone).approxSize ≥ e.flushSize →
        e.opened = true ∧ Quiet e.faults (flushSteps levels.length)) n
      (fun _ e' => Answering K (Function.update (view e.mem levels) r.key r.live) e')
      (Answering K (Function.update (view e.mem levels) r.key r.live)) := by
  have hput : Answers K { e with mem := e.mem.put r.key r.value r.tombstone } levels :=
    ⟨h.room, h.tables, h.runs, h.mem.put hr⟩
  have hne : (e.mem.put r.key r.value r.tombstone).nodes ≠ [] := by
    rw [Memtable.put_nodes]
    exact insert_ne_nil _ _
  have hview : view (e.mem.put r.key r.value r.tombstone) levels =
      Function.update (view e.mem levels) r.key r.live := view_put h.mem r levels
  obtain ⟨n, hflush⟩ := flushLocked_ends hput hne hwal
  rw [show view _ levels = _ from hview] at hflush
  by_cases hlarge : (e.mem.put r.key r.value r.tombstone).approxSize ≥ e.flushSize
  · refine ⟨n, ?_⟩
    unfold writeMem
    refine .after (exec_modify _) rfl (.after exec_get rfl ?_)
    rw [if_pos (by exact hlarge)]
    exact hflush.iff ⟨fun hG => hG hlarge, fun hG _ => hG⟩
  · refine ⟨0, ?_⟩
    unfold writeMem
    refine .after (exec_modify _) rfl (.after exec_get rfl ?_)
    rw [if_neg (by exact hlarge)]
    exact (Ends.of_ok (exec_pure _) rfl ⟨levels, hput, hview⟩).iff
      (iff_true_intro fun habs => absurd habs hlarge)

/-- **A write that fails has changed nothing or everything.** -/
theorem write_cases (h : Answers K e levels) (hwal : e.dir.wal.isSome = true) {r : KvEntry}
    (hr : Small K r) :
    (¬e.Logs ∧ ∃ e', (write r.key r.value r.tombstone).exec e = (.error .io, e') ∧ Same e e') ∨
    e.Logs ∧ ∃ n, Ends (write r.key r.value r.tombstone) e (e.Flushes r) n
      (fun _ e' => Answering K (Function.update (view e.mem levels) r.key r.live) e')
      (Answering K (Function.update (view e.mem levels) r.key r.live)) := by
  have hlog := logRecord_ends hwal r.key r.value r.tombstone
  have hlength : levels.length = e.tables.length := by rw [h.tables, List.length_map]
  by_cases hlogs : e.Logs
  · obtain ⟨a, e₁, hexec, hfaults, hsame, hwal₁, hopened⟩ := hlog.works hlogs
    obtain ⟨n, hmem⟩ := writeMem_ends (h.same hsame) hwal₁ hr
    rw [hsame.mem, hsame.flushSize, hopened, hfaults, hlength] at hmem
    refine Or.inr ⟨hlogs, e.logSteps + n, fun hG => ?_, fun hG => ?_⟩
    · obtain ⟨u, e', hexec', hfaults', hanswers⟩ := hmem.works hG
      refine ⟨u, e', by rw [write_eq, exec_then hexec, hexec'], ?_, hanswers⟩
      rw [hfaults', hfaults, List.drop_drop]
    · obtain ⟨e', hexec', hanswers⟩ := hmem.fails hG
      exact ⟨e', by rw [write_eq, exec_then hexec, hexec'], hanswers⟩
  · obtain ⟨e', hexec, hsame⟩ := hlog.fails hlogs
    exact Or.inl ⟨hlogs, e', by rw [write_eq, exec_bind, hexec], hsame⟩

/-- Without a handle a write panics at once. -/
theorem write_nilWal (hwal : e.dir.wal = none) (key value : Bytes) (tomb : Bool) :
    (write key value tomb).exec e = (.error .nilWal, e) := by
  have happend : (walAppend (encodeWALRecord key value tomb)).exec e = (.error .nilWal, e) := by
    unfold walAppend
    rw [exec_bind, walHandle_nilWal hwal]
  unfold write
  rw [exec_bind, happend]

end Write

/-! ## Loading a snapshot -/

/-- The number of file operations before the first one that fails. -/
def firstFault (fs : List (Option Nat)) : Nat := (fs.takeWhile Option.isNone).length

theorem firstFault_cons (fs : List (Option Nat)) : firstFault (none :: fs) = firstFault fs + 1 := rfl

/-- The first of more than `n` operations that fails is the next one. -/
theorem firstFault_eq {fs : List (Option Nat)} {n : Nat} (h : Quiet fs n)
    (hnext : ¬Quiet (fs.drop n) 1) : firstFault fs = n := by
  induction n generalizing fs with
  | zero =>
    rw [List.drop_zero, quiet_one] at hnext
    cases fs with
    | nil => exact absurd rfl hnext
    | cons f fs =>
      obtain ⟨x, hx⟩ := Option.ne_none_iff_exists'.mp hnext
      have hf : f = some x := hx
      rw [hf]
      rfl
  | succ n ih =>
    cases fs with
    | nil =>
      rw [List.drop_nil, quiet_one] at hnext
      exact absurd rfl hnext
    | cons f fs =>
      have hf : f = none := h f (by rw [List.take_succ_cons]; exact List.mem_cons_self)
      subst hf
      have hrest : Quiet fs n := fun g hg => h g (by
        rw [List.take_succ_cons]
        exact List.mem_cons_of_mem _ hg)
      rw [firstFault_cons, ih hrest hnext]

/-- The WAL can be closed, removed and opened again after the tables were removed. -/
def Engine.Rolls (e : Engine) : Prop :=
  e.opened = true ∧ Quiet (e.faults.drop e.tables.length) 4

instance instDecidableRolls (e : Engine) : Decidable e.Rolls :=
  inferInstanceAs (Decidable (_ ∧ _))

/-- How many pairs a reset has loaded when it comes to its end. -/
def Engine.loaded (e : Engine) : Nat :=
  if e.Rolls then firstFault (e.faults.drop (e.tables.length + 4)) else 0

section Reset

variable {K : Finset Bytes} {e : Engine} {entries : List (Bytes × Bytes)} {f : Contents}

theorem loadPair_ends (h : Answers K e []) (hwal : e.dir.wal.isSome = true) {p : Bytes × Bytes}
    (hp : Small K ⟨p.1, p.2, false⟩) : Ends (loadPair p) e (Quiet e.faults 1) 1
      (fun _ e' => Answers K e' [] ∧ view e'.mem [] = (view e.mem []).load p ∧
        e'.dir.wal.isSome = true ∧ e'.opened = e.opened) (Same e) := by
  unfold loadPair
  refine Ends.iff ((walAppend_ends hwal _).bind (H := True) (k := 0) fun _ e₁ _ happended => ?_)
    (and_true _).symm.to_iff
  obtain ⟨hsame, hwal₁, hopened⟩ := happended
  have hanswers := h.same hsame
  refine .of_ok (exec_modify _) rfl ⟨⟨h.room, hanswers.tables, hanswers.runs, ?_⟩, ?_, hwal₁, hopened⟩
  · exact hanswers.mem.put hp
  · rw [← hsame.mem]
    exact view_put hanswers.mem ⟨p.1, p.2, false⟩ []

/-- Loading stops at the pair whose record cannot be written. -/
theorem loadPairs_ends (h : Answers K e []) (hwal : e.dir.wal.isSome = true)
    (hsmall : ∀ p ∈ entries, Small K ⟨p.1, p.2, false⟩) :
    Ends (entries.forM loadPair) e (Quiet e.faults entries.length) entries.length
      (fun _ e' => Answers K e' [] ∧ view e'.mem [] = entries.foldl Contents.load (view e.mem []) ∧
        e'.dir.wal.isSome = true ∧ e'.opened = e.opened)
      (Answering K ((entries.take (firstFault e.faults)).foldl Contents.load (view e.mem []))) := by
  induction entries generalizing e with
  | nil => exact (Ends.of_ok rfl rfl ⟨h, rfl, hwal, rfl⟩).iff (iff_true_intro (quiet_zero _))
  | cons p entries ih =>
    obtain ⟨hp, hsmall⟩ := List.forall_mem_cons.mp hsmall
    have hload := loadPair_ends h hwal hp
    have hsplit : Quiet e.faults (p :: entries).length ↔
        Quiet e.faults 1 ∧ Quiet (e.faults.drop 1) entries.length := by
      rw [List.length_cons, Nat.add_comm]
      exact quiet_add
    refine ⟨fun hG => ?_, fun hG => ?_⟩
    · obtain ⟨hfirst, hrest⟩ := hsplit.mp hG
      obtain ⟨a, e₁, hexec, hfaults, h₁, hview, hwal₁, hopened⟩ := hload.works hfirst
      rw [← hfaults] at hrest
      obtain ⟨b, e₂, hexec₂, hfaults₂, h₂, hview₂, hwal₂, hopened₂⟩ := (ih h₁ hwal₁ hsmall).works hrest
      refine ⟨b, e₂, ?_, ?_, h₂, ?_, hwal₂, hopened₂.trans hopened⟩
      · show (loadPair p >>= fun _ => entries.forM loadPair).exec e = _
        rw [exec_then hexec, hexec₂]
      · rw [hfaults₂, hfaults, List.drop_drop, List.length_cons, Nat.add_comm]
      · rw [hview₂, hview, List.foldl_cons]
    · by_cases hfirst : Quiet e.faults 1
      · obtain ⟨a, e₁, hexec, hfaults, h₁, hview, hwal₁, -⟩ := hload.works hfirst
        have hrest : ¬Quiet e₁.faults entries.length := fun hrest =>
          hG (hsplit.mpr ⟨hfirst, by rw [← hfaults]; exact hrest⟩)
        obtain ⟨e₂, hexec₂, hanswers⟩ := (ih h₁ hwal₁ hsmall).fails hrest
        refine ⟨e₂, ?_, ?_⟩
        · show (loadPair p >>= fun _ => entries.forM loadPair).exec e = _
          rw [exec_then hexec, hexec₂]
        · -- the operation for the first pair was the first of all
          have hcount : firstFault e.faults = firstFault e₁.faults + 1 := by
            rw [hfaults]
            cases hfs : e.faults with
            | nil =>
              rw [hfaults, hfs] at hrest
              exact absurd (fun g hg => by simp at hg) hrest
            | cons g fs =>
              rw [hfs, quiet_one] at hfirst
              have hg : g = none := hfirst
              rw [hg]
              rfl
          rw [hcount, List.take_succ_cons, List.foldl_cons, ← hview]
          exact hanswers
      · obtain ⟨e₁, hexec, hsame⟩ := hload.fails hfirst
        refine ⟨e₁, ?_, ?_⟩
        · show (loadPair p >>= fun _ => entries.forM loadPair).exec e = _
          rw [exec_bind, hexec]
        · have hzero : firstFault e.faults = 0 := firstFault_eq (quiet_zero _) hfirst
          rw [hzero]
          exact h.answering_same hsame

/-- The pairs of a map that are loaded are looked up in it. -/
theorem view_loaded (hunique : (entries.map Prod.fst).Nodup) (n : Nat) (m : Memtable)
    (hm : m.nodes = []) : (entries.take n).foldl Contents.load (view m []) =
      fun key => (entries.take n).lookup key := by
  funext key
  rw [foldl_load (hunique.sublist ((List.take_sublist n entries).map _)), view, hm]
  exact Option.or_none

/-- **A reset that fails leaves the pairs it has loaded, and nothing else.** -/
theorem reset_ends {levels : List Level} (h : Answers K e levels) (hwal : e.dir.wal.isSome = true)
    (hsmall : ∀ p ∈ entries, Small K ⟨p.1, p.2, false⟩) (hunique : (entries.map Prod.fst).Nodup) :
    Ends (reset entries) e
      (e.Rolls ∧ Quiet (e.faults.drop (e.tables.length + 4)) (entries.length + 1))
      (e.tables.length + (4 + (entries.length + 1)))
      (fun _ e' => Answering K (fun key => entries.lookup key) e')
      (Answering K fun key => (entries.take e.loaded).lookup key) := by
  unfold reset
  refine .after exec_get rfl ?_
  refine Ends.iff ((removeTables_ends e.tables).bind (H := e.Rolls ∧
    Quiet (e.faults.drop (e.tables.length + 4)) (entries.length + 1)) fun _ e₁ hfaults₁ hsame₁ => ?_)
    (true_and _).symm.to_iff
  refine .after (exec_modify _) rfl ?_
  have hempty : Answers K { e₁ with tables := [], mem := {} } [] :=
    ⟨h.room, rfl, List.forall_mem_nil _, List.Pairwise.nil, by simp⟩
  have hrolls : e.Rolls ↔ e₁.opened = true ∧ Quiet e₁.faults 4 := by
    rw [Engine.Rolls, hsame₁.opened, hfaults₁]
  have hwal₁ : e₁.dir.wal.isSome = true := by rw [hsame₁.wal, hwal]
  have hfaults : e.faults.drop (e.tables.length + 4) = e₁.faults.drop 4 := by
    rw [hfaults₁, List.drop_drop]
  rw [hrolls, hfaults]
  refine rollWal_then hwal₁ (fun hG e₂ hfaults₂ hsame₂ hwal₂ hopen₂ => ?_) fun hno e' hsame => ?_
  · have hloaded : e.loaded = firstFault e₂.faults := by
      rw [Engine.loaded, if_pos (hrolls.mpr hG), hfaults, hfaults₂]
    have hmem : e₂.mem.nodes = [] := by rw [hsame₂.mem]
    have hfaults₂ : e₁.faults.drop 4 = e₂.faults := hfaults₂.symm
    rw [hloaded, hfaults₂, quiet_add]
    have hload := (loadPairs_ends (hempty.same hsame₂) hwal₂ hsmall).knowing
    rw [view_loaded hunique _ _ hmem] at hload
    refine hload.bind fun _ e₃ hfaults₃ hloads => ?_
    obtain ⟨hquiet, hanswers, hview, hwal₃, hopen₃⟩ := hloads
    have hall : view e₃.mem [] = fun key => entries.lookup key := by
      have hwhole := view_loaded hunique entries.length e₂.mem hmem
      rw [List.take_length] at hwhole
      rw [hview, hwhole]
    rw [← hfaults₃]
    refine (((walSync_ends hwal₃).weaken (fun _ e' hQ => ?_) fun _ hR => hR).failing
      fun hno e' hsame => ?_).iff ⟨fun hG => ⟨hG, hopen₃.trans hopen₂⟩, fun hG => hG.1⟩
    · exact ⟨[], hanswers.same hQ.1, by rw [hQ.1.mem, hall]⟩
    · -- the sync is the operation behind the last pair
      have hlast : firstFault e₂.faults = entries.length := by
        refine firstFault_eq hquiet fun hsync => hno ⟨?_, hopen₃.trans hopen₂⟩
        rw [hfaults₃]
        exact hsync
      rw [hlast, List.take_length]
      exact ⟨[], hanswers.same hsame, by rw [hsame.mem, hall]⟩
  · -- nothing was loaded
    have hzero : e.loaded = 0 := if_neg (mt hrolls.mp hno)
    have hanswers := hempty.answering_same hsame
    rw [hzero]
    exact hanswers

/-- Without a handle a reset removes the tables and panics. -/
theorem reset_nilWal (hwal : e.dir.wal = none) (entries : List (Bytes × Bytes)) :
    ∃ e', (reset entries).exec e = (.error .nilWal, e') ∧ e'.tables = [] ∧ e'.mem = {} := by
  obtain ⟨u, e₁, hremove, -, hsame⟩ :=
    (removeTables_ends (e := e) (R := fun _ => True) e.tables).works trivial
  have hclose : walClose.exec { e₁ with tables := [], mem := {} } =
      (.error .nilWal, { e₁ with tables := [], mem := {}, opened := false }) := by
    have hsync : walSync.exec { e₁ with tables := [], mem := {} } =
        (.error .nilWal, { e₁ with tables := [], mem := {} }) := by
      unfold walSync
      rw [exec_bind, walHandle_nilWal (e := { e₁ with tables := [], mem := {} })
        (hsame.wal.trans hwal)]
    unfold walClose
    rw [exec_bind, exec_tryCatch, hsync]
    rfl
  refine ⟨{ e₁ with tables := [], mem := {}, opened := false }, ?_, rfl, rfl⟩
  unfold reset
  rw [exec_then exec_get, exec_then hremove, exec_then (exec_modify _), exec_bind, hclose]

end Reset

end Storage
end DistKV
