import DistKV.Raft.Storage

/-!
# What file operations can do, whichever of them fail

Every storage call is a sequence of file operations with memory updates between them, and any
operation may fail and end the call. `Guard P F` collects what a property `P` of the storage
needs so that it survives all of that: it does not look at the environment's bookkeeping, an
fsync cannot hurt it, and it gives every state of the files on the way the property `F`. For
such a `P` there is one rule for each call (`Guard.setHardState` and so on), whose premises are
the single writes of the call.
-/

namespace DistKV
namespace Raft

namespace Files

/-- The files with one more record behind the last fsync. -/
def write (f : Files) (r : WalRecord) : Files := { f with unsynced := f.unsynced ++ [r] }

/-- The files after an fsync of the WAL. -/
def flush (f : Files) : Files := { f with synced := f.synced ++ f.unsynced, unsynced := [] }

end Files

namespace DiskStorage

def withFiles (s : DiskStorage) (f : Files) : DiskStorage :=
  { s with disk := { s.disk with files := f } }

end DiskStorage

/-! ## One file operation -/

/-- A file operation either fails and leaves the files alone, or takes them to `f`. -/
structure Disk.Into (d : Disk) (f : Files) (r : Disk × Bool) : Prop where
  files : r.1.files = if r.2 then f else d.files
  trail : r.1.trail = if r.2 then d.trail ++ [f] else d.trail

theorem Disk.io_files (d : Disk) : d.io.1.files = d.files ∧ d.io.1.trail = d.trail := by
  rw [Disk.io]
  split <;> exact ⟨rfl, rfl⟩

theorem Disk.ios_files (d : Disk) (n : Nat) :
    (d.ios n).1.files = d.files ∧ (d.ios n).1.trail = d.trail := by
  induction n generalizing d with
  | zero => exact ⟨rfl, rfl⟩
  | succ n ih =>
    have hio := d.io_files
    rw [Disk.ios, andThen]
    split
    · exact ⟨(ih _).1.trans hio.1, (ih _).2.trans hio.2⟩
    · exact hio

theorem Disk.replace_into (d : Disk) (change : Files → Files) :
    d.Into (change d.files) (d.replace change) := by
  have hio := d.io_files
  rw [Disk.replace, andThen]
  split
  · constructor <;> simp [Disk.put, hio.1, hio.2]
  · next h => constructor <;> simp [h, hio.1, hio.2]

theorem Disk.append_into (d : Disk) (r : WalRecord) : d.Into (d.files.write r) (d.append r) := by
  have hio := d.io_files
  rw [Disk.append, andThen]
  split
  · constructor <;> simp [Disk.put, hio.1, hio.2, Files.write]
  · next h => constructor <;> simp [h, hio.1, hio.2]

theorem Disk.sync_into (d : Disk) : d.Into d.files.flush d.sync := by
  have hio := d.io_files
  rw [Disk.sync, andThen]
  split
  · split
    · constructor <;> simp [Disk.put, hio.1, hio.2, Files.flush]
    · constructor <;> simp [hio.1, hio.2]
  · next h => constructor <;> simp [h, hio.1, hio.2]

/-! ## Guards -/

structure Guard (P : DiskStorage → Prop) (F : Files → Prop) : Prop where
  quiet : ∀ {s : DiskStorage} {d : Disk} {b : Bool}, d.files = s.disk.files → P s →
    P { s with disk := d, dirty := b }
  files : ∀ {s : DiskStorage}, P s → F s.disk.files
  flush : ∀ {s : DiskStorage}, P s → P (s.withFiles s.disk.files.flush)

/-- `P` holds and every state of the files on the way satisfies `F`. -/
def Kept (P : DiskStorage → Prop) (F : Files → Prop) (s : DiskStorage) : Prop :=
  P s ∧ ∀ f ∈ s.disk.trail, F f

theorem andThen_ind {α : Type} {P : α → Prop} {r : α × Bool} {k : α → α × Bool} (h : P r.1)
    (hk : r.2 = true → P (k r.1).1) : P (andThen r k).1 := by
  rw [andThen]
  split
  · next h2 => exact hk h2
  · exact h

/-- A sequence that succeeds went through its first call. -/
theorem andThen_ok {α : Type} {r : α × Bool} {k : α → α × Bool} (h : (andThen r k).2 = true) :
    r.2 = true ∧ andThen r k = k r.1 := by
  by_cases hr : r.2 = true
  · exact ⟨hr, if_pos hr⟩
  · rw [andThen, if_neg hr] at h
    exact absurd h hr

theorem andThen_assoc {α : Type} (r : α × Bool) (k k' : α → α × Bool) :
    andThen (andThen r k) k' = andThen r fun a => andThen (k a) k' := by
  cases h : r.2 <;> simp [andThen, h]

namespace Guard

variable {P : DiskStorage → Prop} {F : Files → Prop} {s : DiskStorage}

/-- A file operation that may take the files to `f`. -/
theorem into (g : Guard P F) (op : Disk → Disk × Bool) {f : Files} (hop : s.disk.Into f (op s.disk))
    (h : Kept P F s) (hf : P (s.withFiles f)) : Kept P F (s.onDisk op).1 := by
  obtain ⟨hfiles, htrail⟩ := hop
  cases hok : (op s.disk).2 with
  | false =>
    rw [hok] at hfiles htrail
    exact ⟨g.quiet (b := s.dirty) hfiles h.1, fun x hx => h.2 x (by
      simpa [DiskStorage.onDisk, htrail] using hx)⟩
  | true =>
    rw [hok] at hfiles htrail
    refine ⟨g.quiet (s := s.withFiles f) (b := s.dirty) hfiles hf, fun x hx => ?_⟩
    rw [DiskStorage.onDisk, htrail] at hx
    rcases List.mem_append.mp hx with hx | hx
    · exact h.2 x hx
    · rw [List.mem_singleton.mp hx]
      exact g.files hf

theorem quietly (g : Guard P F) (op : Disk → Disk × Bool)
    (hop : (op s.disk).1.files = s.disk.files ∧ (op s.disk).1.trail = s.disk.trail)
    (h : Kept P F s) : Kept P F (s.onDisk op).1 :=
  ⟨g.quiet (b := s.dirty) hop.1 h.1, fun x hx => h.2 x (hop.2 ▸ hx)⟩

theorem syncDisk (g : Guard P F) (h : Kept P F s) : Kept P F (s.onDisk Disk.sync).1 :=
  g.into _ s.disk.sync_into h (g.flush h.1)

theorem sync (g : Guard P F) (h : Kept P F s) : Kept P F s.sync.1 := by
  rw [DiskStorage.sync]
  split
  · exact h
  · have hs := g.syncDisk h
    exact andThen_ind hs fun _ => ⟨g.quiet rfl hs.1, hs.2⟩

/-- A record appended and synced. -/
theorem record (g : Guard P F) {r : WalRecord} (h : Kept P F s)
    (hr : P (s.withFiles (s.disk.files.write r))) :
    Kept P F (andThen (s.onDisk (·.append r)) (·.onDisk Disk.sync)).1 := by
  have ha := g.into (·.append r) (s.disk.append_into r) h hr
  exact andThen_ind ha fun _ => g.syncDisk ha

theorem setHardState (g : Guard P F) {term votedFor : Nat} (h : Kept P F s)
    (hm : P { s with term := term, votedFor := votedFor })
    (hr : P ({ s with term := term, votedFor := votedFor }.withFiles
      (s.disk.files.write (.hardState term votedFor)))) :
    Kept P F (s.setHardState term votedFor).1 :=
  g.record (s := { s with term := term, votedFor := votedFor }) ⟨hm, h.2⟩ hr

theorem setConfState (g : Guard P F) {c : ConfState} (h : Kept P F s) (hm : P { s with conf := c })
    (hr : P ({ s with conf := c }.withFiles (s.disk.files.write (.confState c)))) :
    Kept P F (s.setConfState c).1 :=
  g.record (s := { s with conf := c }) ⟨hm, h.2⟩ hr

/-- The loop of `appendEntries`; `Q es` is the invariant with `es` still to come. -/
theorem appendLoop (g : Guard P F) {Q : List Entry → DiskStorage → Prop}
    (hQ : ∀ {es s}, Q es s → P s)
    (hquiet : ∀ {es} {s : DiskStorage} {d : Disk} {b : Bool}, d.files = s.disk.files → Q es s →
      Q es { s with disk := d, dirty := b })
    (hstep : ∀ {e es} {s : DiskStorage}, Q (e :: es) s →
      Q es ({ s with log := s.log ++ [e] }.withFiles (s.disk.files.write (.append e))))
    {es : List Entry} (h : Kept (Q es) F s) : Kept P F (s.appendLoop es).1 := by
  induction es generalizing s with
  | nil => exact ⟨hQ h.1, h.2⟩
  | cons e es ih =>
    obtain ⟨hfiles, htrail⟩ := s.disk.append_into (.append e)
    rw [DiskStorage.appendLoop]
    cases hok : (s.disk.append (.append e)).2 with
    | false =>
      rw [hok] at hfiles htrail
      simp only [andThen, DiskStorage.onDisk, hok, Bool.false_eq_true, if_false]
      exact ⟨g.quiet (b := s.dirty) hfiles (hQ h.1), fun x hx => h.2 x (by rwa [htrail] at hx)⟩
    | true =>
      rw [hok] at hfiles htrail
      simp only [andThen, DiskStorage.onDisk, hok, if_true]
      refine ih ⟨hquiet (b := s.dirty) hfiles (hstep h.1), fun x hx => ?_⟩
      rw [htrail] at hx
      rcases List.mem_append.mp hx with hx | hx
      · exact h.2 x hx
      · rw [List.mem_singleton.mp hx]
        exact g.files (hQ (hstep h.1))

/-- `appendEntries`: the truncation, where record and slice change together, then the loop. -/
theorem appendEntries (g : Guard P F) {Q : List Entry → DiskStorage → Prop}
    (hQ : ∀ {es s}, Q es s → P s)
    (hquiet : ∀ {es} {s : DiskStorage} {d : Disk} {b : Bool}, d.files = s.disk.files → Q es s →
      Q es { s with disk := d, dirty := b })
    (hstep : ∀ {e es} {s : DiskStorage}, Q (e :: es) s →
      Q es ({ s with log := s.log ++ [e] }.withFiles (s.disk.files.write (.append e))))
    {es : List Entry} (h : Kept P F s)
    (hsame : ∀ e es', es = e :: es' → (∀ x, s.log.getLast? = some x → x.index < e.index) → Q es s)
    (htrunc : ∀ e es' x, es = e :: es' → s.log.getLast? = some x → x.index ≥ e.index →
      Q es ({ s with log := truncateFrom s.log e.index }.withFiles
        (s.disk.files.write (.truncate e.index)))) :
    Kept P F (s.appendEntries es).1 := by
  cases es with
  | nil => exact h
  | cons e es =>
    have loop : ∀ {s : DiskStorage}, Kept (Q (e :: es)) F s → Kept P F
        (andThen (s.appendLoop (e :: es)) fun s => ({ s with dirty := true }, true)).1 := by
      intro s hs
      have hl := g.appendLoop (Q := Q) hQ hquiet hstep hs
      exact andThen_ind hl fun _ => ⟨g.quiet rfl hl.1, hl.2⟩
    rw [DiskStorage.appendEntries, DiskStorage.truncateConflict]
    cases hl : s.log.getLast? with
    | none => exact loop ⟨hsame e es rfl (by simp [hl]), h.2⟩
    | some x =>
      simp only
      by_cases hge : x.index ≥ e.index
      swap
      · rw [if_neg hge]
        exact loop ⟨hsame e es rfl (by simp only [hl, Option.some.injEq]; rintro _ rfl; omega), h.2⟩
      rw [if_pos hge]
      obtain ⟨hfiles, htrail⟩ := s.disk.append_into (.truncate e.index)
      cases hok : (s.disk.append (.truncate e.index)).2 with
      | false =>
        rw [hok] at hfiles htrail
        simp only [andThen, DiskStorage.onDisk, hok, Bool.false_eq_true, if_false]
        exact ⟨g.quiet (b := s.dirty) hfiles h.1, fun x hx => h.2 x (by rwa [htrail] at hx)⟩
      | true =>
        rw [hok] at hfiles htrail
        have ht := htrunc e es x rfl hl hge
        simp only [andThen, DiskStorage.onDisk, hok, if_true]
        refine loop ⟨hquiet (b := s.dirty) hfiles ht, fun f hf => ?_⟩
        rw [htrail] at hf
        rcases List.mem_append.mp hf with hf | hf
        · exact h.2 f hf
        · rw [List.mem_singleton.mp hf]
          exact g.files (hQ ht)

/-- `appendEntries` of one entry right behind the log: nothing is cut, and the entry is in the file
    and in the slice or in neither. -/
theorem appendNext (g : Guard P F) {e : Entry} (next : e.index = s.lastIndex + 1)
    (h : Kept P F s) (hp : (s.appendEntries [e]).2 = true →
      P ({ s with log := s.log ++ [e] }.withFiles (s.disk.files.write (.append e)))) :
    Kept P F (s.appendEntries [e]).1 := by
  have hcut : s.truncateConflict e.index = (s, true) := by
    rw [DiskStorage.truncateConflict]
    rw [DiskStorage.lastIndex] at next
    cases hl : s.log.getLast? with
    | none => rfl
    | some x =>
      rw [hl] at next
      exact if_neg (by simp only at next; omega)
  obtain ⟨hfiles, htrail⟩ := s.disk.append_into (.append e)
  simp only [DiskStorage.appendEntries, hcut, DiskStorage.appendLoop, andThen, if_true,
    DiskStorage.onDisk] at hp ⊢
  cases hok : (s.disk.append (.append e)).2 with
  | false =>
    rw [hok] at hfiles htrail
    simp only [Bool.false_eq_true, if_false]
    exact ⟨g.quiet (b := s.dirty) hfiles h.1, fun x hx => h.2 x (by rwa [htrail] at hx)⟩
  | true =>
    rw [hok] at hfiles htrail
    simp only [hok, if_true] at hp ⊢
    have hnew := hp trivial
    refine ⟨g.quiet (b := true) hfiles hnew, fun x hx => ?_⟩
    rw [htrail] at hx
    rcases List.mem_append.mp hx with hx | hx
    · exact h.2 x hx
    · rw [List.mem_singleton.mp hx]
      exact g.files hnew

/-- Closing the WAL leaves it synced or as it was. -/
theorem closeDisk (g : Guard P F) (h : Kept P F s) :
    Kept P F (s.onDisk Disk.close).1 ∧ ((s.onDisk Disk.close).1.disk.files = s.disk.files ∨
      (s.onDisk Disk.close).1.disk.files = s.disk.files.flush) := by
  have hclose : s.disk.close.1.files = s.disk.sync.1.files ∧
      s.disk.close.1.trail = s.disk.sync.1.trail := by
    rw [Disk.close, andThen]
    split
    · exact Disk.io_files _
    · exact ⟨rfl, rfl⟩
  have hs := g.syncDisk h
  refine ⟨⟨g.quiet (s := (s.onDisk Disk.sync).1) (b := s.dirty) hclose.1 hs.1, fun x hx => ?_⟩, ?_⟩
  · refine hs.2 x ?_
    rwa [DiskStorage.onDisk, hclose.2] at hx
  · rw [DiskStorage.onDisk, hclose.1, s.disk.sync_into.files]
    cases s.disk.sync.2
    · exact .inl rfl
    · exact .inr rfl

/-- The rewrite of the WAL: it ends with the new file in place or with the old one. -/
theorem rewriteWal (g : Guard P F) {conf : ConfState} (h : Kept P F s)
    (hr : ∀ f : Files, f = s.disk.files ∨ f = s.disk.files.flush → P (s.withFiles
      { f with synced := s.snapshotRecords conf, unsynced := [] })) :
    Kept P F (s.rewriteWal conf).1 := by
  have hios := s.disk.ios_files (1 + (s.snapshotRecords conf).length + 2)
  have h1 := g.quietly (·.ios (1 + (s.snapshotRecords conf).length + 2)) hios h
  refine andThen_ind h1 fun _ => ?_
  obtain ⟨h2, hfiles⟩ := g.closeDisk h1
  refine andThen_ind h2 fun _ => ?_
  -- only the disk has changed so far
  generalize hd : ((s.onDisk fun d => d.ios (1 + (s.snapshotRecords conf).length + 2)).1.onDisk
    Disk.close).1 = s2 at h2 hfiles ⊢
  obtain ⟨d, rfl⟩ : ∃ d, s2 = { s with disk := d } := ⟨_, hd.symm⟩
  replace hfiles : d.files = s.disk.files ∨ d.files = s.disk.files.flush := by
    rwa [DiskStorage.onDisk, hios.1] at hfiles
  have h3 := g.into (·.replace _)
    (d.replace_into fun f => { f with synced := s.snapshotRecords conf, unsynced := [] }) h2
    (g.quiet (s := s.withFiles { d.files with synced := s.snapshotRecords conf, unsynced := [] })
      (d := { d with files := { d.files with synced := s.snapshotRecords conf, unsynced := [] } })
      (b := s.dirty) rfl (hr d.files hfiles))
  refine andThen_ind h3 fun _ => ?_
  refine ⟨g.quiet (Disk.io_files _).1 h3.1, fun x hx => h3.2 x ?_⟩
  rwa [show ∀ d : Disk, ({ d.io.1 with opened := d.io.2 } : Disk).trail = d.trail from
    fun d => d.io_files.2] at hx

/-- A file is replaced and the call goes on, only the disk having changed. -/
theorem replaceThen (g : Guard P F) {d : Disk} {change : Files → Files}
    {k : DiskStorage → DiskStorage × Bool} (h : Kept P F { s with disk := d })
    (hp : P (s.withFiles (change d.files)))
    (hk : ∀ d', d'.files = change d.files → Kept P F { s with disk := d' } →
      Kept P F (k { s with disk := d' }).1) :
    Kept P F (andThen ({ s with disk := d }.onDisk (·.replace change)) k).1 := by
  have h1 := g.into (s := { s with disk := d }) (·.replace change) (d.replace_into change) h
    (g.quiet (s := s.withFiles (change d.files)) (d := { d with files := change d.files })
      (b := s.dirty) rfl hp)
  refine andThen_ind h1 fun hok => hk _ ?_ h1
  have := (d.replace_into change).files
  rwa [show (d.replace change).2 = true from hok] at this

/-- `saveSnapshot`, write by write. -/
theorem saveSnapshot (g : Guard P F) {index term : Nat} {data : Bytes} {conf : ConfState}
    (h : Kept P F s)
    (hbin : P (s.withFiles { s.disk.files with snapshotBin := some data }))
    (hmeta : s.snapIndex < index → P (s.withFiles
      { s.disk.files with snapshotBin := some data, snapshotMeta := some (index, term) }))
    (hconf : s.snapIndex < index → P (s.withFiles
      { s.disk.files with
        snapshotBin := some data, snapshotMeta := some (index, term), snapshotConf := some conf }))
    (hmem : s.snapIndex < index → P ({ s with
        log := s.log.filter fun e => decide (e.index > index)
        snapIndex := index, snapTerm := term, snapshot := data, conf := conf }.withFiles
      { s.disk.files with
        snapshotBin := some data, snapshotMeta := some (index, term), snapshotConf := some conf }))
    (hwal : s.snapIndex < index → ∀ f : Files, f.snapshotBin = some data →
      f.snapshotMeta = some (index, term) → f.snapshotConf = some conf → f.unsynced = [] →
      f.synced = .hardState s.term s.votedFor :: .confState conf ::
        (s.log.filter fun e => decide (e.index > index)).map .append →
      P ({ s with
        log := s.log.filter fun e => decide (e.index > index)
        snapIndex := index, snapTerm := term, snapshot := data, conf := conf }.withFiles f)) :
    Kept P F (s.saveSnapshot index term data conf).1 := by
  rw [DiskStorage.saveSnapshot]
  split
  · exact h
  next hlt =>
  replace hlt : s.snapIndex < index := Nat.lt_of_not_le hlt
  rw [DiskStorage.writeSnapshot, andThen_assoc]
  refine g.replaceThen h hbin fun d₁ hd₁ h₁ => ?_
  rw [andThen_assoc]
  refine g.replaceThen h₁ (by rw [hd₁]; exact hmeta hlt) fun d₂ hd₂ h₂ => ?_
  refine g.replaceThen h₂ (by rw [hd₂, hd₁]; exact hconf hlt) fun d₃ hd₃ h₃ => ?_
  rw [hd₂, hd₁] at hd₃
  refine g.rewriteWal ⟨?_, h₃.2⟩ ?_
  · exact g.quiet (b := s.dirty) hd₃ (hmem hlt)
  · intro f hf
    -- the snapshot files are the new ones, whether the old WAL could be synced or not
    have hsnap : f.snapshotBin = some data ∧ f.snapshotMeta = some (index, term) ∧
        f.snapshotConf = some conf := by
      rcases hf with rfl | rfl
      · rw [hd₃]; exact ⟨rfl, rfl, rfl⟩
      · rw [hd₃]; exact ⟨rfl, rfl, rfl⟩
    have hnew := hwal hlt { f with synced := _, unsynced := [] } hsnap.1 hsnap.2.1 hsnap.2.2 rfl rfl
    have hq := g.quiet (d := { d₃ with files := { f with synced := _, unsynced := [] } })
      (b := s.dirty) rfl hnew
    exact hq

end Guard

/-! ## What the calls leave in memory -/

/-- Everything about the storage but its log and its disk is the same. -/
structure SameHead (s s' : DiskStorage) : Prop where
  term : s'.term = s.term
  votedFor : s'.votedFor = s.votedFor
  conf : s'.conf = s.conf
  snapIndex : s'.snapIndex = s.snapIndex
  snapTerm : s'.snapTerm = s.snapTerm

theorem SameHead.refl (s : DiskStorage) : SameHead s s := ⟨rfl, rfl, rfl, rfl, rfl⟩

theorem SameHead.trans {s s' s'' : DiskStorage} (h : SameHead s s') (h' : SameHead s' s'') :
    SameHead s s'' :=
  ⟨h'.term.trans h.term, h'.votedFor.trans h.votedFor, h'.conf.trans h.conf,
    h'.snapIndex.trans h.snapIndex, h'.snapTerm.trans h.snapTerm⟩

section Head

variable {s : DiskStorage}

theorem onDisk_head (op : Disk → Disk × Bool) : SameHead s (s.onDisk op).1 :=
  ⟨rfl, rfl, rfl, rfl, rfl⟩

theorem sync_head : SameHead s s.sync.1 := by
  rw [DiskStorage.sync]
  split
  · exact .refl s
  · exact andThen_ind (onDisk_head _) fun _ => ⟨rfl, rfl, rfl, rfl, rfl⟩

theorem sync_log : s.sync.1.log = s.log := by
  rw [DiskStorage.sync]
  split
  · rfl
  · exact andThen_ind (P := fun s' : DiskStorage => s'.log = s.log) rfl fun _ => rfl

theorem appendLoop_head (es : List Entry) : SameHead s (s.appendLoop es).1 := by
  induction es generalizing s with
  | nil => exact .refl s
  | cons e es ih =>
    refine andThen_ind (onDisk_head _) fun _ => ?_
    have hone : SameHead s { (s.onDisk (·.append (.append e))).1 with
      log := (s.onDisk (·.append (.append e))).1.log ++ [e] } := ⟨rfl, rfl, rfl, rfl, rfl⟩
    exact hone.trans ih

theorem truncateConflict_head (first : Nat) : SameHead s (s.truncateConflict first).1 := by
  rw [DiskStorage.truncateConflict]
  split
  · split
    · exact andThen_ind (onDisk_head _) fun _ => ⟨rfl, rfl, rfl, rfl, rfl⟩
    · exact .refl s
  · exact .refl s

theorem appendEntries_head (es : List Entry) : SameHead s (s.appendEntries es).1 := by
  cases es with
  | nil => exact .refl s
  | cons e es =>
    have ht := truncateConflict_head (s := s) e.index
    refine andThen_ind ht fun _ => ?_
    have hl := appendLoop_head (s := (s.truncateConflict e.index).1) (e :: es)
    exact andThen_ind (ht.trans hl) fun _ =>
      (ht.trans hl).trans ⟨rfl, rfl, rfl, rfl, rfl⟩

/-- The three files of a snapshot are a matter of the disk. -/
theorem writeSnapshot_rest (index term : Nat) (data : Bytes) (conf : ConfState) :
    ∃ d, (s.writeSnapshot index term data conf).1 = { s with disk := d } := by
  rw [DiskStorage.writeSnapshot]
  exact andThen_ind (P := fun s' : DiskStorage => ∃ d, s' = { s with disk := d }) ⟨_, rfl⟩ fun _ =>
    andThen_ind (P := fun s' : DiskStorage => ∃ d, s' = { s with disk := d }) ⟨_, rfl⟩ fun _ =>
      ⟨_, rfl⟩

/-- The new WAL is one of the disk and of the flag. -/
theorem rewriteWal_rest (conf : ConfState) :
    ∃ d b, (s.rewriteWal conf).1 = { s with disk := d, dirty := b } := by
  have hdisk : ∀ d : Disk, ∃ d' b, { s with disk := d } = { s with disk := d', dirty := b } :=
    fun d => ⟨d, s.dirty, rfl⟩
  rw [DiskStorage.rewriteWal]
  exact andThen_ind
    (P := fun s' : DiskStorage => ∃ d b, s' = { s with disk := d, dirty := b }) (hdisk _) fun _ =>
    andThen_ind
      (P := fun s' : DiskStorage => ∃ d b, s' = { s with disk := d, dirty := b }) (hdisk _) fun _ =>
      andThen_ind
        (P := fun s' : DiskStorage => ∃ d b, s' = { s with disk := d, dirty := b }) (hdisk _)
        fun _ => ⟨_, _, rfl⟩

/-- A snapshot changes neither term nor vote, and its index replaces a smaller one. -/
theorem saveSnapshot_head (index term : Nat) (data : Bytes) (conf : ConfState) :
    (s.saveSnapshot index term data conf).1.term = s.term ∧
      (s.saveSnapshot index term data conf).1.votedFor = s.votedFor ∧
      ((s.saveSnapshot index term data conf).1.snapIndex = s.snapIndex ∨
        s.snapIndex < index ∧ (s.saveSnapshot index term data conf).1.snapIndex = index) := by
  rw [DiskStorage.saveSnapshot]
  split
  · exact ⟨rfl, rfl, .inl rfl⟩
  next hlt =>
  have hw : SameHead s (s.writeSnapshot index term data conf).1 := by
    obtain ⟨d, hd⟩ := writeSnapshot_rest (s := s) index term data conf
    rw [hd]
    exact ⟨rfl, rfl, rfl, rfl, rfl⟩
  have hr : ∀ s conf, SameHead s (DiskStorage.rewriteWal s conf).1 := by
    intro s conf
    obtain ⟨d, b, hd⟩ := rewriteWal_rest (s := s) conf
    rw [hd]
    exact ⟨rfl, rfl, rfl, rfl, rfl⟩
  rw [andThen]
  split
  · have h := hr { (s.writeSnapshot index term data conf).1 with
      log := (s.writeSnapshot index term data conf).1.log.filter fun e => decide (e.index > index)
      snapIndex := index, snapTerm := term, snapshot := data, conf := conf } conf
    exact ⟨h.term.trans hw.term, h.votedFor.trans hw.votedFor,
      .inr ⟨Nat.lt_of_not_le hlt, h.snapIndex⟩⟩
  · exact ⟨hw.term, hw.votedFor, .inl hw.snapIndex⟩

theorem setConfState_head (c : ConfState) : (s.setConfState c).1.term = s.term ∧
    (s.setConfState c).1.votedFor = s.votedFor ∧ (s.setConfState c).1.snapIndex = s.snapIndex := by
  rw [DiskStorage.setConfState, andThen]
  split <;> exact ⟨rfl, rfl, rfl⟩

end Head

end Raft
end DistKV
