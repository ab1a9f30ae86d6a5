import DistKV.Raft.Storage

/-!
# What the WAL replays to

`openDiskStorage` folds one callback over the records. It is a fold in each component
separately: the hard state is the last one written, the configuration the last non-empty one,
and the log is built by appends and truncations with everything the snapshot covers left out.

The log in memory is what its own WAL replays to, and along every prefix of the WAL the indices
are consecutive (`Stored`). Both survive any failure of any file operation: a failed append is
neither in the file nor in the slice. They are what a later recovery rests on, from whatever
state of the files the crash finds (`Recoverable`).
-/

namespace DistKV
namespace Raft

/-! ## The fold in components -/

def replayHard (h : Nat × Nat) : WalRecord → Nat × Nat
  | .hardState term votedFor => (term, votedFor)
  | _ => h

def replayLog (snapIndex : Nat) (log : List Entry) : WalRecord → List Entry
  | .append e => if e.index > snapIndex then log ++ [e] else log
  | .truncate first => truncateFrom log first
  | _ => log

def replayConf (conf : ConfState) : WalRecord → ConfState
  | .confState c => if c.voters.card > 0 then c else conf
  | _ => conf

/-- The hard state some records leave behind. -/
def hardOf (recs : List WalRecord) : Nat × Nat := recs.foldl replayHard (0, 0)

/-- The log they leave behind, above a snapshot. -/
def logOf (snapIndex : Nat) (recs : List WalRecord) : List Entry :=
  recs.foldl (replayLog snapIndex) []

def confOf (conf : ConfState) (recs : List WalRecord) : ConfState := recs.foldl replayConf conf

namespace Files

/-- The index `snapshot.meta` announces. -/
def snapIndex (f : Files) : Nat := (f.snapshotMeta.map (·.1)).getD 0

def snapTerm (f : Files) : Nat := (f.snapshotMeta.map (·.2)).getD 0

/-- All records of the WAL, synced or not. -/
def records (f : Files) : List WalRecord := f.synced ++ f.unsynced

/-- The configuration before the WAL is replayed. -/
def snapConf (f : Files) (bootstrap : List Nat) : ConfState :=
  match f.snapshotMeta, f.snapshotConf with
  | some _, some cs => if cs.voters.card > 0 then cs else .newConfState bootstrap
  | _, _ => .newConfState bootstrap

/-- `snapshot.bin` is written before `snapshot.meta`. -/
def Readable (f : Files) : Prop := f.snapshotMeta.isSome → f.snapshotBin.isSome

end Files

theorem foldl_replayRecord (recs : List WalRecord) (s : DiskStorage) :
    recs.foldl DiskStorage.replayRecord s =
      { s with
        term := (recs.foldl replayHard (s.term, s.votedFor)).1
        votedFor := (recs.foldl replayHard (s.term, s.votedFor)).2
        log := recs.foldl (replayLog s.snapIndex) s.log
        conf := recs.foldl replayConf s.conf } := by
  induction recs generalizing s with
  | nil => rfl
  | cons r recs ih =>
    rw [List.foldl_cons, ih]
    cases r with
    | hardState term votedFor => rfl
    | append e =>
      by_cases h : e.index > s.snapIndex
      · simp [DiskStorage.replayRecord, replayHard, replayLog, replayConf, h]
      · simp [DiskStorage.replayRecord, replayHard, replayLog, replayConf, h]
    | truncate first => rfl
    | confState c =>
      by_cases h : c.voters.card > 0
      · simp [DiskStorage.replayRecord, replayHard, replayLog, replayConf, h]
      · simp [DiskStorage.replayRecord, replayHard, replayLog, replayConf, h]

/-- What `openDiskStorage` recovers, file by file. -/
structure Recovered (f : Files) (bootstrap : List Nat) (s : DiskStorage) : Prop where
  disk : s.disk = { files := f }
  term : s.term = (hardOf f.synced).1
  votedFor : s.votedFor = (hardOf f.synced).2
  dirty : s.dirty = false
  conf : s.conf = confOf (f.snapConf bootstrap) f.synced
  log : s.log = logOf f.snapIndex f.synced
  snapIndex : s.snapIndex = f.snapIndex
  snapTerm : s.snapTerm = f.snapTerm
  snapshot : s.snapshot = if f.snapshotMeta.isSome then f.snapshotBin.getD [] else []

theorem recovered_of_open {f : Files} {bootstrap : List Nat} {s : DiskStorage}
    (h : DiskStorage.openDiskStorage f bootstrap = some s) : Recovered f bootstrap s := by
  rw [DiskStorage.openDiskStorage, Option.map_eq_some_iff] at h
  obtain ⟨s₀, h₀, rfl⟩ := h
  rw [foldl_replayRecord]
  cases hm : f.snapshotMeta with
  | none =>
    simp only [DiskStorage.loadSnapshot, hm, Option.some.injEq] at h₀
    subst h₀
    constructor <;>
      simp [hardOf, logOf, confOf, Files.snapIndex, Files.snapTerm, Files.snapConf, hm]
  | some m =>
    obtain ⟨snapIndex, snapTerm⟩ := m
    simp only [DiskStorage.loadSnapshot, hm] at h₀
    cases hb : f.snapshotBin with
    | none => simp [hb] at h₀
    | some data =>
      simp only [hb, Option.some.injEq] at h₀
      subst h₀
      cases hc : f.snapshotConf <;> constructor <;>
        simp [hardOf, logOf, confOf, Files.snapIndex, Files.snapTerm, Files.snapConf, hm, hc, hb]

theorem open_isSome {f : Files} (h : f.Readable) (bootstrap : List Nat) :
    ∃ s, DiskStorage.openDiskStorage f bootstrap = some s := by
  rw [DiskStorage.openDiskStorage]
  cases hm : f.snapshotMeta with
  | none => simp [DiskStorage.loadSnapshot, hm]
  | some m =>
    obtain ⟨data, hb⟩ := Option.isSome_iff_exists.mp (h (by rw [hm]; rfl))
    simp [DiskStorage.loadSnapshot, hm, hb]

@[simp] theorem logOf_append (b : Nat) (recs : List WalRecord) (r : WalRecord) :
    logOf b (recs ++ [r]) = replayLog b (logOf b recs) r := by
  simp [logOf]

@[simp] theorem hardOf_append (recs : List WalRecord) (r : WalRecord) :
    hardOf (recs ++ [r]) = replayHard (hardOf recs) r := by
  simp [hardOf]

@[simp] theorem confOf_append (c : ConfState) (recs : List WalRecord) (r : WalRecord) :
    confOf c (recs ++ [r]) = replayConf (confOf c recs) r := by
  simp [confOf]

/-- What is replayed into the log was appended to the WAL. -/
theorem mem_logOf {b : Nat} {recs : List WalRecord} {e : Entry} (h : e ∈ logOf b recs) :
    .append e ∈ recs := by
  induction recs using List.reverseRecOn with
  | nil => cases h
  | append_singleton recs r ih =>
    rw [logOf_append] at h
    cases r with
    | hardState term votedFor => exact List.mem_append_left _ (ih h)
    | confState c => exact List.mem_append_left _ (ih h)
    | truncate first =>
      exact List.mem_append_left _ (ih ((List.rdropWhile_prefix _ _).subset h))
    | append x =>
      rw [replayLog] at h
      split at h
      · rcases List.mem_append.mp h with hold | hnew
        · exact List.mem_append_left _ (ih hold)
        · rw [List.mem_singleton.mp hnew]
          exact List.mem_append_right _ (List.mem_singleton_self _)
      · exact List.mem_append_left _ (ih h)

/-- A record about the log. -/
def WalRecord.IsLog : WalRecord → Prop
  | .append _ => True
  | .truncate _ => True
  | _ => False

/-- Records that leave `a` alone. -/
theorem foldl_idle_at {α : Type} {f : α → WalRecord → α} {a : α} {recs : List WalRecord}
    (h : ∀ r ∈ recs, f a r = a) : recs.foldl f a = a := by
  induction recs with
  | nil => rfl
  | cons r recs ih =>
    rw [List.foldl_cons, h r List.mem_cons_self]
    exact ih fun x hx => h x (List.mem_cons_of_mem _ hx)

theorem foldl_idle {α : Type} {f : α → WalRecord → α} {P : WalRecord → Prop}
    {recs : List WalRecord} (hf : ∀ a r, P r → f a r = a) (h : ∀ r ∈ recs, P r) (a : α) :
    recs.foldl f a = a :=
  foldl_idle_at fun r hr => hf a r (h r hr)

theorem hardOf_logs (recs : List WalRecord) {recs' : List WalRecord} (h : ∀ r ∈ recs', r.IsLog) :
    hardOf (recs ++ recs') = hardOf recs := by
  rw [hardOf, List.foldl_append]
  refine foldl_idle (fun a r hr => ?_) h _
  cases r with
  | append e => rfl
  | truncate first => rfl
  | _ => exact hr.elim

theorem confOf_logs (recs : List WalRecord) {recs' : List WalRecord} (h : ∀ r ∈ recs', r.IsLog)
    (c : ConfState) : confOf c (recs ++ recs') = confOf c recs := by
  rw [confOf, List.foldl_append]
  refine foldl_idle (fun a r hr => ?_) h _
  cases r with
  | append e => rfl
  | truncate first => rfl
  | _ => exact hr.elim

theorem logOf_others (b : Nat) (recs : List WalRecord) {recs' : List WalRecord}
    (h : ∀ r ∈ recs', ¬r.IsLog) : logOf b (recs ++ recs') = logOf b recs := by
  rw [logOf, List.foldl_append]
  refine foldl_idle (fun a r hr => ?_) h _
  cases r with
  | hardState term votedFor => rfl
  | confState c => rfl
  | _ => exact absurd trivial hr

/-- The records of a list of entries. -/
theorem isLog_map_append {es : List Entry} : ∀ r ∈ es.map WalRecord.append, r.IsLog := by
  intro r hr
  obtain ⟨x, -, rfl⟩ := List.mem_map.mp hr
  trivial

/-! ## Consecutive indices -/

/-- The entry at position `k` has index `b + 1 + k`. -/
def Chain (b : Nat) (log : List Entry) : Prop :=
  ∀ (k : Nat) (e : Entry), log[k]? = some e → e.index = b + 1 + k

namespace Chain

variable {b : Nat} {log : List Entry}

theorem nil : Chain b [] := fun _ _ h => by simp at h

theorem concat {e : Entry} (h : Chain b log) (he : e.index = b + 1 + log.length) :
    Chain b (log ++ [e]) := by
  intro k x hx
  rcases Nat.lt_or_ge k log.length with hk | hk
  · rw [List.getElem?_append_left hk] at hx
    exact h k x hx
  · rw [List.getElem?_append_right hk] at hx
    have h0 : k - log.length = 0 := by
      have := (List.getElem?_eq_some_iff.mp hx).1
      simp at this
      omega
    rw [h0] at hx
    obtain rfl : e = x := by simpa using hx
    omega

theorem restrict {log' : List Entry} (h : Chain b log) (hp : log' <+: log) : Chain b log' := by
  intro k e he
  obtain ⟨rest, rfl⟩ := hp
  refine h k e ?_
  rw [List.getElem?_append_left (List.getElem?_eq_some_iff.mp he).1]
  exact he

theorem drop (h : Chain b log) (n : Nat) : Chain (b + n) (log.drop n) := by
  intro k e he
  rw [List.getElem?_drop] at he
  have := h _ e he
  omega

theorem tail {e : Entry} (h : Chain b (e :: log)) : Chain (b + 1) log := by
  have := h.drop 1
  simpa using this

theorem head {e : Entry} (h : Chain b (e :: log)) : e.index = b + 1 := by
  have := h 0 e rfl
  omega

/-- Leaving out what a snapshot at `s` covers drops a front part. -/
theorem filter (h : Chain b log) {s : Nat} (hs : b ≤ s) :
    log.filter (fun e => decide (e.index > s)) = log.drop (s - b) := by
  induction log generalizing b with
  | nil => simp
  | cons e log ih =>
    have he := h.head
    rcases Nat.eq_or_lt_of_le hs with rfl | hlt
    · rw [Nat.sub_self, List.drop_zero, List.filter_eq_self]
      intro x hx
      obtain ⟨k, hk, rfl⟩ := List.getElem_of_mem hx
      have := h k _ (List.getElem?_eq_getElem hk)
      simp only [gt_iff_lt, decide_eq_true_eq]
      omega
    · obtain ⟨d, hd⟩ : ∃ d, s - b = d + 1 := ⟨s - b - 1, by omega⟩
      rw [List.filter_cons_of_neg (by simp; omega), ih h.tail hlt, hd, List.drop_succ_cons]
      congr 1
      omega

/-- Truncation keeps the entries below `first`. -/
theorem truncateFrom (h : Chain b log) (first : Nat) :
    truncateFrom log first = log.take (first - (b + 1)) := by
  induction log using List.reverseRecOn with
  | nil => simp [Raft.truncateFrom]
  | append_singleton log e ih =>
    have he : e.index = b + 1 + log.length := h _ e (by simp)
    rw [Raft.truncateFrom, List.rdropWhile_concat]
    by_cases hge : e.index ≥ first
    · rw [if_pos (by simpa using hge)]
      have := ih (h.restrict (List.prefix_append _ _))
      rw [Raft.truncateFrom] at this
      rw [this, List.take_append_of_le_length (by omega)]
    · rw [if_neg (by simpa using hge), List.take_of_length_le (by simp; omega)]

theorem getLast? (h : Chain b log) {e : Entry} (he : log.getLast? = some e) :
    e.index = b + log.length := by
  rw [List.getLast?_eq_getElem?] at he
  have hlt := (List.getElem?_eq_some_iff.mp he).1
  have := h _ e he
  omega

end Chain

/-- Along every prefix of the records the log above `b` is consecutive. -/
def WalOk (b : Nat) (recs : List WalRecord) : Prop := ∀ p, p <+: recs → Chain b (logOf b p)

theorem WalOk.nil {b : Nat} : WalOk b [] := by
  intro p hp
  rw [List.prefix_nil.mp hp]
  exact Chain.nil

theorem WalOk.restrict {b : Nat} {recs p : List WalRecord} (h : WalOk b recs) (hp : p <+: recs) :
    WalOk b p := fun _ hq => h _ (hq.trans hp)

theorem WalOk.chain {b : Nat} {recs : List WalRecord} (h : WalOk b recs) : Chain b (logOf b recs) :=
  h recs (List.prefix_refl _)

theorem WalOk.concat {b : Nat} {recs : List WalRecord} {r : WalRecord} (h : WalOk b recs)
    (hr : Chain b (replayLog b (logOf b recs) r)) : WalOk b (recs ++ [r]) := by
  intro p hp
  rcases List.prefix_concat_iff.mp hp with rfl | hp
  · rwa [logOf_append]
  · exact h p hp

/-- Replaying above a later snapshot leaves out what that snapshot covers. -/
theorem logOf_filter {b s : Nat} (hs : b ≤ s) {recs : List WalRecord} (h : WalOk b recs) :
    logOf s recs = (logOf b recs).filter fun e => decide (e.index > s) := by
  induction recs using List.reverseRecOn with
  | nil => rfl
  | append_singleton recs r ih =>
    have hp : recs <+: recs ++ [r] := List.prefix_append _ _
    have hc := (h.restrict hp).chain
    rw [logOf_append, logOf_append, ih (h.restrict hp)]
    cases r with
    | hardState => rfl
    | confState => rfl
    | append e =>
      by_cases hes : e.index > s
      · have heb : e.index > b := by omega
        simp [replayLog, hes, heb]
      · by_cases heb : e.index > b
        · simp [replayLog, hes, heb]
        · simp [replayLog, hes, heb]
    | truncate first =>
      -- both sides are a slice of the log above `b`
      simp only [replayLog]
      have hcut := hc.restrict (List.take_prefix (first - (b + 1)) _)
      have hdrop : Chain s ((logOf b recs).drop (s - b)) := by
        have := hc.drop (s - b)
        rwa [Nat.add_sub_cancel' hs] at this
      rw [hc.truncateFrom, hcut.filter hs, hc.filter hs, hdrop.truncateFrom, List.drop_take]
      congr 1
      omega

theorem WalOk.rebase {b s : Nat} {recs : List WalRecord} (h : WalOk b recs) (hs : b ≤ s) :
    WalOk s recs := by
  intro p hp
  have hc := (h.restrict hp).chain
  rw [logOf_filter hs (h.restrict hp), hc.filter hs]
  have := hc.drop (s - b)
  rwa [Nat.add_sub_cancel' hs] at this

end Raft
end DistKV
