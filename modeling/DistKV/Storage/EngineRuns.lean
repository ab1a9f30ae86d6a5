import DistKV.Storage.EngineRefines

/-!
# The engine is a map

Runs of an engine on one directory: puts, deletes, flushes, resets, and a close with a new open, whose
options may be others. After each of them `Get` answers as a plain map that was fed the same
operations (`engine_refines_map`).

A record of the WAL has a length field of 32 bits, and its payload is five bytes longer than the key
and the value together. So a pair may be too long for a record although each part of it is short:
`Close` and `OpenEngine` lose it (`long_record_lost`).
-/

namespace DistKV
namespace Storage

/-- The public operations of the engine; the pairs of a `Reset` are those of a Go map. -/
inductive EngineOp where
  | put (key value : Bytes)
  | delete (key : Bytes)
  | flush
  | reset (entries : List (Bytes × Bytes)) (unique : (entries.map Prod.fst).Nodup)
  /-- `Close`, and `OpenEngine` on the same directory. -/
  | reopen (opts : EngineOptions)

/-- An operation as a function on engines. -/
def EngineM.result (m : EngineM Unit) (e : Engine) : Except EngineError Engine :=
  match m.exec e with
  | (.ok _, e') => .ok e'
  | (.error x, _) => .error x

namespace EngineOp

def run : EngineOp → Engine → Except EngineError Engine
  | put key value, e => (write key value false).result e
  | delete key, e => (write key [] true).result e
  | flush, e => flushLocked.result e
  | reset entries _, e => (Storage.reset entries).result e
  | reopen opts, e => do
    let e ← close.result e
    openEngine opts e.dir

/-- What the operation does to a map. -/
def onMap : EngineOp → Contents → Contents
  | put key value, f => Function.update f key (some value)
  | delete key, f => Function.update f key none
  | reset entries _, _ => fun key => entries.lookup key
  | flush, f => f
  | reopen _, f => f

/-- The entries the operation writes to the WAL. -/
def writes : EngineOp → List KvEntry
  | put key value => [⟨key, value, false⟩]
  | delete key => [⟨key, [], true⟩]
  | reset entries _ => entries.map fun p => ⟨p.1, p.2, false⟩
  | flush => []
  | reopen _ => []

end EngineOp

/-- The operations one after the other, on an engine opened in an empty directory. -/
def runEngine (opts : EngineOptions) (ops : List EngineOp) : Except EngineError Engine := do
  let e ← openEngine opts {}
  ops.foldlM (fun e op => op.run e) e

/-- The keys that are written. -/
def writtenKeys (ops : List EngineOp) : Finset Bytes :=
  ((ops.flatMap EngineOp.writes).map KvEntry.key).toFinset

section Run

variable {K : Finset Bytes} {e : Engine} {levels : List Level}

theorem result_ok {m : EngineM Unit} {e' : Engine} (h : m.exec e = (.ok (), e')) :
    m.result e = .ok e' := by
  rw [EngineM.result, h]

/-- **One operation.** -/
theorem Stores.step (h : Stores K e levels) (hd : e.Durable K) {op : EngineOp}
    (hop : ∀ r ∈ op.writes, Small K r) :
    ∃ e' levels', op.run e = .ok e' ∧ Stores K e' levels' ∧ e'.Durable K ∧
      view e'.mem levels' = op.onMap (view e.mem levels) := by
  cases op with
  | put key value =>
    obtain ⟨e', levels', hexec, hs, hd', hv⟩ := h.write (hop _ (List.mem_singleton_self _))
    exact ⟨e', levels', result_ok hexec, hs, hd' hd, hv⟩
  | delete key =>
    obtain ⟨e', levels', hexec, hs, hd', hv⟩ := h.write (hop _ (List.mem_singleton_self _))
    exact ⟨e', levels', result_ok hexec, hs, hd' hd, hv⟩
  | flush =>
    obtain ⟨e', levels', hexec, hs, hd', hv⟩ := h.flush
    exact ⟨e', levels', result_ok hexec, hs, hd' hd, hv⟩
  | reset entries unique =>
    obtain ⟨e', hexec, hs⟩ := h.reset (fun p hp => hop _ (List.mem_map.mpr ⟨p, hp, rfl⟩)) unique
    exact ⟨e', [], result_ok hexec, hs⟩
  | reopen opts =>
    obtain ⟨e₁, e', hclose, hopen, hs, hd', hm⟩ := h.reopen hd opts
    refine ⟨e', levels, ?_, hs, hd', by rw [hm]; rfl⟩
    rw [EngineOp.run, result_ok hclose]
    exact hopen

/-- **A whole run.** -/
theorem Stores.steps (h : Stores K e levels) (hd : e.Durable K) {ops : List EngineOp}
    (hops : ∀ op ∈ ops, ∀ r ∈ op.writes, Small K r) :
    ∃ e' levels', ops.foldlM (fun e op => op.run e) e = .ok e' ∧ Stores K e' levels' ∧ e'.Durable K ∧
      view e'.mem levels' = ops.foldl (fun f op => op.onMap f) (view e.mem levels) := by
  induction ops generalizing e levels with
  | nil => exact ⟨e, levels, rfl, h, hd, rfl⟩
  | cons op ops ih =>
    obtain ⟨e₁, levels₁, hrun, hs, hd₁, hv⟩ := h.step hd (hops op List.mem_cons_self)
    obtain ⟨e', levels', hrest, hs', hd', hv'⟩ :=
      ih hs hd₁ fun o ho => hops o (List.mem_cons_of_mem _ ho)
    refine ⟨e', levels', ?_, hs', hd', ?_⟩
    · rw [List.foldlM_cons, hrun]
      exact hrest
    · rw [hv', hv, List.foldl_cons]

/-- The two bounds: on the length of a record, and on the number of keys. -/
structure Bounded (ops : List EngineOp) : Prop where
  size : ∀ op ∈ ops, ∀ r ∈ op.writes, 5 + r.key.length + r.value.length < 2 ^ 32
  keys : (writtenKeys ops).card < 2 ^ 30

/-- **Every reachable engine is one that `Stores` describes.** -/
theorem runEngine_stores (opts : EngineOptions) (ops : List EngineOp) (h : Bounded ops) :
    ∃ e levels, runEngine opts ops = .ok e ∧ Stores (writtenKeys ops) e levels ∧
      e.Durable (writtenKeys ops) ∧
      view e.mem levels = ops.foldl (fun f op => op.onMap f) (fun _ => none) := by
  have hops : ∀ op ∈ ops, ∀ r ∈ op.writes, Small (writtenKeys ops) r := by
    intro op hop r hr
    refine ⟨List.mem_toFinset.mpr (List.mem_map_of_mem ?_), h.size op hop r hr⟩
    exact List.mem_flatMap.mpr ⟨op, hop, hr⟩
  obtain ⟨e₀, hopen, hs₀, hd₀, hm₀⟩ := openEngine_durable opts (d := {}) h.keys
    (by exact (List.map_nil (f := Level.file)).symm) .nil (by simp) .empty
  obtain ⟨e, levels, hrun, hs, hd, hv⟩ := hs₀.steps hd₀ hops
  refine ⟨e, levels, ?_, hs, hd, ?_⟩
  · rw [runEngine, hopen]
    exact hrun
  · rw [hv, hm₀]
    rfl

end Run

/-- **The engine refines a map.** After any operations, on fewer than `2 ^ 30` keys and with every
    WAL record short enough for its length field, none of them has failed and each key is answered
    as by a map that was fed the same operations. -/
theorem engine_refines_map (opts : EngineOptions) (ops : List EngineOp)
    (hsize : ∀ op ∈ ops, ∀ r ∈ op.writes, 5 + r.key.length + r.value.length < 2 ^ 32)
    (hkeys : (writtenKeys ops).card < 2 ^ 30) :
    ∃ e, runEngine opts ops = .ok e ∧
      ∀ key, e.get key = .ok (ops.foldl (fun f op => op.onMap f) (fun _ => none) key) := by
  obtain ⟨e, levels, hrun, hs, -, hv⟩ := runEngine_stores opts ops ⟨hsize, hkeys⟩
  refine ⟨e, hrun, fun key => ?_⟩
  rw [hs.get, hv]

/-- The empty key and the empty value, with a flush at every write and a delete that has to hide an
    older table over a reopening. -/
theorem engine_refines_map_sample : ∃ e, runEngine { flushSize := 1 }
    [.put [] [], .put [97] [], .delete [], .reopen {}] = .ok e ∧ e.get [] = .ok none ∧
      e.get [97] = .ok (some []) := by
  obtain ⟨e, hrun, hget⟩ := engine_refines_map { flushSize := 1 }
    [.put [] [], .put [97] [], .delete [], .reopen {}] (by decide) (by decide)
  exact ⟨e, hrun, hget [], hget [97]⟩

/-! ## Records that are too long -/

section Long

variable {payload value : Bytes}

/-- The length field of a payload of `2 ^ 32` bytes says zero. -/
theorem readFrame_long (h : payload.length = 2 ^ 32) : readFrame (frame payload) =
    if checksumIEEE [] ≠ checksumIEEE payload then none else some ([], payload) := by
  have hlen : ¬(frame payload).length < 8 := by
    rw [length_frame]
    omega
  have hcrc : getUint32 (frame payload) = checksumIEEE payload := by
    rw [frame, List.append_assoc, getUint32_putUint32]
  have hn : (getUint32 ((frame payload).drop 4)).toNat = 0 := by
    have hdrop := drop_four_frame payload []
    rw [List.append_nil] at hdrop
    rw [hdrop, getUint32_putUint32, UInt32.toNat_ofNat', h, Nat.mod_self]
  have hbody : (frame payload).drop 8 = payload := by
    have hdrop := drop_eight_frame payload []
    rwa [List.append_nil, List.append_nil] at hdrop
  rw [readFrame, if_neg hlen]
  simp only [hcrc, hn, hbody, Nat.not_lt_zero, if_false, List.take_zero, List.drop_zero]

/-- Either the checksum tells that the frame is broken, or the empty payload is no record. -/
theorem replay_long (h : payload.length = 2 ^ 32) (m : Memtable) :
    replayWAL replayPut (frame payload) m = .ok m ∨
      replayWAL replayPut (frame payload) m = .error .shortRecord := by
  have hfuel : (frame payload).length = (7 + payload.length) + 1 := by
    rw [length_frame]
    omega
  rw [replayWAL, hfuel, replayLoop, readFrame_long h]
  by_cases hcrc : checksumIEEE [] = checksumIEEE payload
  · rw [if_neg (not_not_intro hcrc)]
    exact .inr rfl
  · rw [if_pos hcrc]
    exact .inl rfl

/-- An engine whose memtable is never flushed, in an empty directory. -/
def largeFlushSize : EngineOptions := { flushSize := 2 ^ 40 }

theorem put_long (h : value.length = 2 ^ 32 - 5) : ∃ e₀ e₁, openEngine largeFlushSize {} = .ok e₀ ∧
    (write [] value false).exec e₀ = (.ok (), e₁) ∧ e₁.dir.sst = [] ∧
    Calm e₁ ((openWAL []).append (encodeWALRecord [] value false)).sync := by
  let e₀ : Engine :=
    { dir := { wal := some (openWAL []) }, flushSize := 2 ^ 40, syncWAL := true }
  have hopen : openEngine largeFlushSize {} = .ok e₀ := rfl
  have hsize : ¬(({} : Memtable).put [] value false).approxSize ≥ 2 ^ 40 := by
    show ¬(0 + ((0 : Nat) + value.length + 32) : Int) ≥ 2 ^ 40
    omega
  let w := (openWAL []).append (encodeWALRecord [] value false)
  let e₁ : Engine :=
    { e₀ with
      dir := { wal := some w.sync }
      mem := ({} : Memtable).put [] value false
      trail := [{ wal := some w }, { wal := some w.sync }] }
  refine ⟨e₀, e₁, hopen, ?_, rfl, rfl, rfl, rfl⟩
  rw [write, exec_then (walAppend_calm (w := openWAL []) ⟨rfl, rfl, rfl⟩ _), exec_then exec_get]
  show (if true = true then walSync >>= fun _ => writeMem [] value false else
    writeMem [] value false).exec _ = _
  rw [if_pos rfl, exec_then (walSync_calm (by exact ⟨rfl, rfl, rfl⟩)), writeMem,
    exec_then (exec_modify _), exec_then exec_get, exec_ite, if_neg (by exact hsize)]
  rfl

/-- The replay stops at the record, or `OpenEngine` fails. -/
theorem reopen_long (h : value.length = 2 ^ 32 - 5) :
    ¬∃ e, runEngine largeFlushSize [.put [] value, .reopen {}] = .ok e ∧
      e.get [] = .ok (some value) := by
  have hpayload : (encodeWALRecord [] value false).length = 2 ^ 32 := by
    rw [length_encodeWALRecord, List.length_nil, h]
    omega
  obtain ⟨e₀, e₁, hopen, hput, hsst, hcalm⟩ := put_long h
  rintro ⟨e, hrun, hget⟩
  have hreopen : openEngine {} { e₁.dir with
      wal := some ((openWAL []).append (encodeWALRecord [] value false)).sync.sync } = .ok e := by
    have hclose : close.result e₁ = .ok _ := result_ok (walClose_calm hcalm)
    rw [runEngine, hopen] at hrun
    rw [← hrun]
    show _ = ((write [] value false).result e₀ >>= fun e => _)
    rw [result_ok hput]
    show _ = (close.result e₁ >>= _) >>= _
    rw [hclose]
    exact (bind_pure (openEngine {} _)).symm
  have hfile : ((openWAL []).append (encodeWALRecord [] value false)).sync.sync.file =
      frame (encodeWALRecord [] value false) := List.append_nil _
  rw [openEngine, hsst] at hreopen
  change (replayWAL replayPut
    ((openWAL []).append (encodeWALRecord [] value false)).sync.sync.file {} >>= _) = _ at hreopen
  rw [hfile] at hreopen
  rcases replay_long hpayload {} with hreplay | hreplay
  · rw [hreplay] at hreopen
    cases hreopen
    have hnone : (Except.ok none : Except EngineError (Option Bytes)) = .ok (some value) := hget
    cases hnone
  · rw [hreplay] at hreopen
    cases hreopen

/-- **A pair whose record is too long is lost.** The key and the value are short, the engine has
    answered the `Put`, and after `Close` and `OpenEngine` the value is not there. -/
theorem long_record_lost : ∃ value : Bytes, value.length < 2 ^ 32 ∧
    ¬∃ e, runEngine largeFlushSize [.put [] value, .reopen {}] = .ok e ∧
      e.get [] = .ok (some value) := by
  have hlen : (List.replicate (2 ^ 32 - 5) (0 : UInt8)).length = 2 ^ 32 - 5 := List.length_replicate
  refine ⟨List.replicate (2 ^ 32 - 5) 0, ?_, reopen_long hlen⟩
  rw [hlen]
  omega

end Long

end Storage
end DistKV
