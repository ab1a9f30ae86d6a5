import Mathlib.Data.List.Basic
import DistKV.Lib.Framed
import DistKV.Raft.Message

/-!
# `storage/wal.go` — the write-ahead log as bytes

A record is framed as `crc32(4) | len(4) | payload(len)` and appended to the file. Replay reads
frame after frame and stops without an error at the first one that is cut short or has the wrong
checksum.

Between two fsyncs the bytes of the appended records are on their way: in the `bufio.Writer`, in
the page cache, or on the disk. `pending` is all of them, and a crash keeps any byte prefix.

`OpenWAL` appends to whatever the file holds. A crash that cuts a frame leaves bytes that replay
skips, and it skips everything written behind them as well (`torn_then_synced_lost`).
While every cut falls between two frames nothing that was synced is lost (`replay_sessions`).
Replay of one file is exact: it finds the frames the file starts with, and no others (`replay_exact`).
-/

namespace DistKV
namespace Storage

/-! ## Little endian words and the checksum -/

/-- `binary.LittleEndian.PutUint32`. -/
def putUint32 (v : UInt32) : Bytes :=
  [.ofNat v.toNat, .ofNat (v.toNat / 256), .ofNat (v.toNat / 65536), .ofNat (v.toNat / 16777216)]

/-- `binary.LittleEndian.Uint32`, of the first four bytes. -/
def getUint32 : Bytes → UInt32
  | b₀ :: b₁ :: b₂ :: b₃ :: _ =>
    .ofNat (b₀.toNat + 256 * b₁.toNat + 65536 * b₂.toNat + 16777216 * b₃.toNat)
  | _ => 0

/-- One bit of the reflected CRC-32 with the IEEE polynomial. -/
def crcBit (c : UInt32) : UInt32 :=
  if c &&& 1 = 1 then (c >>> 1) ^^^ 0xEDB88320 else c >>> 1

def crcByte (c : UInt32) (b : UInt8) : UInt32 :=
  crcBit (crcBit (crcBit (crcBit (crcBit (crcBit (crcBit (crcBit (c ^^^ b.toUInt32))))))))

/-- `crc32.ChecksumIEEE`. -/
def checksumIEEE (payload : Bytes) : UInt32 :=
  payload.foldl crcByte 0xFFFFFFFF ^^^ 0xFFFFFFFF

/-! ## `WAL` -/

structure WAL where
  /-- The bytes of the file up to the last fsync. -/
  file : Bytes
  /-- The bytes appended since. -/
  pending : Bytes := []
  off : Nat

/-- The bytes `Append` writes; the length field is `uint32(len(payload))`. -/
def frame (payload : Bytes) : Bytes :=
  putUint32 (checksumIEEE payload) ++ putUint32 (.ofNat payload.length) ++ payload

def openWAL (file : Bytes) : WAL := { file := file, off := file.length }

namespace WAL

def append (w : WAL) (payload : Bytes) : WAL :=
  { w with pending := w.pending ++ frame payload, off := w.off + (8 + payload.length) }

def sync (w : WAL) : WAL := { w with file := w.file ++ w.pending, pending := [] }

/-- `Close` syncs; the file is what it leaves. -/
def close (w : WAL) : Bytes := w.sync.file

/-- A crash keeps what is synced and the first `keep` bytes after it. -/
def crash (w : WAL) (keep : Nat) : Bytes := w.file ++ w.pending.take keep

end WAL

/-- One round of the loop of `ReplayWAL`: the payload and what is left to read. `none` is each
    of the three silent stops — short header, short payload, wrong checksum. -/
def readFrame (r : Bytes) : Option (Bytes × Bytes) :=
  if r.length < 8 then none
  else
    let crc := getUint32 r
    let n := (getUint32 (r.drop 4)).toNat
    let body := r.drop 8
    if body.length < n then none
    else if checksumIEEE (body.take n) ≠ crc then none
    else some (body.take n, body.drop n)

/-- The loop; each round takes at least a header off the file. -/
def replayLoop {α ε : Type} (fn : α → Bytes → Except ε α) : Nat → Bytes → α → Except ε α
  | 0, _, s => .ok s
  | fuel + 1, r, s =>
    match readFrame r with
    | none => .ok s
    | some (payload, rest) =>
      match fn s payload with
      | .error e => .error e
      | .ok s => replayLoop fn fuel rest s

def replayWAL {α ε : Type} (fn : α → Bytes → Except ε α) (file : Bytes) (s : α) : Except ε α :=
  replayLoop fn file.length file s

/-- The records `ReplayWAL` hands to a callback that accepts all of them. -/
def delivered (file : Bytes) : List Bytes :=
  match replayWAL (ε := Empty) (fun out p => .ok (out ++ [p])) file [] with
  | .ok out => out

/-! ## Sessions -/

inductive Op where
  | append (payload : Bytes)
  | sync
  deriving DecidableEq, Repr

inductive Stop where
  | close
  | crash (keep : Nat)
  deriving DecidableEq, Repr

/-- `ReplayWAL`, `OpenWAL`, some calls, and the end of the process. -/
structure Session where
  ops : List Op
  stop : Stop
  deriving DecidableEq, Repr

def WAL.apply (w : WAL) : Op → WAL
  | .append payload => w.append payload
  | .sync => w.sync

namespace Session

/-- The file a session leaves behind. -/
def run (s : Session) (file : Bytes) : Bytes :=
  let w := s.ops.foldl WAL.apply (openWAL file)
  match s.stop with
  | .close => w.close
  | .crash keep => w.crash keep

end Session

/-- The payloads that are durable, and those that are not, after one more call. -/
def account (acc : List Bytes × List Bytes) : Op → List Bytes × List Bytes
  | .append payload => (acc.1, acc.2 ++ [payload])
  | .sync => (acc.1 ++ acc.2, [])

def accounts (ops : List Op) : List Bytes × List Bytes := ops.foldl account ([], [])

namespace Session

/-- The records of the session that a successful sync covers. -/
def synced (s : Session) : List Bytes :=
  match s.stop with
  | .close => (accounts s.ops).1 ++ (accounts s.ops).2
  | .crash _ => (accounts s.ops).1

/-- The records appended after its last sync. -/
def unsynced (s : Session) : List Bytes :=
  match s.stop with
  | .close => []
  | .crash _ => (accounts s.ops).2

/-- How many bytes after the last sync the end of the session keeps. -/
def keep (s : Session) : Nat :=
  match s.stop with
  | .close => 0
  | .crash keep => keep

end Session

def runAll (ss : List Session) : Bytes := ss.foldl (fun file s => s.run file) []

def frames (ps : List Bytes) : Bytes := ps.flatMap frame

/-- `out` is, session by session and in order, every synced record, followed by unsynced ones
    whose bytes survived whole. -/
def Keeps : List Session → List Bytes → Prop
  | [], out => out = []
  | s :: ss, out => ∃ extra rest, extra <+: s.unsynced ∧ (frames extra).length ≤ s.keep ∧
      Keeps ss rest ∧ out = s.synced ++ extra ++ rest

/-! ## Frames -/

theorem getUint32_putUint32 (v : UInt32) (r : Bytes) : getUint32 (putUint32 v ++ r) = v := by
  have hv := v.toNat_lt
  simp only [putUint32, List.cons_append, List.nil_append, getUint32]
  apply UInt32.toNat_inj.mp
  simp only [UInt32.toNat_ofNat', UInt8.toNat_ofNat']
  omega

theorem length_putUint32 (v : UInt32) : (putUint32 v).length = 4 := rfl

/-- The first four bytes are those of the word they make. -/
theorem putUint32_getUint32 {b : Bytes} (h : 4 ≤ b.length) : putUint32 (getUint32 b) = b.take 4 := by
  rcases b with _ | ⟨b₀, _ | ⟨b₁, _ | ⟨b₂, _ | ⟨b₃, rest⟩⟩⟩⟩
  · cases h
  · exact absurd h (by simp)
  · exact absurd h (by simp)
  · exact absurd h (by simp)
  · have h₀ := b₀.toNat_lt
    have h₁ := b₁.toNat_lt
    have h₂ := b₂.toNat_lt
    have h₃ := b₃.toNat_lt
    simp only [getUint32, putUint32, UInt32.toNat_ofNat', List.take_succ_cons, List.take_zero,
      List.cons.injEq, and_true]
    refine ⟨?_, ?_, ?_, ?_⟩ <;> apply UInt8.toNat_inj.mp <;> rw [UInt8.toNat_ofNat'] <;> omega

/-- The header and the body of a frame, as `readFrame` cuts them. -/
theorem drop_four_frame (payload r : Bytes) :
    (frame payload ++ r).drop 4 = putUint32 (.ofNat payload.length) ++ (payload ++ r) := by
  simp [frame, putUint32]

theorem drop_eight_frame (payload r : Bytes) : (frame payload ++ r).drop 8 = payload ++ r := by
  simp [frame, putUint32]

section Checksum

/-! Nothing about the frames depends on what the checksum is. -/

variable (sum : Bytes → UInt32)

/-- `frame`, with `sum` for the checksum. -/
def frameWith (payload : Bytes) : Bytes :=
  putUint32 (sum payload) ++ putUint32 (.ofNat payload.length) ++ payload

/-- `readFrame`, with `sum` for the checksum. -/
def readFrameWith (r : Bytes) : Option (Bytes × Bytes) :=
  if r.length < 8 then none
  else
    let crc := getUint32 r
    let n := (getUint32 (r.drop 4)).toNat
    let body := r.drop 8
    if body.length < n then none
    else if sum (body.take n) ≠ crc then none
    else some (body.take n, body.drop n)

theorem length_frameWith (payload : Bytes) : (frameWith sum payload).length = 8 + payload.length := by
  simp only [frameWith, List.length_append, length_putUint32]

variable {sum}

theorem readFrameWith_frameWith {payload : Bytes} (h : payload.length < 2 ^ 32) (r : Bytes) :
    readFrameWith sum (frameWith sum payload ++ r) = some (payload, r) := by
  have hcrc : getUint32 (frameWith sum payload ++ r) = sum payload := by
    rw [frameWith, List.append_assoc, List.append_assoc, getUint32_putUint32]
  have hfour : (frameWith sum payload ++ r).drop 4 =
      putUint32 (.ofNat payload.length) ++ (payload ++ r) := by simp [frameWith, putUint32]
  have height : (frameWith sum payload ++ r).drop 8 = payload ++ r := by
    simp [frameWith, putUint32]
  have hlen : (getUint32 ((frameWith sum payload ++ r).drop 4)).toNat = payload.length := by
    rw [hfour, getUint32_putUint32, UInt32.toNat_ofNat', Nat.mod_eq_of_lt h]
  have h8 : ¬(frameWith sum payload ++ r).length < 8 := by
    rw [List.length_append, length_frameWith]
    omega
  have hbody : ¬(payload ++ r).length < payload.length := by simp
  simp only [readFrameWith, h8, if_false, hcrc, hlen, height, hbody, List.take_left',
    List.drop_left', ne_eq, not_true_eq_false]

/-- Whatever is read as a frame is the frame of its payload. -/
theorem frameWith_of_read {b payload rest : Bytes}
    (h : readFrameWith sum b = some (payload, rest)) :
    payload.length < 2 ^ 32 ∧ b = frameWith sum payload ++ rest := by
  rw [readFrameWith] at h
  split at h
  · cases h
  next hlong =>
  simp only at h
  split at h
  · cases h
  next hbody =>
  split at h
  · cases h
  next hsum =>
  obtain ⟨rfl, rfl⟩ := Prod.mk.inj (Option.some.inj h)
  have hn := (getUint32 (b.drop 4)).toNat_lt
  have hlen : ((b.drop 8).take (getUint32 (b.drop 4)).toNat).length =
      (getUint32 (b.drop 4)).toNat := by
    rw [List.length_take]
    omega
  have hword : putUint32 (getUint32 (b.drop 4)) = (b.drop 4).take 4 := by
    apply putUint32_getUint32
    rw [List.length_drop]
    omega
  have hframe : frameWith sum ((b.drop 8).take (getUint32 (b.drop 4)).toNat) =
      b.take 4 ++ (b.drop 4).take 4 ++ (b.drop 8).take (getUint32 (b.drop 4)).toNat := by
    rw [frameWith, hlen, not_not.mp hsum, UInt32.ofNat_toNat, hword,
      putUint32_getUint32 (Nat.le_trans (by decide) (Nat.le_of_not_lt hlong))]
  have hdrop : (b.drop 4).drop 4 = b.drop 8 := List.drop_drop
  refine ⟨by rw [hlen]; exact hn, ?_⟩
  rw [hframe, List.append_assoc, List.append_assoc, List.take_append_drop, ← hdrop,
    List.take_append_drop, List.take_append_drop]

variable (sum)

/-- The frames of a WAL are read back exactly. -/
def framing : Framing UInt8 Bytes where
  fits payload := payload.length < 2 ^ 32
  encode := frameWith sum
  decode := readFrameWith sum
  decode_encode h r := readFrameWith_frameWith h r
  encode_decode h := frameWith_of_read h
  encode_ne_nil payload h := by
    have hlen := length_frameWith sum payload
    rw [h, List.length_nil] at hlen
    omega

end Checksum

theorem length_frame (payload : Bytes) : (frame payload).length = 8 + payload.length :=
  length_frameWith checksumIEEE payload

theorem readFrame_frame {payload : Bytes} (h : payload.length < 2 ^ 32) (r : Bytes) :
    readFrame (frame payload ++ r) = some (payload, r) := readFrameWith_frameWith h r

theorem frames_append (ps qs : List Bytes) : frames (ps ++ qs) = frames ps ++ frames qs :=
  List.flatMap_append

theorem length_le_frames (ps : List Bytes) : ps.length ≤ (frames ps).length :=
  Framing.length_le_encodeAll (F := framing checksumIEEE) ps

/-- Replay calls the callback on whole frames, in order, and stops at what is no frame. -/
theorem replayLoop_frames {α ε : Type} (fn : α → Bytes → Except ε α) {ps : List Bytes} {t : Bytes}
    (hp : ∀ p ∈ ps, p.length < 2 ^ 32) (ht : readFrame t = none) {fuel : Nat}
    (hfuel : ps.length ≤ fuel) (s : α) : replayLoop fn fuel (frames ps ++ t) s = ps.foldlM fn s := by
  induction ps generalizing fuel s with
  | nil =>
    cases fuel with
    | zero => rfl
    | succ fuel =>
      rw [frames, List.flatMap_nil, List.nil_append, replayLoop, ht]
      rfl
  | cons p ps ih =>
    cases fuel with
    | zero => cases hfuel
    | succ fuel =>
      have hcons : frames (p :: ps) ++ t = frame p ++ (frames ps ++ t) := by
        rw [frames, List.flatMap_cons, List.append_assoc]
        rfl
      rw [hcons, replayLoop, readFrame_frame (hp p List.mem_cons_self), List.foldlM_cons]
      simp only
      cases fn s p with
      | error e => rfl
      | ok s' =>
        exact ih (fun q hq => hp q (List.mem_cons_of_mem _ hq)) (Nat.le_of_succ_le_succ hfuel) s'

theorem replayWAL_frames {α ε : Type} (fn : α → Bytes → Except ε α) {ps : List Bytes} {t : Bytes}
    (hp : ∀ p ∈ ps, p.length < 2 ^ 32) (ht : readFrame t = none) (s : α) :
    replayWAL fn (frames ps ++ t) s = ps.foldlM fn s := by
  refine replayLoop_frames fn hp ht ?_ s
  rw [List.length_append]
  exact Nat.le_trans (length_le_frames ps) (Nat.le_add_right _ _)

/-- Replay reads whole frames back. -/
theorem delivered_frames {ps : List Bytes} {t : Bytes} (hp : ∀ p ∈ ps, p.length < 2 ^ 32)
    (ht : readFrame t = none) : delivered (frames ps ++ t) = ps := by
  have hcollect : ∀ (ps out : List Bytes),
      ps.foldlM (m := Except Empty) (fun out p => .ok (out ++ [p])) out = .ok (out ++ ps) := by
    intro ps
    induction ps with
    | nil =>
      intro out
      rw [List.append_nil]
      rfl
    | cons p ps ih =>
      intro out
      have hout : out ++ p :: ps = out ++ [p] ++ ps := List.append_cons out p ps
      rw [List.foldlM_cons, hout]
      exact ih (out ++ [p])
  rw [delivered, replayWAL_frames _ hp ht, hcollect]
  rfl

/-- A byte prefix of some frames is the frames that fit, and a rest that is no frame. -/
theorem take_frames {ps : List Bytes} (hp : ∀ p ∈ ps, p.length < 2 ^ 32) (k : Nat) :
    ∃ qs t, (frames ps).take k = frames qs ++ t ∧ qs <+: ps ∧ (frames qs).length ≤ k ∧
      readFrame t = none := by
  obtain ⟨n, hn, t, hcut, ht, hmax⟩ := Framing.take_encodeAll (F := framing checksumIEEE) hp k
  exact ⟨ps.take n, t, hcut, List.take_prefix n ps, (hmax n hn).mpr (Nat.le_refl n), ht⟩

/-! ## What a session leaves -/

/-- The calls of a session, in bytes and in records. -/
theorem foldl_apply (ops : List Op) (w : WAL) (acc : List Bytes × List Bytes) (f : Bytes)
    (hf : w.file = f ++ frames acc.1) (hp : w.pending = frames acc.2) :
    (ops.foldl WAL.apply w).file = f ++ frames (ops.foldl account acc).1 ∧
      (ops.foldl WAL.apply w).pending = frames (ops.foldl account acc).2 := by
  induction ops generalizing w acc with
  | nil => exact ⟨hf, hp⟩
  | cons op ops ih =>
    simp only [List.foldl_cons]
    cases op with
    | append payload =>
      refine ih _ (acc.1, acc.2 ++ [payload]) hf ?_
      simp [WAL.apply, WAL.append, hp, frames]
    | sync =>
      refine ih _ (acc.1 ++ acc.2, []) ?_ rfl
      simp [WAL.apply, WAL.sync, hf, hp, frames_append]

theorem Session.run_eq (s : Session) (f : Bytes) :
    s.run f = f ++ frames s.synced ++ (frames s.unsynced).take s.keep := by
  obtain ⟨hf, hp⟩ := foldl_apply s.ops (openWAL f) ([], []) f (by simp [openWAL, frames]) rfl
  cases hs : s.stop with
  | close =>
    simp [Session.run, Session.synced, Session.unsynced, Session.keep, hs, WAL.close, WAL.sync,
      hf, hp, accounts, frames]
  | crash keep =>
    simp [Session.run, Session.synced, Session.unsynced, Session.keep, hs, WAL.crash, hf, hp,
      accounts]

/-- The end of the session falls between two frames. -/
def Session.EndsWhole (s : Session) : Prop :=
  ∃ j, (frames s.unsynced).take s.keep = frames (s.unsynced.take j)

/-- Every payload fits the length field. -/
def Session.Short (s : Session) : Prop :=
  ∀ p, .append p ∈ s.ops → p.length < 2 ^ 32

theorem mem_accounts {ops : List Op} {p : Bytes}
    (h : p ∈ (accounts ops).1 ∨ p ∈ (accounts ops).2) : .append p ∈ ops := by
  have fold : ∀ (ops : List Op) (acc : List Bytes × List Bytes),
      p ∈ (ops.foldl account acc).1 ∨ p ∈ (ops.foldl account acc).2 →
        .append p ∈ ops ∨ p ∈ acc.1 ∨ p ∈ acc.2 := by
    intro ops
    induction ops with
    | nil => exact fun _ h => .inr h
    | cons op ops ih =>
      intro acc h
      cases op with
      | append payload =>
        rcases ih (acc.1, acc.2 ++ [payload]) h with h | h | h
        · exact .inl (List.mem_cons_of_mem _ h)
        · exact .inr (.inl h)
        · rcases List.mem_append.mp h with h | h
          · exact .inr (.inr h)
          · rw [List.mem_singleton.mp h]
            exact .inl List.mem_cons_self
      | sync =>
        rcases ih (acc.1 ++ acc.2, []) h with h | h | h
        · exact .inl (List.mem_cons_of_mem _ h)
        · exact .inr (List.mem_append.mp h)
        · exact absurd h (by simp)
  rcases fold ops ([], []) h with h | h | h
  · exact h
  · exact absurd h (by simp)
  · exact absurd h (by simp)

theorem Session.Short.mem {s : Session} (h : s.Short) {p : Bytes}
    (hp : p ∈ s.synced ∨ p ∈ s.unsynced) : p.length < 2 ^ 32 := by
  refine h p (mem_accounts ?_)
  cases hs : s.stop with
  | close =>
    simp only [Session.synced, Session.unsynced, hs, List.mem_append] at hp
    rcases hp with hp | hp
    · exact hp
    · exact absurd hp (by simp)
  | crash keep =>
    simp only [Session.synced, Session.unsynced, hs] at hp
    exact hp

/-- One session: the records it leaves in the file, behind them a rest that is no frame, and no
    rest at all when it ends between two frames. -/
theorem Session.leaves {s : Session} (h : s.Short) (f : Bytes) :
    ∃ extra t, s.run f = f ++ frames (s.synced ++ extra) ++ t ∧ extra <+: s.unsynced ∧
      (frames extra).length ≤ s.keep ∧ readFrame t = none := by
  obtain ⟨extra, t, hcut, hpre, hlen, ht⟩ := take_frames (fun p hp => h.mem (.inr hp)) s.keep
  exact ⟨extra, t, by rw [s.run_eq, hcut, frames_append]; simp, hpre, hlen, ht⟩

theorem Session.leaves_whole {s : Session} (hw : s.EndsWhole) (f : Bytes) :
    ∃ extra, s.run f = f ++ frames (s.synced ++ extra) ∧ extra <+: s.unsynced ∧
      (frames extra).length ≤ s.keep := by
  obtain ⟨j, hj⟩ := hw
  refine ⟨s.unsynced.take j, ?_, List.take_prefix _ _, ?_⟩
  · rw [s.run_eq, hj, frames_append, List.append_assoc]
  · rw [← hj]; exact List.length_take_le _ _

/-- The induction is on the sessions; the file before them is arbitrary. -/
theorem foldl_run {ss : List Session} (short : ∀ s ∈ ss, s.Short)
    (whole : ∀ s ∈ ss.dropLast, s.EndsWhole) (f : Bytes) :
    ∃ recs t, Keeps ss recs ∧ ss.foldl (fun file s => s.run file) f = f ++ frames recs ++ t ∧
      readFrame t = none ∧ ∀ p ∈ recs, p.length < 2 ^ 32 := by
  induction ss generalizing f with
  | nil => exact ⟨[], [], rfl, by simp [frames], rfl, by simp⟩
  | cons s ss ih =>
    have hs := short s List.mem_cons_self
    have hmem : ∀ {extra : List Bytes}, extra <+: s.unsynced →
        ∀ p ∈ s.synced ++ extra, p.length < 2 ^ 32 := by
      intro extra hpre p hp
      rcases List.mem_append.mp hp with hp | hp
      · exact hs.mem (.inl hp)
      · exact hs.mem (.inr (hpre.subset hp))
    cases ss with
    | nil =>
      obtain ⟨extra, t, hrun, hpre, hlen, ht⟩ := Session.leaves hs f
      exact ⟨s.synced ++ extra, t, ⟨extra, [], hpre, hlen, rfl, by simp⟩, hrun, ht, hmem hpre⟩
    | cons s' ss =>
      have hlast : s ∈ (s :: s' :: ss).dropLast := by
        rw [List.dropLast_cons_cons]; exact List.mem_cons_self
      obtain ⟨extra, hrun, hpre, hlen⟩ := Session.leaves_whole (whole s hlast) f
      obtain ⟨recs, t, hk, hfold, ht, hshort⟩ :=
        ih (fun r hr => short r (List.mem_cons_of_mem _ hr))
          (fun r hr => whole r (by rw [List.dropLast_cons_cons]; exact List.mem_cons_of_mem _ hr))
          (s.run f)
      refine ⟨s.synced ++ extra ++ recs, t, ⟨extra, recs, hpre, hlen, hk, rfl⟩, ?_, ht, ?_⟩
      · rw [List.foldl_cons, hfold, hrun, frames_append _ recs]
        simp only [List.append_assoc]
      · intro p hp
        rcases List.mem_append.mp hp with hp | hp
        · exact hmem hpre p hp
        · exact hshort p hp

/-- **Synced records survive every crash that falls between two frames.** Only the last session
    may end in the middle of one. -/
theorem replay_sessions (ss : List Session) (short : ∀ s ∈ ss, s.Short)
    (whole : ∀ s ∈ ss.dropLast, s.EndsWhole) : Keeps ss (delivered (runAll ss)) := by
  obtain ⟨recs, t, hk, hrun, ht, hshort⟩ := foldl_run short whole []
  rw [runAll, hrun, List.nil_append, delivered_frames hshort ht]
  exact hk

/-- A crash between two frames, and in the last session one in the middle of a frame. -/
theorem replay_sessions_ends :
    Keeps [⟨[.append [1], .sync, .append [2]], .crash 9⟩, ⟨[.append [3]], .crash 4⟩]
      (delivered (runAll
        [⟨[.append [1], .sync, .append [2]], .crash 9⟩, ⟨[.append [3]], .crash 4⟩])) := by
  refine replay_sessions _ ?_ ?_
  · intro s hs p hp
    simp only [List.mem_cons, List.not_mem_nil, or_false] at hs
    rcases hs with rfl | rfl <;> simp at hp <;> grind
  · intro s hs
    obtain rfl : s = ⟨[.append [1], .sync, .append [2]], .crash 9⟩ := by simpa using hs
    exact ⟨1, by decide +kernel⟩

/-- The first session appends one record and crashes with three bytes of it in the file; the
    second appends a record, syncs and closes. Replay delivers nothing: the bytes of the synced
    record are read as the rest of a frame that never was. -/
theorem torn_then_synced_lost :
    delivered (runAll [⟨[.append [1]], .crash 3⟩, ⟨[.append [2], .sync], .close⟩]) = [] ∧
    ¬Keeps [⟨[.append [1]], .crash 3⟩, ⟨[.append [2], .sync], .close⟩]
      (delivered (runAll [⟨[.append [1]], .crash 3⟩, ⟨[.append [2], .sync], .close⟩])) := by
  have hnone :
      delivered (runAll [⟨[.append [1]], .crash 3⟩, ⟨[.append [2], .sync], .close⟩]) = [] := by
    decide +kernel
  refine ⟨hnone, ?_⟩
  rw [hnone]
  rintro ⟨extra, rest, -, -, ⟨extra', rest', -, -, -, hrest⟩, hout⟩
  have hsynced : (⟨[.append [2], .sync], .close⟩ : Session).synced = [[2]] := by decide
  rw [hsynced] at hrest
  simp [hrest] at hout

/-! ## Replay as a parser -/

section Exact

variable (sum : Bytes → UInt32)

/-- `replayLoop`, with `sum` for the checksum. -/
def replayLoopWith {α ε : Type} (fn : α → Bytes → Except ε α) : Nat → Bytes → α → Except ε α
  | 0, _, s => .ok s
  | fuel + 1, r, s =>
    match readFrameWith sum r with
    | none => .ok s
    | some (payload, rest) =>
      match fn s payload with
      | .error e => .error e
      | .ok s => replayLoopWith fn fuel rest s

def replayWALWith {α ε : Type} (fn : α → Bytes → Except ε α) (file : Bytes) (s : α) : Except ε α :=
  replayLoopWith sum fn file.length file s

/-- A callback that never fails is called with `ps`, in this order. -/
def Delivers (file : Bytes) (ps : List Bytes) : Prop :=
  ∀ (α : Type) (g : α → Bytes → α) (s : α),
    replayWALWith sum (ε := Empty) (fun s p => .ok (g s p)) file s = .ok (ps.foldl g s)

variable {sum}

/-- With the checksum of the source it is the replay of the source. -/
theorem replayWALWith_checksumIEEE {α ε : Type} (fn : α → Bytes → Except ε α) (file : Bytes)
    (s : α) : replayWALWith checksumIEEE fn file s = replayWAL fn file s := by
  have hloop : ∀ fuel r s, replayLoopWith checksumIEEE fn fuel r s = replayLoop fn fuel r s := by
    intro fuel
    induction fuel with
    | zero => exact fun _ _ => rfl
    | succ fuel ih =>
      intro r s
      have hread : readFrameWith checksumIEEE r = readFrame r := rfl
      rw [replayLoopWith, replayLoop, hread]
      cases readFrame r with
      | none => rfl
      | some q =>
        simp only
        cases fn s q.1 with
        | error e => rfl
        | ok s' => exact ih q.2 s'
  exact hloop _ _ _

theorem replayLoopWith_total {α : Type} (g : α → Bytes → α) (fuel : Nat) (r : Bytes) (s : α) :
    replayLoopWith sum (ε := Empty) (fun s p => .ok (g s p)) fuel r s =
      .ok (((framing sum).decodeAll fuel r).foldl g s) := by
  induction fuel generalizing r s with
  | zero => rfl
  | succ fuel ih =>
    rw [replayLoopWith, Framing.decodeAll]
    have hread : (framing sum).decode r = readFrameWith sum r := rfl
    rw [hread]
    cases readFrameWith sum r with
    | none => rfl
    | some q => exact ih q.2 (g s q.1)

theorem delivers_iff {file : Bytes} {ps : List Bytes} :
    Delivers sum file ps ↔ (framing sum).decodeAll file.length file = ps := by
  constructor
  · intro h
    have hcollect := h (List Bytes) (fun out p => out ++ [p]) []
    rw [replayWALWith, replayLoopWith_total, Except.ok.injEq] at hcollect
    have hsnoc : ∀ qs : List Bytes, qs.foldl (fun out p => out ++ [p]) [] = qs := by
      intro qs
      induction qs using List.reverseRecOn with
      | nil => rfl
      | append_singleton qs q ih => rw [List.foldl_append, ih, List.foldl_cons, List.foldl_nil]
    rw [hsnoc, hsnoc] at hcollect
    exact hcollect
  · rintro rfl
    intro α g s
    exact replayLoopWith_total g _ _ s

/-- **Replay delivers exactly the payloads of the frames that a file starts with**, whatever the
    checksum is: `ps` is delivered if the file is the frames of `ps` and a rest that does not begin with
    a complete frame, and of frames that are cut off at any byte those before the cut. -/
theorem replay_exact (sum : Bytes → UInt32) :
    (∀ file ps, Delivers sum file ps ↔ (∀ p ∈ ps, p.length < 2 ^ 32) ∧
      ∃ rest, file = ps.flatMap (frameWith sum) ++ rest ∧
        ¬∃ p r, p.length < 2 ^ 32 ∧ rest = frameWith sum p ++ r) ∧
    ∀ ps : List Bytes, (∀ p ∈ ps, p.length < 2 ^ 32) → ∀ cut, ∃ n ≤ ps.length,
      Delivers sum ((ps.flatMap (frameWith sum)).take cut) (ps.take n) ∧
      ∀ m ≤ ps.length, ((ps.take m).flatMap (frameWith sum)).length ≤ cut ↔ m ≤ n := by
  refine ⟨fun file ps => ?_, fun ps hshort cut => ?_⟩
  · rw [delivers_iff, Framing.decodeAll_iff]
    refine and_congr_right fun _ => exists_congr fun rest => and_congr_right fun _ => ?_
    exact Framing.decode_eq_none
  · obtain ⟨n, hn, hread, hmax⟩ := Framing.decodeAll_take (F := framing sum) hshort cut
    exact ⟨n, hn, delivers_iff.mpr hread, hmax⟩

/-- Two frames, cut in the length field of the second. -/
theorem replay_exact_cut :
    Delivers checksumIEEE (([[7], [8, 9]].flatMap (frameWith checksumIEEE)).take 15) [[7]] := by
  obtain ⟨n, hn, hdelivers, hmax⟩ := (replay_exact checksumIEEE).2 [[7], [8, 9]] (by decide) 15
  have hfirst : 1 ≤ n := (hmax 1 (by decide)).mp (by decide)
  have hsecond : ¬2 ≤ n := fun h => absurd ((hmax 2 (by decide)).mpr h) (by decide)
  obtain rfl : n = 1 := by omega
  exact hdelivers

end Exact

end Storage
end DistKV
