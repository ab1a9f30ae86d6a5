import DistKV.Raft.Records

/-!
# The bytes of a configuration

`decodeConfState` gets its bytes from a file or from a peer, so anything may be in them: counts that
are far too large, ids that come twice, a buffer that ends early. `Records.lean` has the result of
decoding; here is the function with the offset it keeps and the reads it makes, each of which is a
panic if it runs over the end of the buffer. None of them does (`scanConfState_eq`), because every loop
over ids is entered only after its last byte has been compared with the length.

Decoding takes back what encoding wrote; and what it has accepted, encoded again, it accepts again as
the same configuration (`confState_codec`).
-/

namespace DistKV
namespace Raft

open Storage (getUint32 getUint64)

inductive ScanError where
  /-- `ErrInvalidConfState`. -/
  | invalidConfState
  /-- Panic: a read over the end of the buffer. -/
  | outOfRange
  deriving DecidableEq, Repr

/-- `binary.LittleEndian.Uint32(buf[off:])`. -/
def uint32At (buf : Bytes) (off : Nat) : Except ScanError Nat :=
  if off + 4 > buf.length then .error .outOfRange else .ok (getUint32 (buf.drop off)).toNat

/-- `binary.LittleEndian.Uint64(buf[off:])`. -/
def uint64At (buf : Bytes) (off : Nat) : Except ScanError Nat :=
  if off + 8 > buf.length then .error .outOfRange else .ok (getUint64 (buf.drop off)).toNat

/-- The loop over `n` ids: the set, and the offset behind them. -/
def scanIDs (buf : Bytes) : Nat → Nat → Except ScanError (List Nat × Nat)
  | 0, off => .ok ([], off)
  | n + 1, off =>
    match uint64At buf off with
    | .error e => .error e
    | .ok id => (scanIDs buf n (off + 8)).map fun r => (id :: r.1, r.2)

/-- `decodeConfState`, read by read. -/
def scanConfState (buf : Bytes) : Except ScanError ConfState :=
  if buf.length < 4 then .ok { voters := ∅ }
  else
    match uint32At buf 0 with
    | .error e => .error e
    | .ok nv =>
      if 4 + nv * 8 > buf.length then .error .invalidConfState
      else
        match scanIDs buf nv 4 with
        | .error e => .error e
        | .ok (voters, off) =>
          if off + 4 > buf.length then .ok { voters := voters.toFinset }
          else
            match uint32At buf off with
            | .error e => .error e
            | .ok nj =>
              if off + 4 + nj * 8 > buf.length then .error .invalidConfState
              else (scanIDs buf nj (off + 4)).map fun r =>
                { voters := voters.toFinset, joint := r.1.toFinset }

/-! ## No read runs over the end -/

theorem uint32At_inside {buf : Bytes} {off : Nat} (h : off + 4 ≤ buf.length) :
    uint32At buf off = .ok (getUint32 (buf.drop off)).toNat := if_neg (Nat.not_lt.mpr h)

theorem scanIDs_inside {buf : Bytes} {n off : Nat} (h : off + n * 8 ≤ buf.length) :
    scanIDs buf n off = .ok (readIDs n (buf.drop off), off + n * 8) := by
  induction n generalizing off with
  | zero => rfl
  | succ n ih =>
    have hword : uint64At buf off = .ok (getNat (buf.drop off)) := if_neg (by omega)
    have hroom : off + 8 + n * 8 ≤ buf.length := by omega
    have hrest := ih hroom
    rw [scanIDs, hword, readIDs, List.drop_drop]
    simp only [hrest, Except.map]
    rw [Nat.add_assoc, Nat.succ_mul, Nat.add_comm 8]

/-- The decoder ends in its result or in its error, never in a panic. -/
theorem scanConfState_eq (buf : Bytes) : scanConfState buf =
    match decodeConfState buf with
    | none => .error .invalidConfState
    | some c => .ok c := by
  rw [scanConfState, decodeConfState]
  split
  · rfl
  next hlong =>
  rw [uint32At_inside (by omega), List.drop_zero]
  simp only
  split
  · rfl
  next hvoters =>
  rw [scanIDs_inside (Nat.le_of_not_lt hvoters)]
  simp only
  split
  · rfl
  next hcount =>
  rw [uint32At_inside (Nat.le_of_not_lt hcount)]
  simp only
  split
  · rfl
  next hjoint =>
  rw [scanIDs_inside (Nat.le_of_not_lt hjoint)]
  rfl

/-! ## What can come out of it -/

theorem readIDs_lt {n : Nat} {buf : Bytes} {id : Nat} (h : id ∈ readIDs n buf) : id < 2 ^ 64 := by
  induction n generalizing buf with
  | zero => cases h
  | succ n ih =>
    rcases List.mem_cons.mp h with rfl | hrest
    · exact (getUint64 buf).toNat_lt
    · exact ih hrest

theorem length_readIDs (n : Nat) (buf : Bytes) : (readIDs n buf).length = n := by
  induction n generalizing buf with
  | zero => rfl
  | succ n ih => rw [readIDs, List.length_cons, ih]

/-- The ids are words, and there are fewer of them than a count can say. -/
def IdSet (m : Finset Nat) : Prop := (∀ id ∈ m, id < 2 ^ 64) ∧ m.card < 2 ^ 32

theorem IdSet.empty : IdSet ∅ := ⟨fun _ h => absurd h (Finset.notMem_empty _), by decide⟩

/-- A set that was read has at most as many ids as its count said. -/
theorem IdSet.read {n : Nat} (hn : n < 2 ^ 32) (buf : Bytes) : IdSet (readIDs n buf).toFinset := by
  refine ⟨fun id hid => readIDs_lt (List.mem_toFinset.mp hid), ?_⟩
  calc (readIDs n buf).toFinset.card ≤ (readIDs n buf).length := List.toFinset_card_le _
    _ = n := length_readIDs n buf
    _ < 2 ^ 32 := hn

/-- What was decoded can be encoded. -/
theorem decodeConfState_sets {buf : Bytes} {c : ConfState} (h : decodeConfState buf = some c) :
    IdSet c.voters ∧ IdSet c.joint := by
  rw [decodeConfState] at h
  have hcount : ∀ b, (getUint32 b).toNat < 2 ^ 32 := fun b => (getUint32 b).toNat_lt
  split at h
  · cases h
    exact ⟨.empty, .empty⟩
  simp only at h
  split at h
  · cases h
  split at h
  · cases h
    exact ⟨.read (hcount _) _, .empty⟩
  split at h
  · cases h
  · cases h
    exact ⟨.read (hcount _) _, .read (hcount _) _⟩

/-- **A configuration is decoded as it was encoded; decoding never reads out of range, and what it
    accepts it accepts again, encoded, as the same configuration.** -/
theorem confState_codec :
    (∀ c : ConfState, IdSet c.voters → IdSet c.joint →
      scanConfState (encodeConfState c) = .ok c) ∧
    ∀ buf : Bytes, scanConfState buf ≠ .error .outOfRange ∧
      ∀ c, scanConfState buf = .ok c → scanConfState (encodeConfState c) = .ok c := by
  have hround : ∀ c : ConfState, IdSet c.voters → IdSet c.joint →
      scanConfState (encodeConfState c) = .ok c := by
    intro c hv hj
    rw [scanConfState_eq, decodeConfState_encode hv.1 hj.1 hv.2 hj.2]
  refine ⟨hround, fun buf => ?_⟩
  rw [scanConfState_eq]
  cases hd : decodeConfState buf with
  | none => exact ⟨by simp, fun c h => by cases h⟩
  | some d =>
    refine ⟨by simp, fun c h => ?_⟩
    cases h
    obtain ⟨hv, hj⟩ := decodeConfState_sets hd
    exact hround d hv hj

/-- Voter 3 comes in; a buffer that ends behind the voters has no joint part. -/
theorem confState_codec_joint :
    scanConfState (encodeConfState { voters := {1, 2, 3}, joint := {1, 2} }) =
      .ok { voters := {1, 2, 3}, joint := {1, 2} } ∧
    scanConfState (encodeConfState { voters := {7} }) = .ok { voters := {7} } := by
  have hsets : IdSet {1, 2, 3} ∧ IdSet {1, 2} ∧ IdSet {7} := by
    refine ⟨⟨?_, by decide⟩, ⟨?_, by decide⟩, ⟨?_, by decide⟩⟩
    · decide
    · decide
    · decide
  refine ⟨confState_codec.1 _ hsets.1 hsets.2.1, ?_⟩
  refine (confState_codec.2 [1, 0, 0, 0, 7, 0, 0, 0, 0, 0, 0, 0]).2 _ ?_
  decide

end Raft
end DistKV
