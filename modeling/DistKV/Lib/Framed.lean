import Mathlib.Data.List.Basic

/-!
# Sequences of frames

A value is written as a frame, and a reader takes one frame off the front of its input or finds none
there. If what was written is read back with the rest of the input untouched, and whatever is read is
what would have been written, then reading frame after frame is exact: the reader finds the values
`ps` in an input precisely if the input is the frames of `ps` and a rest that has no frame in front
(`decodeAll_iff`). No frame is a proper prefix of another (`decode_take`), so an input that is cut off
somewhere loses the frame at the cut and those behind it, and nothing else (`decodeAll_take`).
-/

structure Framing (A P : Type) where
  /-- The values that have a frame. -/
  fits : P → Prop
  encode : P → List A
  decode : List A → Option (P × List A)
  decode_encode : ∀ {p}, fits p → ∀ r, decode (encode p ++ r) = some (p, r)
  encode_decode : ∀ {b p r}, decode b = some (p, r) → fits p ∧ b = encode p ++ r
  encode_ne_nil : ∀ p, encode p ≠ []

namespace Framing

variable {A P : Type} (F : Framing A P)

/-- Reads at most so many frames. -/
def decodeAll : Nat → List A → List P
  | 0, _ => []
  | fuel + 1, b =>
    match F.decode b with
    | none => []
    | some (p, rest) => p :: decodeAll fuel rest

/-- Reads so many frames, and returns what is behind them. -/
def decodeN : Nat → List A → Option (List P × List A)
  | 0, b => some ([], b)
  | n + 1, b =>
    match F.decode b with
    | none => none
    | some (p, rest) => (decodeN n rest).map fun q => (p :: q.1, q.2)

/-- The frames of some values. -/
def encodeAll (ps : List P) : List A := ps.flatMap F.encode

variable {F}

@[simp] theorem encodeAll_nil : F.encodeAll [] = [] := rfl

@[simp] theorem encodeAll_cons (p : P) (ps : List P) :
    F.encodeAll (p :: ps) = F.encode p ++ F.encodeAll ps := List.flatMap_cons

theorem length_le_encodeAll (ps : List P) : ps.length ≤ (F.encodeAll ps).length := by
  induction ps with
  | nil => exact Nat.zero_le _
  | cons p ps ih =>
    have hpos := List.length_pos_iff.mpr (F.encode_ne_nil p)
    rw [encodeAll_cons, List.length_append, List.length_cons]
    omega

/-- What is in front of the input is a frame, or there is none. -/
theorem decode_eq_none {b : List A} :
    F.decode b = none ↔ ¬∃ p r, F.fits p ∧ b = F.encode p ++ r := by
  constructor
  · rintro hnone ⟨p, r, hp, rfl⟩
    rw [F.decode_encode hp] at hnone
    cases hnone
  · intro hno
    cases hd : F.decode b with
    | none => rfl
    | some q =>
      obtain ⟨hq, hb⟩ := F.encode_decode hd
      exact absurd ⟨q.1, q.2, hq, hb⟩ hno

theorem decodeAll_encodeAll {ps : List P} (hp : ∀ p ∈ ps, F.fits p) {t : List A}
    (ht : F.decode t = none) {fuel : Nat} (hfuel : ps.length ≤ fuel) :
    F.decodeAll fuel (F.encodeAll ps ++ t) = ps := by
  induction ps generalizing fuel with
  | nil =>
    cases fuel with
    | zero => rfl
    | succ fuel =>
      rw [encodeAll_nil, List.nil_append, decodeAll, ht]
  | cons p ps ih =>
    cases fuel with
    | zero => cases hfuel
    | succ fuel =>
      rw [encodeAll_cons, List.append_assoc, decodeAll, F.decode_encode (hp p List.mem_cons_self)]
      have hrest := ih (fun q hq => hp q (List.mem_cons_of_mem _ hq)) (Nat.le_of_succ_le_succ hfuel)
      simp only [hrest]

/-- **So many frames can be read exactly if the input starts with them.** -/
theorem decodeN_eq_some {n : Nat} {b : List A} {ps : List P} {r : List A} :
    F.decodeN n b = some (ps, r) ↔
      ps.length = n ∧ (∀ p ∈ ps, F.fits p) ∧ b = F.encodeAll ps ++ r := by
  constructor
  · intro h
    induction n generalizing b ps with
    | zero =>
      cases h
      exact ⟨rfl, List.forall_mem_nil _, rfl⟩
    | succ n ih =>
      rw [decodeN] at h
      cases hd : F.decode b with
      | none =>
        rw [hd] at h
        cases h
      | some q =>
        rw [hd] at h
        obtain ⟨⟨qs, r'⟩, hrest, heq⟩ := Option.map_eq_some_iff.mp h
        cases heq
        obtain ⟨hq, hb⟩ := F.encode_decode hd
        obtain ⟨hlen, hqs, hb'⟩ := ih hrest
        refine ⟨by rw [List.length_cons, hlen], List.forall_mem_cons.mpr ⟨hq, hqs⟩, ?_⟩
        rw [encodeAll_cons, List.append_assoc, ← hb']
        exact hb
  · rintro ⟨rfl, hps, rfl⟩
    induction ps with
    | nil => rfl
    | cons p ps ih =>
      obtain ⟨hp, hps⟩ := List.forall_mem_cons.mp hps
      rw [List.length_cons, decodeN, encodeAll_cons, List.append_assoc, F.decode_encode hp]
      simp only [ih hps, Option.map_some]

/-- Every input is some frames and a rest without one. -/
theorem exists_split (b : List A) : ∃ ps t, (∀ p ∈ ps, F.fits p) ∧ b = F.encodeAll ps ++ t ∧
    F.decode t = none := by
  induction hn : b.length using Nat.strongRecOn generalizing b with
  | ind n ih =>
    cases hd : F.decode b with
    | none => exact ⟨[], b, List.forall_mem_nil _, rfl, hd⟩
    | some q =>
      obtain ⟨hq, hb⟩ := F.encode_decode hd
      have hpos := List.length_pos_iff.mpr (F.encode_ne_nil q.1)
      have hlen := congrArg List.length hb
      rw [List.length_append] at hlen
      obtain ⟨ps, t, hps, hrest, ht⟩ := ih q.2.length (by omega) q.2 rfl
      refine ⟨q.1 :: ps, t, List.forall_mem_cons.mpr ⟨hq, hps⟩, ?_, ht⟩
      rw [encodeAll_cons, List.append_assoc, ← hrest]
      exact hb

/-- **The reader finds `ps` exactly if the input is the frames of `ps` and then none.** -/
theorem decodeAll_iff {b : List A} {ps : List P} :
    F.decodeAll b.length b = ps ↔
      (∀ p ∈ ps, F.fits p) ∧ ∃ t, b = F.encodeAll ps ++ t ∧ F.decode t = none := by
  have hfuel : ∀ (ps : List P) (t : List A), ps.length ≤ (F.encodeAll ps ++ t).length := by
    intro ps t
    rw [List.length_append]
    exact Nat.le_trans (length_le_encodeAll ps) (Nat.le_add_right _ _)
  constructor
  · obtain ⟨qs, t, hqs, rfl, ht⟩ := exists_split (F := F) b
    rw [decodeAll_encodeAll hqs ht (hfuel qs t)]
    rintro rfl
    exact ⟨hqs, t, rfl, ht⟩
  · rintro ⟨hps, t, rfl, ht⟩
    exact decodeAll_encodeAll hps ht (hfuel ps t)

/-- A frame that is cut short is no frame. -/
theorem decode_take {p : P} (hp : F.fits p) {k : Nat} (hk : k < (F.encode p).length) :
    F.decode ((F.encode p).take k) = none := by
  cases hd : F.decode ((F.encode p).take k) with
  | none => rfl
  | some q =>
    -- the frame that is read would be in front of the whole one, too
    obtain ⟨hq, hcut⟩ := F.encode_decode hd
    have hwhole : F.encode p = F.encode q.1 ++ (q.2 ++ (F.encode p).drop k) := by
      rw [← List.append_assoc, ← hcut, List.take_append_drop]
    have hread := F.decode_encode hp []
    rw [List.append_nil, hwhole, F.decode_encode hq, Option.some.injEq, Prod.mk.injEq,
      List.append_eq_nil_iff] at hread
    have hlong := List.drop_eq_nil_iff.mp hread.2.2
    omega

/-- The start of some frames, in elements: the frames that are whole, and a rest that is none. -/
theorem take_encodeAll {ps : List P} (hp : ∀ p ∈ ps, F.fits p) (k : Nat) :
    ∃ n ≤ ps.length, ∃ t, (F.encodeAll ps).take k = F.encodeAll (ps.take n) ++ t ∧
      F.decode t = none ∧ ∀ m ≤ ps.length, (F.encodeAll (ps.take m)).length ≤ k ↔ m ≤ n := by
  have hempty : F.decode [] = none := by
    rw [decode_eq_none]
    rintro ⟨p, r, -, hb⟩
    exact F.encode_ne_nil p (List.append_eq_nil_iff.mp hb.symm).1
  induction ps generalizing k with
  | nil => exact ⟨0, Nat.le_refl _, [], by simp, hempty, fun m hm => by simpa using hm⟩
  | cons p ps ih =>
    rcases Nat.lt_or_ge k (F.encode p).length with hlt | hge
    · refine ⟨0, Nat.zero_le _, (F.encode p).take k, ?_,
        decode_take (hp p List.mem_cons_self) hlt, fun m hm => ?_⟩
      · rw [encodeAll_cons, List.take_append_of_le_length (Nat.le_of_lt hlt)]
        rfl
      · cases m with
        | zero => simp
        | succ m =>
          rw [List.take_succ_cons, encodeAll_cons, List.length_append]
          omega
    · obtain ⟨n, hn, t, hcut, ht, hmax⟩ :=
        ih (fun q hq => hp q (List.mem_cons_of_mem _ hq)) (k - (F.encode p).length)
      refine ⟨n + 1, Nat.succ_le_succ hn, t, ?_, ht, fun m hm => ?_⟩
      · rw [encodeAll_cons, List.take_append, List.take_of_length_le hge, hcut, List.take_succ_cons,
          encodeAll_cons, List.append_assoc]
      · cases m with
        | zero => simp
        | succ m =>
          have hm := hmax m (Nat.le_of_succ_le_succ hm)
          rw [List.take_succ_cons, encodeAll_cons, List.length_append]
          omega

/-- **Of a cut sequence exactly the frames that lie wholly before the cut are read.** -/
theorem decodeAll_take {ps : List P} (hp : ∀ p ∈ ps, F.fits p) (k : Nat) :
    ∃ n ≤ ps.length,
      F.decodeAll ((F.encodeAll ps).take k).length ((F.encodeAll ps).take k) = ps.take n ∧
      ∀ m ≤ ps.length, (F.encodeAll (ps.take m)).length ≤ k ↔ m ≤ n := by
  obtain ⟨n, hn, t, hcut, ht, hmax⟩ := take_encodeAll hp k
  refine ⟨n, hn, decodeAll_iff.mpr ⟨fun p hmem => hp p (List.mem_of_mem_take hmem), t, hcut, ht⟩, ?_⟩
  exact hmax

end Framing
