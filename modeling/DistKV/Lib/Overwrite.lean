import Mathlib.Logic.Function.Basic

/-!
# Overwriting a map from a fixed sequence of writes

A sequence gives, for each position, a write to one key or nothing. Two maps are brought together by
carrying out the same writes on both, as long as every key at which they differ is still to be written
(`Ahead`). Position by position the writes that are left become fewer (`Ahead.put`), and when none is
left the maps are equal (`Ahead.eq`). So a map may start from anything, and may have taken in writes
that are still to come.
-/

namespace Overwrite

variable {κ β : Type} [DecidableEq κ]

def put (m : κ → β) : Option (κ × β) → κ → β
  | none => m
  | some (k, v) => Function.update m k v

/-- The key is written at one of the positions from `i` on, before `h`. -/
def Touched (w : Nat → Option (κ × β)) (i h : Nat) (k : κ) : Prop :=
  ∃ j, i ≤ j ∧ j < h ∧ ∃ v, w j = some (k, v)

/-- Wherever the maps differ, a write is to come. -/
def Ahead (w : Nat → Option (κ × β)) (i h : Nat) (m m' : κ → β) : Prop :=
  ∀ k, m k ≠ m' k → Touched w i h k

section Rules

variable {w : Nat → Option (κ × β)} {i h h' : Nat} {m m' : κ → β} {k : κ}

omit [DecidableEq κ] in
theorem Touched.mono (ht : Touched w i h k) (hle : h ≤ h') : Touched w i h' k := by
  obtain ⟨j, hi, hj, hw⟩ := ht
  exact ⟨j, hi, Nat.lt_of_lt_of_le hj hle, hw⟩

omit [DecidableEq κ] in
theorem Ahead.mono (ha : Ahead w i h m m') (hle : h ≤ h') : Ahead w i h' m m' :=
  fun k hk => (ha k hk).mono hle

omit [DecidableEq κ] in
theorem Ahead.eq (ha : Ahead w i h m m') (hle : h ≤ i) : m = m' := by
  funext k
  by_contra hk
  obtain ⟨j, hi, hj, -⟩ := ha k hk
  exact absurd (Nat.lt_of_le_of_lt hi hj) (Nat.not_lt.mpr hle)

/-- The write of a position that is left is carried out on both maps. -/
theorem Ahead.put (ha : Ahead w i h m m') : Ahead w (i + 1) h (put m (w i)) (put m' (w i)) := by
  intro k hk
  -- a key that still differs is not the one just written, so its write comes later
  have hother : ∀ v, w i ≠ some (k, v) := by
    intro v hv
    apply hk
    simp only [hv, Overwrite.put, Function.update_self]
  have hbefore : m k ≠ m' k := by
    cases hw : w i with
    | none => simpa only [hw, Overwrite.put] using hk
    | some e =>
      obtain ⟨k', v⟩ := e
      have hne : k ≠ k' := by
        rintro rfl
        exact hother v hw
      simpa only [hw, Overwrite.put, Function.update_of_ne hne] using hk
  obtain ⟨j, hi, hj, v, hv⟩ := ha k hbefore
  refine ⟨j, Nat.lt_of_le_of_ne hi ?_, hj, v, hv⟩
  rintro rfl
  exact hother v hv

end Rules

end Overwrite
