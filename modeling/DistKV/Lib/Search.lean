import Mathlib.Order.Monotone.Basic

/-!
# Binary search

The search for the least index below `n` at which a predicate holds, by halving the interval. It is
right for predicates that never turn from true to false.
-/

namespace Search

/-- `for i < j { h := (i + j) / 2; if !f(h) { i = h + 1 } else { j = h } }`. -/
def loop (f : Nat → Bool) : Nat → Nat → Nat → Nat
  | 0, i, _ => i
  | fuel + 1, i, j =>
    if i < j then
      let h := (i + j) / 2
      if f h then loop f fuel i h else loop f fuel (h + 1) j
    else i

/-- The interval shrinks in every round, so its length is enough fuel. -/
def search (n : Nat) (f : Nat → Bool) : Nat := loop f n 0 n

/-- The predicate stays true once it is. -/
def Upward (f : Nat → Bool) : Prop := ∀ i j, i ≤ j → f i = true → f j = true

theorem loop_spec {f : Nat → Bool} (hf : Upward f) {fuel i j n : Nat} (hfuel : j - i ≤ fuel)
    (hij : i ≤ j) (hn : j ≤ n) (below : ∀ m < i, f m = false) (above : j < n → f j = true) :
    i ≤ loop f fuel i j ∧ loop f fuel i j ≤ j ∧ (∀ m < loop f fuel i j, f m = false) ∧
      (loop f fuel i j < n → f (loop f fuel i j) = true) := by
  induction fuel generalizing i j with
  | zero =>
    obtain rfl : i = j := by omega
    exact ⟨Nat.le_refl i, Nat.le_refl i, below, above⟩
  | succ fuel ih =>
    rw [loop]
    split
    swap
    · obtain rfl : i = j := by omega
      exact ⟨Nat.le_refl i, Nat.le_refl i, below, above⟩
    next hlt =>
    simp only
    split
    · next htrue =>
      obtain ⟨h1, h2, h3, h4⟩ :=
        ih (i := i) (j := (i + j) / 2) (by omega) (by omega) (by omega) below fun _ => htrue
      exact ⟨h1, by omega, h3, h4⟩
    · next hfalse =>
      have hbelow : ∀ m < (i + j) / 2 + 1, f m = false := by
        intro m hm
        by_contra hne
        exact hfalse (hf m _ (Nat.le_of_lt_succ hm) (Bool.not_eq_false _ ▸ hne))
      obtain ⟨h1, h2, h3, h4⟩ :=
        ih (i := (i + j) / 2 + 1) (j := j) (by omega) (by omega) hn hbelow above
      exact ⟨by omega, h2, h3, h4⟩

theorem search_le (n : Nat) (f : Nat → Bool) : search n f ≤ n := by
  have hle : ∀ fuel i j, i ≤ j → loop f fuel i j ≤ j := by
    intro fuel
    induction fuel with
    | zero => intro i j h; exact h
    | succ fuel ih =>
      intro i j h
      rw [loop]
      split
      · simp only
        split
        · exact Nat.le_trans (ih i ((i + j) / 2) (by omega)) (by omega)
        · exact ih ((i + j) / 2 + 1) j (by omega)
      · exact h
  exact hle n 0 n (Nat.zero_le n)

/-- **What the search finds**: everything before it is false, and it is true if it is in range. -/
theorem search_spec {f : Nat → Bool} (hf : Upward f) (n : Nat) :
    (∀ m < search n f, f m = false) ∧ (search n f < n → f (search n f) = true) := by
  obtain ⟨-, -, hbelow, hat⟩ := loop_spec hf (n := n) (Nat.le_refl (n - 0)) (Nat.zero_le n)
    (Nat.le_refl n) (fun m hm => absurd hm (Nat.not_lt_zero m)) fun h => absurd h (Nat.lt_irrefl n)
  exact ⟨hbelow, hat⟩

end Search
