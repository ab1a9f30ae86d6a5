import Mathlib.Data.Option.Basic
import Mathlib.Logic.Relation

/-!
# Runs of a deterministic step function

A system is a partial function `step` from a state and an action to the next state. A run is an
infinite sequence of states; at each position either an action is taken or nothing happens, so
that finite runs are runs too. Statements that compare two moments of one run quantify over two
positions.

Two rules carry what a single step preserves to whole runs: `IsRun.invariant`, and
`IsRun.simulate` for a ghost state that is chosen step by step. Where the relation to the ghost
depends on what has happened before, `exists_ghost` does the same with the position.
-/

namespace Run

variable {S A : Type}

structure IsRun (step : S → A → Option S) (init : S) (σ : Nat → S) (α : Nat → Option A) :
    Prop where
  start : σ 0 = init
  idle : ∀ k, α k = none → σ (k + 1) = σ k
  next : ∀ k a, α k = some a → step (σ k) a = some (σ (k + 1))

section Rules

variable {step : S → A → Option S} {init : S} {σ : Nat → S} {α : Nat → Option A}

/-- What holds at the start and is preserved by the actions the run takes holds throughout. -/
theorem IsRun.invariant (h : IsRun step init σ α) {P : S → Prop} (h0 : P init)
    (hs : ∀ k a, α k = some a → P (σ k) → P (σ (k + 1))) (k : Nat) : P (σ k) := by
  induction k with
  | zero => rw [h.start]; exact h0
  | succ k ih =>
    cases ha : α k with
    | none => rw [h.idle k ha]; exact ih
    | some a => exact hs k a ha ih

/-- The same between two positions. -/
theorem IsRun.invariant_until (h : IsRun step init σ α) {P : S → Prop} {j i : Nat} (h0 : P (σ j))
    (hs : ∀ k a, j ≤ k → k < i → α k = some a → P (σ k) → P (σ (k + 1))) (hi : j ≤ i) :
    P (σ i) := by
  induction hi with
  | refl => exact h0
  | step hk ih =>
    have hbefore := ih fun m a hm hlt => hs m a hm (Nat.lt_succ_of_lt hlt)
    cases ha : α _ with
    | none => rw [h.idle _ ha]; exact hbefore
    | some a => exact hs _ a hk (Nat.lt_succ_self _) ha hbefore

/-- The same from some position on. -/
theorem IsRun.invariant_from (h : IsRun step init σ α) {P : S → Prop} {j : Nat} (h0 : P (σ j))
    (hs : ∀ k a, j ≤ k → α k = some a → P (σ k) → P (σ (k + 1))) {k : Nat} (hk : j ≤ k) :
    P (σ k) :=
  h.invariant_until h0 (fun m a hm _ => hs m a hm) hk

/-- A ghost state that can always be continued can be chosen for all positions. -/
theorem exists_ghost {G : Type} {R : Nat → G → Prop} {E : G → G → Prop} {g : G} (h0 : R 0 g)
    (hs : ∀ k g, R k g → ∃ g', E g g' ∧ R (k + 1) g') :
    ∃ γ : Nat → G, γ 0 = g ∧ ∀ k, R k (γ k) ∧ E (γ k) (γ (k + 1)) := by
  classical
  -- the ghost at each position, together with the fact that it is related
  let chain : (k : Nat) → { g : G // R k g } := fun k =>
    Nat.rec ⟨g, h0⟩ (fun k g => ⟨(hs k g.1 g.2).choose, (hs k g.1 g.2).choose_spec.2⟩) k
  exact ⟨fun k => (chain k).1, rfl, fun k =>
    ⟨(chain k).2, (hs k (chain k).1 (chain k).2).choose_spec.1⟩⟩

/-- A ghost state that can follow every step follows the whole run. -/
theorem IsRun.simulate {G : Type} (h : IsRun step init σ α) {R : S → G → Prop}
    {E : G → G → Prop} (hrefl : ∀ g, E g g) {g₀ : G} (h0 : R init g₀)
    (hs : ∀ k a g, α k = some a → R (σ k) g → ∃ g', E g g' ∧ R (σ (k + 1)) g') :
    ∃ γ : Nat → G, γ 0 = g₀ ∧ ∀ k, R (σ k) (γ k) ∧ E (γ k) (γ (k + 1)) := by
  refine exists_ghost (R := fun k => R (σ k)) (by rw [h.start]; exact h0) fun k g hg => ?_
  cases ha : α k with
  | none => exact ⟨g, hrefl g, by rw [h.idle k ha]; exact hg⟩
  | some a => exact hs k a g ha hg

/-- A preorder along one step is a preorder along the run. -/
theorem le_of_step {G : Type} {E : G → G → Prop} (hrefl : ∀ g, E g g)
    (htrans : ∀ {a b c}, E a b → E b c → E a c) {γ : Nat → G} (hγ : ∀ k, E (γ k) (γ (k + 1)))
    {j k : Nat} (hjk : j ≤ k) : E (γ j) (γ k) := by
  induction hjk with
  | refl => exact hrefl _
  | step _ ih => exact htrans ih (hγ _)

end Rules

/-! ## Finite runs -/

/-- The state after a list of actions. -/
def after (step : S → A → Option S) (init : S) (acts : List A) : Option S :=
  acts.foldlM step init

theorem after_append (step : S → A → Option S) (init : S) (as bs : List A) :
    after step init (as ++ bs) = (after step init as).bind fun s => after step s bs :=
  List.foldlM_append

/-- A list of actions that can all be taken is a run; it stays where the list ends. -/
theorem IsRun.ofList {step : S → A → Option S} {init : S} {acts : List A}
    (h : (after step init acts).isSome) :
    IsRun step init (fun k => (after step init (acts.take k)).getD init) (fun k => acts[k]?) := by
  have hsome : ∀ k, ∃ s, after step init (acts.take k) = some s := by
    intro k
    rw [← List.take_append_drop k acts, after_append] at h
    obtain ⟨s', hs'⟩ := Option.isSome_iff_exists.mp h
    obtain ⟨s, hs, -⟩ := Option.bind_eq_some_iff.mp hs'
    exact ⟨s, hs⟩
  refine ⟨rfl, fun k hk => ?_, fun k a hk => ?_⟩
  · have hlen := List.getElem?_eq_none_iff.mp hk
    simp only [List.take_of_length_le hlen, List.take_of_length_le (Nat.le_succ_of_le hlen)]
  · have hcut : acts.take (k + 1) = acts.take k ++ [a] := by
      rw [List.take_add_one, hk]; rfl
    obtain ⟨s, hs⟩ := hsome k
    obtain ⟨s', hs'⟩ := hsome (k + 1)
    have hstep : step s a = some s' := by
      rw [hcut, after_append, hs] at hs'
      simpa [after] using hs'
    simp only [hs, hs', Option.getD_some, hstep]

/-- `P` holds of each action of the list and the state it is taken in. -/
def Throughout (step : S → A → Option S) (P : S → A → Prop) : S → List A → Prop
  | _, [] => True
  | s, a :: acts => P s a ∧ ∀ s' ∈ step s a, Throughout step P s' acts

instance Throughout.decide (step : S → A → Option S) (P : S → A → Prop) [∀ s a, Decidable (P s a)] :
    (s : S) → (acts : List A) → Decidable (Throughout step P s acts)
  | _, [] => isTrue trivial
  | s, a :: acts =>
    haveI : ∀ s', Decidable (Throughout step P s' acts) := fun s' => Throughout.decide step P s' acts
    inferInstanceAs (Decidable (P s a ∧ ∀ s' ∈ step s a, Throughout step P s' acts))

end Run
