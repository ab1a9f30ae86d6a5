import Mathlib.Data.List.Perm.Basic
import Mathlib.Logic.Function.Basic

/-!
# Machines that are one machine for each key

An operation of type `O` concerns one key. A machine with the states `S` stands at every key and sees
the operations of that key only; `step` says whether it takes an operation, and its next state. Run
together over one sequence, the machines take every operation of it exactly if each of them, alone,
takes every operation of its own key (`accepts_together`): no machine sees how the others' operations
come between its own.
-/

namespace Keyed

variable {K O S : Type}

section Accepts

variable (step : S → O → Bool × S)

/-- Does the machine take all of the operations? -/
def accepts (s : S) : List O → Bool
  | [] => true
  | o :: os => (step s o).1 && accepts (step s o).2 os

variable {step}

/-- A machine that answers like another one takes the same sequences. -/
theorem accepts_congr {S' : Type} {step' : S' → O → Bool × S'} {R : S → S' → Prop}
    (hstep : ∀ s s' o, R s s' → (step s o).1 = (step' s' o).1 ∧ R (step s o).2 (step' s' o).2)
    {s : S} {s' : S'} (h : R s s') (os : List O) : accepts step s os = accepts step' s' os := by
  induction os generalizing s s' with
  | nil => rfl
  | cons o os ih =>
    obtain ⟨hans, hnext⟩ := hstep s s' o h
    rw [accepts, accepts, hans, ih hnext]

end Accepts

variable [DecidableEq K] (key : O → K) (step : S → O → Bool × S)

/-- All the machines; an operation goes to the one of its key. -/
def together (σ : K → S) (o : O) : Bool × (K → S) :=
  ((step (σ (key o)) o).1, Function.update σ (key o) (step (σ (key o)) o).2)

/-- The operations of a key, in their order. -/
def part (k : K) (os : List O) : List O := os.filter fun o => decide (key o = k)

variable {key step}

theorem part_cons_self (o : O) (os : List O) : part key (key o) (o :: os) = o :: part key (key o) os := by
  rw [part, List.filter_cons, if_pos (decide_eq_true rfl)]
  rfl

theorem part_cons_other {o : O} {k : K} (h : key o ≠ k) (os : List O) :
    part key k (o :: os) = part key k os := by
  rw [part, List.filter_cons, if_neg (by rw [decide_eq_true_eq]; exact h)]
  rfl

theorem part_append (k : K) (os os' : List O) :
    part key k (os ++ os') = part key k os ++ part key k os' := List.filter_append ..

theorem together_own (σ : K → S) (o : O) :
    (together key step σ o).2 (key o) = (step (σ (key o)) o).2 := Function.update_self _ _ _

theorem together_other {o : O} {k : K} (h : key o ≠ k) (σ : K → S) :
    (together key step σ o).2 k = σ k := Function.update_of_ne (Ne.symm h) _ _

/-- **The machines together take a sequence exactly if each takes its own part of it.** -/
theorem accepts_together (σ : K → S) (os : List O) :
    accepts (together key step) σ os = true ↔ ∀ k, accepts step (σ k) (part key k os) = true := by
  induction os generalizing σ with
  | nil => exact ⟨fun _ _ => rfl, fun _ => rfl⟩
  | cons o os ih =>
    rw [accepts, Bool.and_eq_true, ih]
    constructor
    · rintro ⟨htakes, hrest⟩ k
      by_cases hk : key o = k
      · subst hk
        have hown := hrest (key o)
        rw [together_own] at hown
        rw [part_cons_self, accepts, Bool.and_eq_true]
        exact ⟨htakes, hown⟩
      · have hother := hrest k
        rw [together_other hk] at hother
        rw [part_cons_other hk]
        exact hother
    · intro hall
      have hown := hall (key o)
      rw [part_cons_self, accepts, Bool.and_eq_true] at hown
      refine ⟨hown.1, fun k => ?_⟩
      by_cases hk : key o = k
      · subst hk
        rw [together_own]
        exact hown.2
      · have hother := hall k
        rw [part_cons_other hk] at hother
        rw [together_other hk]
        exact hother

/-- The parts of the keys, put one behind the other, are the sequence in another order. -/
theorem flatMap_part_perm {ks : List K} (hnodup : ks.Nodup) {os : List O} (h : ∀ o ∈ os, key o ∈ ks) :
    (ks.flatMap fun k => part key k os).Perm os := by
  induction ks generalizing os with
  | nil =>
    cases os with
    | nil => exact .nil
    | cons o os => exact absurd (h o List.mem_cons_self) List.not_mem_nil
  | cons k ks ih =>
    obtain ⟨hk, hnodup⟩ := List.nodup_cons.mp hnodup
    -- what is not of the first key is left to the others
    have hrest : (ks.flatMap fun k' => part key k' os) =
        ks.flatMap fun k' => part key k' (os.filter fun o => !decide (key o = k)) := by
      refine List.flatMap_congr fun k' hk' => ?_
      rw [part, part, List.filter_filter]
      refine List.filter_congr fun o _ => ?_
      by_cases ho : key o = k'
      · subst ho
        have hne : key o ≠ k := fun heq => hk (heq ▸ hk')
        simp [hne]
      · simp [ho]
    have hmem : ∀ o ∈ os.filter fun o => !decide (key o = k), key o ∈ ks := by
      intro o ho
      obtain ⟨hmem, hne⟩ := List.mem_filter.mp ho
      have hne : key o ≠ k := by simpa using hne
      exact (List.mem_cons.mp (h o hmem)).resolve_left hne
    rw [List.flatMap_cons, hrest]
    exact ((ih hnodup hmem).append_left _).trans (List.filter_append_perm _ os)

end Keyed
