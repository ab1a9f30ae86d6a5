import Mathlib.Data.List.Basic

/-!
# Chains of links

The links of a linked list are a relation: `R x v` says that from `x` one comes to `v`, a place or the
end. `Linked R x ys` says that the places behind `x` are `ys`. A place is put into a chain by changing
two links, its own and the one in front of it (`Linked.splice`).
-/

namespace Links

variable {P : Type} {R R' : P → Option P → Prop}

/-- The places behind `x`, up to the end. -/
def Linked (R : P → Option P → Prop) : P → List P → Prop
  | x, [] => R x none
  | x, y :: ys => R x (some y) ∧ Linked R y ys

theorem Linked.first {x : P} {ys : List P} (h : Linked R x ys) : R x ys.head? := by
  cases ys with
  | nil => exact h
  | cons y ys => exact h.1

/-- A chain is seen from each of its places. -/
theorem Linked.behind {x : P} {as bs : List P} (h : Linked R x (as ++ bs)) :
    Linked R (as.getLastD x) bs := by
  induction as generalizing x with
  | nil => exact h
  | cons a as ih =>
    rw [List.getLastD_cons]
    exact ih h.2

theorem Linked.mono {x : P} {ys : List P} (h : Linked R x ys)
    (hR : ∀ y ∈ x :: ys, ∀ v, R y v → R' y v) : Linked R' x ys := by
  induction ys generalizing x with
  | nil => exact hR x List.mem_cons_self none h
  | cons y ys ih =>
    refine ⟨hR x List.mem_cons_self (some y) h.1, ih h.2 fun z hz => ?_⟩
    exact hR z (List.mem_cons_of_mem _ hz)

/-- The last place of a chain's front is in it. -/
theorem getLastD_mem (x : P) (ys : List P) : ys.getLastD x ∈ x :: ys := by
  induction ys generalizing x with
  | nil => exact List.mem_cons_self
  | cons y ys ih =>
    rw [List.getLastD_cons]
    exact List.mem_cons_of_mem _ (ih y)

/-- A new place takes over the link of the one in front of it, which then leads to the new one. -/
theorem Linked.splice {x n : P} {as bs : List P} (h : Linked R x (as ++ bs))
    (hnodup : (x :: (as ++ bs)).Nodup) (hn : n ∉ x :: (as ++ bs))
    (hother : ∀ y, y ≠ as.getLastD x → y ≠ n → ∀ v, R y v → R' y v)
    (hnew : ∀ v, R (as.getLastD x) v → R' n v) (hback : R' (as.getLastD x) (some n)) :
    Linked R' x (as ++ n :: bs) := by
  induction as generalizing x with
  | nil =>
    refine ⟨hback, ?_⟩
    -- the rest hangs on the new place
    have hframe : ∀ y ∈ bs, ∀ v, R y v → R' y v := by
      intro y hy
      refine hother y ?_ ?_
      · rintro rfl
        exact (List.nodup_cons.mp hnodup).1 hy
      · rintro rfl
        exact hn (List.mem_cons_of_mem _ hy)
    cases bs with
    | nil => exact hnew none h
    | cons b bs => exact ⟨hnew (some b) h.1, h.2.mono hframe⟩
  | cons a as ih =>
    rw [List.getLastD_cons] at hother hnew hback
    obtain ⟨hx, hnodup⟩ := List.nodup_cons.mp hnodup
    refine ⟨hother x ?_ ?_ (some a) h.1, ?_⟩
    · rintro rfl
      have hlast := getLastD_mem a as
      exact hx (List.mem_append_left bs hlast)
    · rintro rfl
      exact hn List.mem_cons_self
    · exact ih h.2 hnodup (fun hmem => hn (List.mem_cons_of_mem _ hmem)) hother hnew hback

end Links
