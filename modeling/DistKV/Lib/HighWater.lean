import Mathlib.Data.List.Basic
import Mathlib.Logic.Function.Basic
import Mathlib.Order.Nat

/-!
# Duplicate suppression by the highest number

Requests carry a client and a number. A table keeps for each client the number of the last request
that was admitted; a request with a positive number is admitted if its number is above that, and a
request numbered zero always is.

For a client whose numbers are positive the table is a high-water mark: a number is admitted once if
no larger one comes before its first copy, and never otherwise (`admissions_eq_one`). A zero lowers
the mark. As long as none follows a positive number of the same client the mark only rises
(`rising_iff`) and no number is admitted twice (`admissions_le_one`).
-/

namespace HighWater

variable {C : Type} [DecidableEq C]

/-- Is the request carried out? -/
def admits (t : C → Nat) (r : C × Nat) : Bool := decide (r.2 = 0 ∨ t r.1 < r.2)

def serve (t : C → Nat) (r : C × Nat) : C → Nat :=
  if admits t r then Function.update t r.1 r.2 else t

/-- How often the request is admitted. -/
def admissions (r : C × Nat) : (C → Nat) → List (C × Nat) → Nat
  | _, [] => 0
  | t, x :: rs => (if x = r ∧ admits t x = true then 1 else 0) + admissions r (serve t x) rs

/-- `b` may not come after `a`: it would lower the mark. -/
def NoReset (a b : C × Nat) : Prop := a.1 = b.1 → 0 < a.2 → 0 < b.2

instance (a b : C × Nat) : Decidable (NoReset a b) := by
  unfold NoReset
  infer_instance

/-- The mark of no client falls at any request. -/
def Rising : (C → Nat) → List (C × Nat) → Prop
  | _, [] => True
  | t, x :: rs => (∀ c, t c ≤ serve t x c) ∧ Rising (serve t x) rs

variable {t : C → Nat} {r x : C × Nat} {rs : List (C × Nat)} {c : C} {s : Nat}

/-! ## One request -/

theorem serve_other (h : x.1 ≠ c) : serve t x c = t c := by
  unfold serve
  split
  · exact Function.update_of_ne (Ne.symm h) _ _
  · rfl

/-- The mark of the client is the number of the request, or was not below it. -/
theorem serve_self : serve t x x.1 = x.2 ∨ 0 < x.2 ∧ x.2 ≤ t x.1 ∧ serve t x x.1 = t x.1 := by
  unfold serve admits
  by_cases h : x.2 = 0 ∨ t x.1 < x.2
  · rw [if_pos (decide_eq_true h)]
    exact .inl (Function.update_self ..)
  · rw [if_neg (by simpa using h)]
    rw [not_or] at h
    exact .inr ⟨Nat.pos_of_ne_zero h.1, Nat.le_of_not_lt h.2, rfl⟩

theorem le_serve_self : x.2 ≤ serve t x x.1 := by
  rcases serve_self (t := t) (x := x) with heq | ⟨-, hle, heq⟩
  · rw [heq]
  · rw [heq]
    exact hle

/-- A request that cannot lower the mark does not. -/
theorem le_serve (h : x.1 = c → x.2 = 0 → t c = 0) : t c ≤ serve t x c := by
  by_cases hc : x.1 = c
  · subst hc
    unfold serve
    split
    · next hadm =>
      rw [Function.update_self]
      rcases of_decide_eq_true hadm with hzero | hlt
      · rw [h rfl hzero]
        exact Nat.zero_le _
      · exact Nat.le_of_lt hlt
    · exact le_rfl
  · rw [serve_other hc]

/-! ## A client whose numbers are positive -/

/-- Once the mark has reached a number it stays there, and the number is not admitted any more. -/
theorem admissions_eq_zero (hpos : ∀ r ∈ rs, r.1 = c → 0 < r.2) (hs : 0 < s) (h : s ≤ t c) :
    admissions (c, s) t rs = 0 := by
  induction rs generalizing t with
  | nil => rfl
  | cons x rs ih =>
    have hmark : s ≤ serve t x c := by
      refine le_trans h (le_serve fun hx hzero => ?_)
      exact absurd (hpos x List.mem_cons_self hx) (by rw [hzero]; exact lt_irrefl 0)
    have hrefused : ¬(x = (c, s) ∧ admits t x = true) := by
      rintro ⟨rfl, hadm⟩
      rcases of_decide_eq_true hadm with hzero | hlt
      · exact absurd hzero (Nat.ne_of_gt hs)
      · exact absurd hlt (Nat.not_lt.mpr h)
    rw [admissions, if_neg hrefused, ih (fun r hr => hpos r (List.mem_cons_of_mem _ hr)) hmark]

/-- **A number is admitted exactly once if no larger one of its client comes before its first copy,
    and not at all otherwise.** -/
theorem admissions_eq_one (hpos : ∀ r ∈ rs, r.1 = c → 0 < r.2) (hs : 0 < s) (hmem : (c, s) ∈ rs)
    (h : t c < s) :
    admissions (c, s) t rs = 1 ↔ ∀ r ∈ rs.takeWhile (· ≠ (c, s)), r.1 = c → r.2 < s := by
  induction rs generalizing t with
  | nil => cases hmem
  | cons x rs ih =>
    have hpos' : ∀ r ∈ rs, r.1 = c → 0 < r.2 := fun r hr => hpos r (List.mem_cons_of_mem _ hr)
    by_cases hx : x = (c, s)
    · -- the first copy: it is admitted, and raises the mark to `s`
      subst hx
      have hadm : admits t (c, s) = true := decide_eq_true (.inr h)
      have hmark : s ≤ serve t (c, s) c := le_serve_self (x := (c, s))
      rw [admissions, if_pos ⟨rfl, hadm⟩, admissions_eq_zero hpos' hs hmark, List.takeWhile_cons]
      simp
    · have hrest : (c, s) ∈ rs := by
        rcases List.mem_cons.mp hmem with heq | hmem
        · exact absurd heq.symm hx
        · exact hmem
      have htake : (x :: rs).takeWhile (· ≠ (c, s)) = x :: rs.takeWhile (· ≠ (c, s)) := by
        rw [List.takeWhile_cons, if_pos (by simpa using hx)]
      rw [admissions, if_neg (fun hadm => hx hadm.1), Nat.zero_add, htake, List.forall_mem_cons]
      by_cases hbig : x.1 = c ∧ s ≤ x.2
      · obtain ⟨rfl, hle⟩ := hbig
        have hmark : s ≤ serve t x x.1 := le_trans hle le_serve_self
        rw [admissions_eq_zero hpos' hs hmark]
        exact ⟨fun h01 => absurd h01 (by decide), fun hall => absurd (hall.1 rfl) (Nat.not_lt.mpr hle)⟩
      · have hsmall : x.1 = c → x.2 < s := fun hc => Nat.lt_of_not_le fun hle => hbig ⟨hc, hle⟩
        have hmark : serve t x c < s := by
          by_cases hc : x.1 = c
          · subst hc
            rcases serve_self (t := t) (x := x) with heq | ⟨-, -, heq⟩
            · rw [heq]
              exact hsmall rfl
            · rw [heq]
              exact h
          · rw [serve_other hc]
            exact h
        rw [ih hpos' hrest hmark]
        exact ⟨fun hall => ⟨hsmall, hall⟩, fun hall => hall.2⟩

/-! ## Zeros -/

/-- **Without a zero after a positive number no number is admitted twice.** -/
theorem admissions_le_one (h : rs.Pairwise NoReset) (hs : 0 < s) : admissions (c, s) t rs ≤ 1 := by
  induction rs generalizing t with
  | nil => exact Nat.zero_le _
  | cons x rs ih =>
    obtain ⟨hx, hrs⟩ := List.pairwise_cons.mp h
    rw [admissions]
    split
    · next hadm =>
      obtain ⟨rfl, -⟩ := hadm
      have hpos : ∀ r ∈ rs, r.1 = c → 0 < r.2 := fun r hr hc => hx r hr hc.symm hs
      rw [admissions_eq_zero hpos hs (le_serve_self (x := (c, s)))]
    · rw [Nat.zero_add]
      exact ih hrs

theorem Rising.of_noReset (h : rs.Pairwise NoReset) (hzero : ∀ r ∈ rs, r.2 = 0 → t r.1 = 0) :
    Rising t rs := by
  induction rs generalizing t with
  | nil => trivial
  | cons x rs ih =>
    obtain ⟨hx, hrs⟩ := List.pairwise_cons.mp h
    refine ⟨fun c => le_serve fun hc hx0 => ?_, ih hrs fun r hr hr0 => ?_⟩
    · rw [← hc]
      exact hzero x List.mem_cons_self hx0
    · -- a zero of this client: the head was none of its positive numbers
      have hold := hzero r (List.mem_cons_of_mem _ hr) hr0
      by_cases hc : x.1 = r.1
      · have hx0 : x.2 = 0 := by
          by_contra hne
          exact absurd (hx r hr hc (Nat.pos_of_ne_zero hne)) (by rw [hr0]; exact lt_irrefl 0)
        rw [← hc] at hold ⊢
        rcases serve_self (t := t) (x := x) with heq | ⟨-, -, heq⟩
        · rw [heq, hx0]
        · rw [heq, hold]
      · rw [serve_other hc, hold]

/-- Along a rising table a mark above zero excludes zeros. -/
theorem Rising.pos_of_mark (h : Rising t rs) (hmark : 0 < t c) (hr : r ∈ rs) (hc : r.1 = c) :
    0 < r.2 := by
  induction rs generalizing t with
  | nil => cases hr
  | cons x rs ih =>
    obtain ⟨hstep, hrest⟩ := h
    have hmark' : 0 < serve t x c := lt_of_lt_of_le hmark (hstep c)
    rcases List.mem_cons.mp hr with rfl | hr
    · rcases serve_self (t := t) (x := r) with heq | ⟨hpos, -⟩
      · rw [← heq, hc]
        exact hmark'
      · exact hpos
    · exact ih hrest hmark' hr

/-- **From an empty table the marks rise exactly if no zero follows a positive number.** -/
theorem rising_iff : Rising (fun _ => 0) rs ↔ rs.Pairwise NoReset := by
  have hpairwise : ∀ {t : C → Nat} {rs : List (C × Nat)}, Rising t rs → rs.Pairwise NoReset := by
    intro t rs h
    induction rs generalizing t with
    | nil => exact List.Pairwise.nil
    | cons x rs ih =>
      refine List.pairwise_cons.mpr ⟨fun r hr hc hx => ?_, ih h.2⟩
      exact h.2.pos_of_mark (lt_of_lt_of_le hx le_serve_self) hr hc.symm
  exact ⟨hpairwise, fun h => .of_noReset h fun _ _ _ => rfl⟩

end HighWater
