import DistKV.Lib.TermLog

/-!
# Term logs are safe

The usual argument asks which committed entries a later leader holds, and is circular when it is
carried out step by step: whether an entry is committed may be decided long after the later
leader was elected. Here the question is asked of every entry a leader has written in its own
term, committed or not, and the answer is allowed to be "it can never be committed": `Blocked`
says that the voters of a later leader have left the term without acknowledging the entry. That
answer is final, so every clause of `Inv` is preserved by every single step.

`Inv.settled` is the outcome: what a leader has committed is a prefix of the log of every leader
after it. Nothing is said of quorums in that. Where all of them come from one family of which any
two meet, the steps may be taken (`Quorate.informed`, `Quorate.overtaken`) and a quorum keeps
what is committed (`Quorate.kept`).
-/

namespace TermLog

section Defs

variable {N E : Type} (tm : E → Nat)

/-- Every entry stands on exactly what its own leader had before it. -/
def Rooted (s : State N E) (L : List E) : Prop :=
  ∀ k e, L[k]? = some e → ∃ c L', s.ldr (tm e) = some (c, L') ∧ L.take (k + 1) <+: L'

/-- Terms do not decrease along the log. -/
def Sorted (L : List E) : Prop :=
  ∀ (j k : Nat) (a b : E), j ≤ k → L[j]? = some a → L[k]? = some b → tm a ≤ tm b

/-- The voters of a later leader have left term `T` without acknowledging position `k` of its
    leader's log, and it is not committed. -/
def Blocked (s : State N E) (T k : Nat) : Prop :=
  s.com T ≤ k ∧ ∃ U c L, T < U ∧ s.ldr U = some (c, L) ∧
    ∀ v ∈ s.bal U, T < s.term v ∧ s.acc v T ≤ k

/-- `M` has everything of term `T` that was written at the positions `p` speaks of, unless it
    can never be committed. -/
def Covers (s : State N E) (T : Nat) (p : Nat → Prop) (M : List E) : Prop :=
  ∀ c L k e, s.ldr T = some (c, L) → L[k]? = some e → tm e = T → p k →
    L.take (k + 1) <+: M ∨ Blocked s T k

structure Inv (s : State N E) : Prop where
  frozen : ∀ n T, s.term n < T → s.cand n T = none ∧ s.voted n T = none ∧ s.acc n T = 0
  voters : ∀ T c L, s.ldr T = some (c, L) → ∀ v ∈ s.bal T, s.voted v T = some c
  stood : ∀ T c L, s.ldr T = some (c, L) → ∃ M, s.cand c T = some M ∧ M <+: L ∧
    ∀ k e, M.length ≤ k → L[k]? = some e → tm e = T
  ballot : ∀ v T c, s.voted v T = some c → ∃ L, s.cand c T = some L ∧
    ∀ T', T' < T → Covers tm s T' (fun k => k < s.acc v T') L
  rootedLog : ∀ n, Rooted tm s (s.log n)
  rootedCand : ∀ n T L, s.cand n T = some L → Rooted tm s L
  rootedLdr : ∀ T c L, s.ldr T = some (c, L) → Rooted tm s L
  sortedLog : ∀ n, Sorted tm (s.log n)
  sortedCand : ∀ n T L, s.cand n T = some L → Sorted tm L
  sortedLdr : ∀ T c L, s.ldr T = some (c, L) → Sorted tm L
  boundLog : ∀ n, ∀ e ∈ s.log n, tm e ≤ s.term n
  boundCand : ∀ n T L, s.cand n T = some L → ∀ e ∈ L, tm e < T
  boundLdr : ∀ T c L, s.ldr T = some (c, L) → ∀ e ∈ L, tm e ≤ T
  accLdr : ∀ n T, 0 < s.acc n T → ∃ c L, s.ldr T = some (c, L) ∧ s.acc n T ≤ L.length
  held : ∀ n T, Covers tm s T (fun k => k < s.acc n T) (s.log n)
  complete : ∀ T T' c L, T < T' → s.ldr T' = some (c, L) → Covers tm s T (fun _ => True) L
  committed : ∀ T, 0 < s.com T → ∃ c L e, s.ldr T = some (c, L) ∧
    L[s.com T - 1]? = some e ∧ tm e = T

end Defs

variable {N E : Type} {tm : E → Nat} {n : N} {s s' : State N E}

/-! ## Prefixes -/

theorem getElem?_mono {L M : List E} {k : Nat} {e : E} (h : L <+: M)
    (he : L[k]? = some e) : M[k]? = some e := by
  obtain ⟨R, rfl⟩ := h
  have hk := (List.getElem?_eq_some_iff.mp he).1
  rw [List.getElem?_append_left hk]
  exact he

theorem getElem?_restrict {L M : List E} {k : Nat} {e : E} (h : L <+: M) (hk : k < L.length)
    (he : M[k]? = some e) : L[k]? = some e := by
  obtain ⟨R, rfl⟩ := h
  rw [List.getElem?_append_left hk] at he
  exact he

theorem take_prefix_take {L M : List E} {k m : Nat} (h : L.take k <+: M) (hk : k ≤ m) :
    L.take k <+: M.take m :=
  List.prefix_take_iff.mpr ⟨h, by simp; omega⟩

theorem take_eq_of_isPrefix {L M : List E} {k : Nat} (h : L <+: M) (hk : k ≤ L.length) :
    L.take k = M.take k := by
  obtain ⟨R, rfl⟩ := h
  rw [List.take_append_of_le_length hk]

theorem Sorted.restrict {L M : List E} (h : Sorted tm M) (hp : L <+: M) : Sorted tm L :=
  fun j k a b hjk ha hb => h j k a b hjk (getElem?_mono hp ha) (getElem?_mono hp hb)

theorem Rooted.restrict {L M : List E} (h : Rooted tm s M) (hp : L <+: M) : Rooted tm s L := by
  intro k e he
  obtain ⟨c, L', hl, hq⟩ := h k e (getElem?_mono hp he)
  have hk : k + 1 ≤ L.length := (List.getElem?_eq_some_iff.mp he).1
  exact ⟨c, L', hl, by rwa [take_eq_of_isPrefix hp hk]⟩

/-- **Log matching.** Two rooted logs with entries of one term at a position agree up to it. -/
theorem Rooted.matching {L M : List E} {k : Nat} {a b : E} (hL : Rooted tm s L)
    (hM : Rooted tm s M) (ha : L[k]? = some a) (hb : M[k]? = some b) (ht : tm a = tm b) :
    L.take (k + 1) = M.take (k + 1) := by
  obtain ⟨c, L', hl, hp⟩ := hL k a ha
  obtain ⟨c', M', hm, hq⟩ := hM k b hb
  rw [ht, hm] at hl
  simp only [Option.some.injEq, Prod.mk.injEq] at hl
  obtain ⟨-, rfl⟩ := hl
  have h1 : (L.take (k + 1)).length = k + 1 := by
    have := (List.getElem?_eq_some_iff.mp ha).1
    simp; omega
  have h2 : (M.take (k + 1)).length = k + 1 := by
    have := (List.getElem?_eq_some_iff.mp hb).1
    simp; omega
  exact (List.prefix_of_prefix_length_le hp hq (by omega)).eq_of_length (by omega)

/-! ## Monotonicity -/

theorem Rooted.mono {L : List E} (h : Rooted tm s L) (he : Ext s s') : Rooted tm s' L := by
  intro k e hk
  obtain ⟨c, L', hl, hp⟩ := h k e hk
  obtain ⟨L'', hl', hp'⟩ := he.ldr hl
  exact ⟨c, L'', hl', hp.trans hp'⟩

theorem Blocked.mono {T k : Nat} (h : Blocked s T k) (he : Ext s s') : Blocked s' T k := by
  obtain ⟨hcom, U, c, L, hTU, hl, hv⟩ := h
  obtain ⟨L', hl', -⟩ := he.ldr hl
  refine ⟨he.late hl hv hTU hcom, U, c, L', hTU, hl', fun v hm => ?_⟩
  rw [he.bal hl] at hm
  obtain ⟨ht, ha⟩ := hv v hm
  exact ⟨Nat.lt_of_lt_of_le ht (he.term v), by rw [he.frozen ht]; exact ha⟩

theorem Covers.mono_log {T : Nat} {p : Nat → Prop} {M M' : List E} (h : Covers tm s T p M)
    (hM : M <+: M') : Covers tm s T p M' :=
  fun c L k e hl hk ht hp => (h c L k e hl hk ht hp).imp (·.trans hM) id

/-- The leader of `T` may have written more: what is new has to be outside `p'` or blocked. -/
theorem Covers.mono {T : Nat} {p p' : Nat → Prop} {M : List E} (h : Covers tm s T p M)
    (he : Ext s s') (hp : ∀ k, p' k → p k)
    (hnew : ∀ c L k e, s'.ldr T = some (c, L) → L[k]? = some e → tm e = T → p' k →
      (∃ c' L', s.ldr T = some (c', L') ∧ k < L'.length) ∨ Blocked s' T k) :
    Covers tm s' T p' M := by
  intro c L k e hl hk ht hpk
  rcases hnew c L k e hl hk ht hpk with ⟨c', L', hl', hlt⟩ | hb
  · obtain ⟨L'', hl'', hpre⟩ := he.ldr hl'
    rw [hl] at hl''
    simp only [Option.some.injEq, Prod.mk.injEq] at hl''
    obtain ⟨rfl, rfl⟩ := hl''
    have hk' : L'[k]? = some e := by
      obtain ⟨R, rfl⟩ := hpre
      rwa [List.getElem?_append_left hlt] at hk
    rw [← take_eq_of_isPrefix hpre hlt]
    exact (h c L' k e hl' hk' ht (hp k hpk)).imp id (·.mono he)
  · exact .inr hb

theorem Covers.of_ldr_eq {T : Nat} {p p' : Nat → Prop} {M : List E} (h : Covers tm s T p M)
    (he : Ext s s') (hl : s'.ldr = s.ldr) (hp : ∀ k, p' k → p k) : Covers tm s' T p' M :=
  fun c L k e hc hk ht hpk => (h c L k e (hl ▸ hc) hk ht (hp k hpk)).imp id (·.mono he)

theorem Inv.init : Inv tm (State.init N E) where
  frozen _ _ _ := ⟨rfl, rfl, rfl⟩
  voters _ _ _ h := by cases h
  stood _ _ _ h := by cases h
  ballot _ _ _ h := by cases h
  rootedLog _ _ _ h := by simp [State.init] at h
  rootedCand _ _ _ h := by cases h
  rootedLdr _ _ _ h := by cases h
  sortedLog _ _ _ _ _ _ h := by simp [State.init] at h
  sortedCand _ _ _ h := by cases h
  sortedLdr _ _ _ h := by cases h
  boundLog _ _ h := by simp [State.init] at h
  boundCand _ _ _ h := by cases h
  boundLdr _ _ _ h := by cases h
  accLdr _ _ h := by simp [State.init] at h
  held _ _ _ _ _ _ h := by cases h
  complete _ _ _ _ _ h := by cases h
  committed _ h := by simp [State.init] at h

theorem Inv.fresh (h : Inv tm s) (T : Nat) (hT : s.term n < T) :
    s.cand n T = none ∧ s.voted n T = none :=
  ⟨(h.frozen n T hT).1, (h.frozen n T hT).2.1⟩

theorem Inv.term_of_voted (h : Inv tm s) {v c : N} {T : Nat} (hv : s.voted v T = some c) :
    T ≤ s.term v := by
  rcases Nat.lt_or_ge (s.term v) T with hlt | hge
  · rw [(h.frozen v T hlt).2.1] at hv; cases hv
  · exact hge

theorem Inv.term_of_acc (h : Inv tm s) {v : N} {T : Nat} (hv : 0 < s.acc v T) :
    T ≤ s.term v := by
  rcases Nat.lt_or_ge (s.term v) T with hlt | hge
  · rw [(h.frozen v T hlt).2.2] at hv; exact absurd hv (Nat.lt_irrefl 0)
  · exact hge

/-- What is acknowledged of a term was there to be acknowledged. -/
theorem Inv.acc_le (h : Inv tm s) {v c : N} {T : Nat} {L : List E}
    (hl : s.ldr T = some (c, L)) : s.acc v T ≤ L.length := by
  rcases Nat.eq_zero_or_pos (s.acc v T) with h0 | hpos
  · omega
  · obtain ⟨c', L', hl', hle⟩ := h.accLdr v T hpos
    rw [hl] at hl'
    simp only [Option.some.injEq, Prod.mk.injEq] at hl'
    obtain ⟨-, rfl⟩ := hl'
    exact hle

/-! ## What is committed stays -/

/-- A committed position is never blocked. -/
theorem not_blocked {T k : Nat} (hk : k < s.com T) : ¬Blocked s T k := by
  intro hb
  exact Nat.not_lt_of_le hb.1 hk

/-- Nothing is committed in a term without a leader. -/
theorem Inv.com_zero (h : Inv tm s) {T : Nat} (hl : s.ldr T = none) : s.com T = 0 := by
  rcases Nat.eq_zero_or_pos (s.com T) with h0 | hpos
  · exact h0
  · obtain ⟨c, L, e, hldr, -⟩ := h.committed T hpos
    rw [hl] at hldr
    cases hldr

theorem Inv.com_le (h : Inv tm s) {T : Nat} {c : N} {L : List E} (hl : s.ldr T = some (c, L)) :
    s.com T ≤ L.length := by
  rcases Nat.eq_zero_or_pos (s.com T) with h0 | hpos
  · omega
  obtain ⟨c', L', e, hl', hk, -⟩ := h.committed T hpos
  rw [hl] at hl'
  simp only [Option.some.injEq, Prod.mk.injEq] at hl'
  obtain ⟨-, rfl⟩ := hl'
  have := (List.getElem?_eq_some_iff.mp hk).1
  omega

/-- `P` is a committed prefix, and it was committed in term `T` or before. -/
def Settled (s : State N E) (T : Nat) (P : List E) : Prop :=
  P = [] ∨ ∃ U c L, U ≤ T ∧ s.ldr U = some (c, L) ∧ P <+: L ∧ P.length ≤ s.com U

theorem Settled.mono {T T' : Nat} {P : List E} (h : Settled s T P) (he : Ext s s')
    (hT : T ≤ T') : Settled s' T' P := by
  rcases h with rfl | ⟨U, c, L, hU, hl, hp, hc⟩
  · exact .inl rfl
  · obtain ⟨L', hl', hp'⟩ := he.ldr hl
    exact .inr ⟨U, c, L', by omega, hl', hp.trans hp', Nat.le_trans hc (he.com U)⟩

theorem Settled.restrict {T : Nat} {P P' : List E} (h : Settled s T P) (hp : P' <+: P) :
    Settled s T P' := by
  rcases h with rfl | ⟨U, c, L, hU, hl, hp', hc⟩
  · exact .inl (List.prefix_nil.mp hp)
  · exact .inr ⟨U, c, L, hU, hl, hp.trans hp', Nat.le_trans hp.length_le hc⟩

/-- Whoever has a leader's last committed entry has all that is committed in its term. -/
theorem Covers.committed {T : Nat} {p : Nat → Prop} {M P L : List E} {c : N}
    (hcov : Covers tm s T p M) (h : Inv tm s) (hl : s.ldr T = some (c, L)) (hp : P <+: L)
    (hcom : P.length ≤ s.com T) (hlast : p (s.com T - 1)) : P <+: M := by
  rcases Nat.eq_zero_or_pos P.length with h0 | hpos
  · rw [List.length_eq_zero_iff.mp h0]
    exact List.nil_prefix
  obtain ⟨c', L', e, hl', hk, ht⟩ := h.committed T (by omega)
  rw [hl] at hl'
  simp only [Option.some.injEq, Prod.mk.injEq] at hl'
  obtain ⟨rfl, rfl⟩ := hl'
  rcases hcov c L _ e hl hk ht hlast with hpre | hb
  · rw [Nat.sub_add_cancel (by omega)] at hpre
    exact (List.prefix_take_iff.mpr ⟨hp, hcom⟩).trans hpre
  · exact absurd hb (not_blocked (by omega))

/-- **Leader completeness.** What is committed in a term is in the log of every leader from
    that term on. -/
theorem Inv.settled (h : Inv tm s) {T T' : Nat} {P L : List E} {c : N}
    (hP : Settled s T P) (hT : T ≤ T') (hl : s.ldr T' = some (c, L)) : P <+: L := by
  rcases hP with rfl | ⟨U, c', L', hU, hl', hp, hcom⟩
  · exact List.nil_prefix
  rcases Nat.lt_or_ge U T' with hlt | hge
  · exact (h.complete U T' c L hlt hl).committed h hl' hp hcom trivial
  · have : U = T' := by omega
    subst this
    rw [hl] at hl'
    simp only [Option.some.injEq, Prod.mk.injEq] at hl'
    obtain ⟨-, rfl⟩ := hl'
    exact hp

/-- Every later leader had it when it became a candidate, even if it was committed after that:
    what a leader writes itself is of its own term. -/
theorem Inv.settled_cand (h : Inv tm s) {T T' : Nat} {P L M : List E} {c : N}
    (hP : Settled s T P) (hT : T < T') (hl : s.ldr T' = some (c, L)) (hM : s.cand c T' = some M) :
    P <+: M := by
  have hPL := h.settled hP (Nat.le_of_lt hT) hl
  obtain ⟨M', hM', hML, hown⟩ := h.stood T' c L hl
  rw [hM, Option.some.injEq] at hM'
  subst hM'
  rcases List.prefix_or_prefix_of_prefix hPL hML with hp | hp
  · exact hp
  rcases Nat.lt_or_ge M.length P.length with hlt | hge
  swap
  · exact (hp.eq_of_length_le hge) ▸ List.prefix_refl _
  rcases hP with rfl | ⟨U, c', L', hU, hl', hp', -⟩
  · exact List.nil_prefix
  obtain ⟨e, he⟩ : ∃ e, P[M.length]? = some e := ⟨_, List.getElem?_eq_getElem hlt⟩
  have hterm := hown _ e (Nat.le_refl _) (getElem?_mono hPL he)
  have hbound := h.boundLdr U c' L' hl' e (List.mem_of_getElem? (getElem?_mono hp' he))
  omega

/-- **Committed prefixes agree.** -/
theorem Inv.settled_agree (h : Inv tm s) {T T' : Nat} {P P' : List E}
    (hP : Settled s T P) (hP' : Settled s T' P') : P <+: P' ∨ P' <+: P := by
  rcases hP with rfl | ⟨U, c, L, hU, hl, hp, hc⟩
  · exact .inl List.nil_prefix
  rcases hP' with rfl | ⟨U', c', L', hU', hl', hp', hc'⟩
  · exact .inr List.nil_prefix
  rcases Nat.le_total U U' with hle | hle
  · have := h.settled (.inr ⟨U, c, L, Nat.le_refl _, hl, hp, hc⟩) hle hl'
    exact List.prefix_or_prefix_of_prefix this hp'
  · have := h.settled (.inr ⟨U', c', L', Nat.le_refl _, hl', hp', hc'⟩) hle hl
    exact List.prefix_or_prefix_of_prefix hp this

theorem Inv.settled_le (h : Inv tm s) {T T' : Nat} {P P' : List E} (hP : Settled s T P)
    (hP' : Settled s T' P') (hle : P.length ≤ P'.length) : P <+: P' := by
  rcases h.settled_agree hP hP' with hp | hp
  · exact hp
  · exact (hp.eq_of_length_le hle) ▸ List.prefix_refl _

/-! ## The steps -/

section Steps

variable [DecidableEq N]

theorem Inv.bump (h : Inv tm s) {T : Nat} (later : s.term n < T) :
    Inv tm { s with term := Function.update s.term n T } := by
  have he := (Step.bump T later : Step tm .any n s _).ext h.fresh
  have hterm : ∀ m, s.term m ≤ Function.update s.term n T m := he.term
  exact {
    frozen := fun m U hU => h.frozen m U (Nat.lt_of_le_of_lt (hterm m) hU)
    voters := h.voters
    stood := h.stood
    ballot := fun v U c hv => by
      obtain ⟨L, hc, hcov⟩ := h.ballot v U c hv
      exact ⟨L, hc, fun U' hU => (hcov U' hU).of_ldr_eq he rfl fun _ hk => hk⟩
    rootedLog := h.rootedLog
    rootedCand := h.rootedCand
    rootedLdr := h.rootedLdr
    sortedLog := h.sortedLog
    sortedCand := h.sortedCand
    sortedLdr := h.sortedLdr
    boundLog := fun m e hm => Nat.le_trans (h.boundLog m e hm) (hterm m)
    boundCand := h.boundCand
    boundLdr := h.boundLdr
    accLdr := h.accLdr
    held := fun m U => (h.held m U).of_ldr_eq he rfl fun _ hk => hk
    complete := fun U U' c L hU hl => (h.complete U U' c L hU hl).of_ldr_eq he rfl fun _ hk => hk
    committed := h.committed }

theorem Inv.campaign (h : Inv tm s) {T : Nat} (later : s.term n < T) :
    Inv tm { s with
      term := Function.update s.term n T
      cand := cell s.cand n T (some (s.log n))
      voted := cell s.voted n T (some n) } := by
  have he := (Step.campaign T later : Step tm .any n s _).ext h.fresh
  have hterm : ∀ m, s.term m ≤ Function.update s.term n T m := he.term
  have hcand : ∀ m U L, cell s.cand n T (some (s.log n)) m U = some L →
      (m = n ∧ U = T ∧ L = s.log n) ∨ s.cand m U = some L := by
    intro m U L hL
    by_cases hm : m = n ∧ U = T
    · simp only [cell, hm, and_self, if_true, Option.some.injEq] at hL
      exact .inl ⟨hm.1, hm.2, hL.symm⟩
    · exact .inr (by simpa [cell, hm] using hL)
  exact {
    frozen := fun m U hU => by
      have hmU : ¬(m = n ∧ U = T) := by
        rintro ⟨rfl, rfl⟩; simp at hU
      simpa [cell, hmU] using h.frozen m U (Nat.lt_of_le_of_lt (hterm m) hU)
    voters := fun U c L hl v hm => he.voted (h.voters U c L hl v hm)
    stood := fun U c L hl => by
      obtain ⟨M, hM, hown⟩ := h.stood U c L hl
      exact ⟨M, he.cand hM, hown⟩
    ballot := fun v U c hv => by
      by_cases hm : v = n ∧ U = T
      · -- the candidate's own vote: its log is the one it campaigns with
        obtain ⟨rfl, rfl⟩ := hm
        simp only [cell, and_self, if_true, Option.some.injEq] at hv
        subst hv
        exact ⟨s.log v, by simp [cell], fun U' _ => (h.held v U').of_ldr_eq he rfl fun _ hk => hk⟩
      · have hv' : s.voted v U = some c := by simpa [cell, hm] using hv
        obtain ⟨L, hc, hcov⟩ := h.ballot v U c hv'
        exact ⟨L, he.cand hc, fun U' hU => (hcov U' hU).of_ldr_eq he rfl fun _ hk => hk⟩
    rootedLog := h.rootedLog
    rootedCand := fun m U L hL => by
      rcases hcand m U L hL with ⟨-, -, rfl⟩ | hL
      · exact h.rootedLog n
      · exact h.rootedCand m U L hL
    rootedLdr := h.rootedLdr
    sortedLog := h.sortedLog
    sortedCand := fun m U L hL => by
      rcases hcand m U L hL with ⟨-, -, rfl⟩ | hL
      · exact h.sortedLog n
      · exact h.sortedCand m U L hL
    sortedLdr := h.sortedLdr
    boundLog := fun m e hm => Nat.le_trans (h.boundLog m e hm) (hterm m)
    boundCand := fun m U L hL e hm => by
      rcases hcand m U L hL with ⟨-, rfl, rfl⟩ | hL
      · exact Nat.lt_of_le_of_lt (h.boundLog n e hm) later
      · exact h.boundCand m U L hL e hm
    boundLdr := h.boundLdr
    accLdr := h.accLdr
    held := fun m U => (h.held m U).of_ldr_eq he rfl fun _ hk => hk
    complete := fun U U' c L hU hl => (h.complete U U' c L hU hl).of_ldr_eq he rfl fun _ hk => hk
    committed := h.committed }

omit [DecidableEq N] in
theorem lastTerm_take {L : List E} {k : Nat} {e : E} (h : L[k]? = some e) :
    lastTerm tm (L.take (k + 1)) = tm e := by
  rw [lastTerm, List.take_add_one, h]
  simp

omit [DecidableEq N] in
theorem lastTerm_le {L : List E} {T : Nat} (h : ∀ e ∈ L, tm e ≤ T) : lastTerm tm L ≤ T := by
  rw [lastTerm]
  cases hl : L.getLast? with
  | none => exact Nat.zero_le _
  | some e => exact h e (List.mem_of_getLast? hl)

omit [DecidableEq N] in
/-- The last entry of a log that has an entry of term `T` is at least of that term. -/
theorem Sorted.le_lastTerm {L : List E} {k : Nat} {e : E} (h : Sorted tm L)
    (he : L[k]? = some e) : ∃ x, L.getLast? = some x ∧ tm e ≤ tm x ∧ lastTerm tm L = tm x := by
  have hk := (List.getElem?_eq_some_iff.mp he).1
  have hlast : L.getLast? = L[L.length - 1]? := List.getLast?_eq_getElem?
  have hx : L[L.length - 1]? = some (L.get ⟨L.length - 1, by omega⟩) :=
    List.getElem?_eq_getElem (by omega)
  refine ⟨_, hlast.trans hx, h k _ _ _ (by omega) he hx, ?_⟩
  rw [lastTerm, hlast, hx]
  rfl

omit [DecidableEq N] in
/-- **Up to date means up to date.** A campaign log at least as up to date as one that has a
    leader's own entry has that entry too, unless it can never be committed. -/
theorem Inv.covers_of_upToDate (h : Inv tm s) {M L : List E} {T : Nat} {p : Nat → Prop}
    (hM : Sorted tm M) (hL : Rooted tm s L) (hu : UpToDate tm L M)
    (hcov : Covers tm s T p M) : Covers tm s T p L := by
  intro c L₀ k e hl hk ht hp
  rcases hcov c L₀ k e hl hk ht hp with hpre | hb
  swap
  · exact .inr hb
  have hkM : M[k]? = some e := by
    refine getElem?_mono hpre ?_
    rw [List.getElem?_take_of_lt (Nat.lt_succ_self k)]
    exact hk
  obtain ⟨y, -, hty, hlastM⟩ := hM.le_lastTerm hkM
  have hlen : k < M.length := (List.getElem?_eq_some_iff.mp hkM).1
  -- the campaign log is not empty: its last entry `x` is at least of term `T`
  obtain ⟨x, hx⟩ : ∃ x, L.getLast? = some x := by
    cases hL' : L.getLast? with
    | some x => exact ⟨x, rfl⟩
    | none =>
      rw [List.getLast?_eq_none_iff] at hL'
      subst hL'
      rcases hu with hu | ⟨-, hu⟩
      · simp [lastTerm] at hu
      · have : M.length ≤ 0 := hu
        omega
  have hlastL : lastTerm tm L = tm x := by simp [lastTerm, hx]
  have hpos : 0 < L.length := by
    cases L with
    | nil => simp at hx
    | cons => simp
  have hxk : L[L.length - 1]? = some x := by rw [← List.getLast?_eq_getElem?]; exact hx
  obtain ⟨cx, Lx, hlx, hpx⟩ := hL _ _ hxk
  rw [Nat.sub_add_cancel hpos, List.take_length] at hpx
  rcases Nat.lt_trichotomy T (tm x) with hlt | heq | hgt
  · -- a later leader wrote the last entry, and it has the entry in question
    rcases h.complete T (tm x) cx Lx hlt hlx c L₀ k e hl hk ht trivial with hpre' | hb
    swap
    · exact .inr hb
    left
    have hkx : Lx[k]? = some e := by
      refine getElem?_mono hpre' ?_
      rw [List.getElem?_take_of_lt (Nat.lt_succ_self k)]
      exact hk
    have hkL : k + 1 ≤ L.length := by
      by_contra hcon
      have := h.sortedLdr _ _ _ hlx _ _ _ _ (by omega) (getElem?_mono hpx hxk) hkx
      omega
    have h1 : L₀.take (k + 1) <+: Lx.take (k + 1) := take_prefix_take hpre' (Nat.le_refl _)
    rw [← take_eq_of_isPrefix hpx hkL] at h1
    exact h1.trans (List.take_prefix _ _)
  · -- the same leader wrote it
    left
    rw [heq, hlx] at hl
    simp only [Option.some.injEq, Prod.mk.injEq] at hl
    obtain ⟨-, rfl⟩ := hl
    have hkL : k + 1 ≤ L.length := by
      rcases hu with hu | ⟨-, hu⟩
      · rw [hlastL, hlastM] at hu; omega
      · omega
    rw [← take_eq_of_isPrefix hpx hkL]
    exact List.take_prefix _ _
  · exfalso
    rcases hu with hu | ⟨hu, -⟩ <;> rw [hlastL, hlastM] at hu <;> omega

theorem Inv.vote (h : Inv tm s) {c : N} {L : List E} (hc : s.cand c (s.term n) = some L)
    (free : s.voted n (s.term n) = none) (hu : UpToDate tm L (s.log n)) :
    Inv tm { s with voted := cell s.voted n (s.term n) (some c) } := by
  have he := (Step.vote c L hc free hu : Step tm .any n s _).ext h.fresh
  exact { h with
    frozen := fun m U hU => by
      have hmU : ¬(m = n ∧ U = s.term n) := by rintro ⟨rfl, rfl⟩; exact Nat.lt_irrefl _ hU
      simpa [cell, hmU] using h.frozen m U hU
    voters := fun U c' L' hl v hm => he.voted (h.voters U c' L' hl v hm)
    ballot := fun v U c' hv => by
      by_cases hm : v = n ∧ U = s.term n
      · obtain ⟨rfl, rfl⟩ := hm
        simp only [cell, and_self, if_true, Option.some.injEq] at hv
        subst hv
        exact ⟨L, hc, fun U' _ => (h.covers_of_upToDate (h.sortedLog v)
          (h.rootedCand _ _ _ hc) hu (h.held v U')).of_ldr_eq he rfl fun _ hk => hk⟩
      · have hv' : s.voted v U = some c' := by simpa [cell, hm] using hv
        obtain ⟨L', hc', hcov⟩ := h.ballot v U c' hv'
        exact ⟨L', hc', fun U' hU => (hcov U' hU).of_ldr_eq he rfl fun _ hk => hk⟩
    held := fun m U => (h.held m U).of_ldr_eq he rfl fun _ hk => hk
    complete := fun U U' c' L' hU hl =>
      (h.complete U U' c' L' hU hl).of_ldr_eq he rfl fun _ hk => hk }

omit [DecidableEq N] in
/-- The log of a candidate has what is committed before its term, if one of its voters is
    informed. -/
theorem Inv.informed_log (h : Inv tm s) {T : Nat} {V : Finset N} {M : List E}
    (hc : s.cand n T = some M) (votes : ∀ v ∈ V, s.voted v T = some n) (hV : Informed s T V)
    {U : Nat} (hU : U < T) {P : List E} (hP : Settled s U P) : P <+: M := by
  rcases hP with rfl | ⟨U', c, L, hU', hl, hp, hcom⟩
  · exact List.nil_prefix
  rcases Nat.eq_zero_or_pos P.length with h0 | hpos
  · rw [List.length_eq_zero_iff.mp h0]
    exact List.nil_prefix
  obtain ⟨W, hW, hle, v, hv, hacc⟩ := hV U' (by omega) (by omega)
  obtain ⟨c', L', e, hl', -, -⟩ := h.committed W (by omega)
  -- the voter's ballot covers the longest committed prefix, and `P` is part of that
  obtain ⟨M', hM', hcov⟩ := h.ballot v T n (votes v hv)
  rw [hc, Option.some.injEq] at hM'
  subst hM'
  have hlong : L'.take (s.com W) <+: M :=
    (hcov W hW).committed h hl' (List.take_prefix _ _) (List.length_take_le _ _) (by omega)
  refine List.IsPrefix.trans ?_ hlong
  have hlen := h.com_le hl'
  have hown : Settled s U' P := .inr ⟨U', c, L, Nat.le_refl _, hl, hp, hcom⟩
  have hmost : Settled s W (L'.take (s.com W)) :=
    .inr ⟨W, c', L', Nat.le_refl _, hl', List.take_prefix _ _, List.length_take_le _ _⟩
  refine h.settled_le hown hmost ?_
  rw [List.length_take]
  omega

omit [DecidableEq N] in
/-- What stands in the table of leaders after a change of one row. -/
theorem ldr_update {T U : Nat} {c : N} {L M : List E}
    (hl : Function.update s.ldr T (some (n, M)) U = some (c, L)) :
    (U = T ∧ c = n ∧ L = M) ∨ (U ≠ T ∧ s.ldr U = some (c, L)) := by
  by_cases hU : U = T
  · subst hU
    simp only [Function.update_self, Option.some.injEq, Prod.mk.injEq] at hl
    exact .inl ⟨rfl, hl.1.symm, hl.2.symm⟩
  · rw [Function.update_of_ne hU] at hl
    exact .inr ⟨hU, hl⟩

theorem Inv.elect (h : Inv tm s) {V : Finset N} (hc : s.cand n (s.term n) = some (s.log n))
    (free : s.ldr (s.term n) = none) (votes : ∀ v ∈ V, s.voted v (s.term n) = some n)
    (informed : Informed s (s.term n) V) :
    Inv tm { s with
      ldr := Function.update s.ldr (s.term n) (some (n, s.log n))
      bal := Function.update s.bal (s.term n) V } := by
  have he := (Step.elect V hc free trivial votes informed : Step tm .any n s _).ext h.fresh
  -- the new leader has not written in its own term yet
  have hnone : ∀ (k : Nat) (e : E), (s.log n)[k]? = some e → tm e ≠ s.term n := by
    intro k e hk heq
    have := h.boundCand _ _ _ hc e (List.mem_of_getElem? hk)
    omega
  have hold : ∀ {T p M}, Covers tm s T p M → Covers tm { s with
      ldr := Function.update s.ldr (s.term n) (some (n, s.log n))
      bal := Function.update s.bal (s.term n) V } T p M := by
    intro T p M hcov
    refine hcov.mono he (fun _ hk => hk) fun c L k e hl hk ht _ => ?_
    rcases ldr_update hl with ⟨rfl, -, rfl⟩ | ⟨-, hl⟩
    · exact absurd ht (hnone k e hk)
    · exact .inl ⟨c, L, hl, (List.getElem?_eq_some_iff.mp hk).1⟩
  exact { h with
    voters := fun T c L hl v hv => by
      rcases ldr_update hl with ⟨rfl, rfl, rfl⟩ | ⟨hT, hl⟩
      · exact votes v (by simpa using hv)
      · exact h.voters T c L hl v (by simpa [Function.update_of_ne hT] using hv)
    stood := fun T c L hl => by
      rcases ldr_update hl with ⟨rfl, rfl, rfl⟩ | ⟨-, hl⟩
      · refine ⟨_, hc, List.prefix_refl _, fun k e hk hke => ?_⟩
        exact absurd (List.getElem?_eq_some_iff.mp hke).1 (Nat.not_lt_of_le hk)
      · exact h.stood T c L hl
    ballot := fun v T c hv => by
      obtain ⟨L, hL, hcov⟩ := h.ballot v T c hv
      exact ⟨L, hL, fun T' hT => hold (hcov T' hT)⟩
    rootedLog := fun m => (h.rootedLog m).mono he
    rootedCand := fun m T L hL => (h.rootedCand m T L hL).mono he
    rootedLdr := fun T c L hl => by
      rcases ldr_update hl with ⟨-, -, rfl⟩ | ⟨-, hl⟩
      · exact (h.rootedLog n).mono he
      · exact (h.rootedLdr T c L hl).mono he
    sortedLdr := fun T c L hl => by
      rcases ldr_update hl with ⟨-, -, rfl⟩ | ⟨-, hl⟩
      · exact h.sortedLog n
      · exact h.sortedLdr T c L hl
    boundLdr := fun T c L hl e hm => by
      rcases ldr_update hl with ⟨rfl, -, rfl⟩ | ⟨-, hl⟩
      · exact h.boundLog n e hm
      · exact h.boundLdr T c L hl e hm
    accLdr := fun m T hpos => by
      obtain ⟨c, L, hl, hle⟩ := h.accLdr m T hpos
      obtain ⟨L', hl', hp⟩ := he.ldr hl
      exact ⟨c, L', hl', Nat.le_trans hle hp.length_le⟩
    held := fun m T => hold (h.held m T)
    complete := fun T T' c L hT hl => by
      rcases ldr_update hl with ⟨rfl, rfl, rfl⟩ | ⟨-, hl⟩
      swap
      · exact hold (h.complete T T' c L hT hl)
      intro c' L' k e hnew hk ht _
      have hl' : s.ldr T = some (c', L') := by
        rcases ldr_update hnew with ⟨rfl, -, -⟩ | ⟨-, hl'⟩
        · exact absurd hT (Nat.lt_irrefl _)
        · exact hl'
      -- its voters: one of them acknowledged the entry, or one knows that it is committed, or all
      -- of them block it
      by_cases hex : ∃ v ∈ V, k < s.acc v T
      · obtain ⟨v, hm, hka⟩ := hex
        obtain ⟨L'', hc'', hcov⟩ := h.ballot v _ c (votes v hm)
        rw [hc] at hc''
        cases hc''
        exact (hcov T hT c' L' k e hl' hk ht hka).imp id (·.mono he)
      rcases Nat.lt_or_ge k (s.com T) with hlt | hge
      · refine .inl (h.informed_log hc votes informed hT (.inr ⟨T, c', L', Nat.le_refl _, hl',
          List.take_prefix _ _, ?_⟩))
        exact Nat.le_trans (List.length_take_le _ _) hlt
      · refine .inr ⟨hge, s.term c, c, s.log c, hT, Function.update_self .., fun v hm => ?_⟩
        simp only [Function.update_self] at hm
        exact ⟨Nat.lt_of_lt_of_le hT (h.term_of_voted (votes v hm)),
          Nat.le_of_not_lt fun hlt => hex ⟨v, hm, hlt⟩⟩
    committed := fun T hpos => by
      obtain ⟨c, L, e, hl, hk, ht⟩ := h.committed T hpos
      obtain ⟨L', hl', hp⟩ := he.ldr hl
      exact ⟨c, L', e, hl', getElem?_mono hp hk, ht⟩ }

/-! ### A leader writes -/

omit [DecidableEq N] in
theorem getElem?_concat {L : List E} {e x : E} {k : Nat} (hk : (L ++ [e])[k]? = some x) :
    L[k]? = some x ∨ (k = L.length ∧ x = e) := by
  rcases Nat.lt_or_ge k L.length with hlt | hge
  · rw [List.getElem?_append_left hlt] at hk
    exact .inl hk
  · have hlt := (List.getElem?_eq_some_iff.mp hk).1
    simp only [List.length_append, List.length_singleton] at hlt
    obtain rfl : k = L.length := by omega
    simp only [List.getElem?_concat_length, Option.some.injEq] at hk
    exact .inr ⟨rfl, hk.symm⟩

omit [DecidableEq N] in
theorem Sorted.concat {L : List E} {e : E} (h : Sorted tm L) (hle : ∀ x ∈ L, tm x ≤ tm e) :
    Sorted tm (L ++ [e]) := by
  intro j k a b hjk ha hb
  rcases getElem?_concat hb with hb | ⟨rfl, rfl⟩
  · have hlt := (List.getElem?_eq_some_iff.mp hb).1
    rw [List.getElem?_append_left (by omega)] at ha
    exact h j k a b hjk ha hb
  · rcases getElem?_concat ha with ha | ⟨-, rfl⟩
    · exact hle a (List.mem_of_getElem? ha)
    · exact Nat.le_refl _

omit [DecidableEq N] in
theorem Rooted.concat {L : List E} {e : E} {c : N} (h : Rooted tm s L)
    (hl : s.ldr (tm e) = some (c, L ++ [e])) : Rooted tm s (L ++ [e]) := by
  intro k x hk
  rcases getElem?_concat hk with hk | ⟨rfl, rfl⟩
  · have hlt := (List.getElem?_eq_some_iff.mp hk).1
    obtain ⟨c', L', hl', hp⟩ := h k x hk
    exact ⟨c', L', hl', by rwa [List.take_append_of_le_length (by omega)]⟩
  · exact ⟨c, L ++ [x], hl, List.take_prefix _ _⟩

/-- Only the last position of the leader's log is new. -/
theorem Covers.extend {T : Nat} {p : Nat → Prop} {M : List E} (h : Covers tm s T p M) {e : E}
    (own : s.ldr (s.term n) = some (n, s.log n)) (he : Ext s { s with
      log := Function.update s.log n (s.log n ++ [e])
      ldr := Function.update s.ldr (s.term n) (some (n, s.log n ++ [e])) })
    (hnew : T = s.term n → p (s.log n).length → Blocked s T (s.log n).length) :
    Covers tm { s with
      log := Function.update s.log n (s.log n ++ [e])
      ldr := Function.update s.ldr (s.term n) (some (n, s.log n ++ [e])) } T p M := by
  refine h.mono he (fun _ hk => hk) fun c L k x hl hk ht hp => ?_
  rcases ldr_update hl with ⟨rfl, -, rfl⟩ | ⟨-, hl⟩
  · rcases getElem?_concat hk with hk | ⟨rfl, -⟩
    · exact .inl ⟨n, s.log n, own, (List.getElem?_eq_some_iff.mp hk).1⟩
    · exact .inr ((hnew rfl hp).mono he)
  · exact .inl ⟨c, L, hl, (List.getElem?_eq_some_iff.mp hk).1⟩

omit [DecidableEq N] in
/-- A leader whose voters have been overtaken blocks whatever it writes now. -/
theorem Inv.blocked_end (h : Inv tm s) {T U : Nat} {c c' : N} {L L' : List E} (hTU : T < U)
    (hl : s.ldr T = some (c, L)) (hl' : s.ldr U = some (c', L')) : Blocked s T L.length := by
  refine ⟨h.com_le hl, U, c', L', hTU, hl', fun v hv => ⟨?_, h.acc_le hl⟩⟩
  exact Nat.lt_of_lt_of_le hTU (h.term_of_voted (h.voters U c' L' hl' v hv))

theorem Inv.extend (h : Inv tm s) {e : E} (own : s.ldr (s.term n) = some (n, s.log n))
    (current : tm e = s.term n) :
    Inv tm { s with
      log := Function.update s.log n (s.log n ++ [e])
      ldr := Function.update s.ldr (s.term n) (some (n, s.log n ++ [e])) } := by
  have he := (Step.extend e own current trivial : Step tm .any n s _).ext h.fresh
  have hlog : ∀ m, s.log m <+: Function.update s.log n (s.log n ++ [e]) m := by
    intro m
    by_cases hm : m = n
    · subst hm; simp
    · simp [Function.update_of_ne hm]
  have hacc : ∀ v, ¬(s.log n).length < s.acc v (s.term n) :=
    fun v => Nat.not_lt.mpr (h.acc_le own)
  have hroot := ((h.rootedLog n).mono he).concat (c := n) (e := e) (by simp [current])
  have hsort : Sorted tm (s.log n ++ [e]) :=
    (h.sortedLog n).concat fun x hx => by rw [current]; exact h.boundLog n x hx
  have hbound : ∀ x ∈ s.log n ++ [e], tm x ≤ s.term n := by
    intro x hx
    simp only [List.mem_append, List.mem_singleton] at hx
    rcases hx with hx | rfl
    · exact h.boundLog n x hx
    · exact Nat.le_of_eq current
  exact { h with
    voters := fun T c L hl => by
      rcases ldr_update hl with ⟨rfl, rfl, rfl⟩ | ⟨-, hl⟩
      · exact h.voters _ _ _ own
      · exact h.voters T c L hl
    stood := fun T c L hl => by
      rcases ldr_update hl with ⟨rfl, rfl, rfl⟩ | ⟨-, hl⟩
      swap
      · exact h.stood T c L hl
      obtain ⟨M, hM, hpre, hown⟩ := h.stood _ _ _ own
      refine ⟨M, hM, hpre.trans (List.prefix_append _ _), fun k x hk hkx => ?_⟩
      rcases getElem?_concat hkx with hkx | ⟨-, rfl⟩
      · exact hown k x hk hkx
      · exact current
    ballot := fun v T c hv => by
      obtain ⟨L, hL, hcov⟩ := h.ballot v T c hv
      exact ⟨L, hL, fun T' hT => (hcov T' hT).extend own he fun heq hp => absurd hp (heq ▸ hacc v)⟩
    rootedLog := fun m => by
      by_cases hm : m = n
      · subst hm; simpa using hroot
      · simpa [Function.update_of_ne hm] using (h.rootedLog m).mono he
    rootedCand := fun m T L hL => (h.rootedCand m T L hL).mono he
    rootedLdr := fun T c L hl => by
      rcases ldr_update hl with ⟨-, -, rfl⟩ | ⟨-, hl⟩
      · exact hroot
      · exact (h.rootedLdr T c L hl).mono he
    sortedLog := fun m => by
      by_cases hm : m = n
      · subst hm; simpa using hsort
      · simpa [Function.update_of_ne hm] using h.sortedLog m
    sortedLdr := fun T c L hl => by
      rcases ldr_update hl with ⟨-, -, rfl⟩ | ⟨-, hl⟩
      · exact hsort
      · exact h.sortedLdr T c L hl
    boundLog := fun m x hx => by
      by_cases hm : m = n
      · subst hm; exact hbound x (by simpa using hx)
      · exact h.boundLog m x (by simpa [Function.update_of_ne hm] using hx)
    boundLdr := fun T c L hl x hx => by
      rcases ldr_update hl with ⟨rfl, -, rfl⟩ | ⟨-, hl⟩
      · exact hbound x hx
      · exact h.boundLdr T c L hl x hx
    accLdr := fun m T hpos => by
      obtain ⟨c, L, hl, hle⟩ := h.accLdr m T hpos
      obtain ⟨L', hl', hp⟩ := he.ldr hl
      exact ⟨c, L', hl', Nat.le_trans hle hp.length_le⟩
    held := fun m T =>
      ((h.held m T).extend own he fun heq hp => absurd hp (heq ▸ hacc m)).mono_log (hlog m)
    complete := fun T T' c L hT hl => by
      rcases ldr_update hl with ⟨rfl, rfl, rfl⟩ | ⟨-, hl⟩
      · refine ((h.complete T _ _ _ hT own).extend own he fun heq _ => ?_).mono_log
          (List.prefix_append _ _)
        exact absurd hT (heq ▸ Nat.lt_irrefl _)
      · refine (h.complete T T' c L hT hl).extend own he fun heq _ => ?_
        subst heq
        exact h.blocked_end hT own hl
    committed := fun T hpos => by
      obtain ⟨c, L, x, hl, hk, ht⟩ := h.committed T hpos
      obtain ⟨L', hl', hp⟩ := he.ldr hl
      exact ⟨c, L', x, hl', getElem?_mono hp hk, ht⟩ }

theorem Inv.adopt (h : Inv tm s) {c : N} {L : List E} {m : Nat}
    (hl : s.ldr (s.term n) = some (c, L)) (hm : m ≤ L.length)
    (cause : (s.log n).length ≤ m ∨ Conflict tm m (s.log n) L) :
    Inv tm { s with log := Function.update s.log n (L.take m) } := by
  have he := (Step.adopt c L m hl hm cause : Step tm .any n s _).ext h.fresh
  have hpre : L.take m <+: L := List.take_prefix _ _
  exact { h with
    ballot := fun v T c' hv => by
      obtain ⟨L', hc', hcov⟩ := h.ballot v T c' hv
      exact ⟨L', hc', fun T' hT => (hcov T' hT).of_ldr_eq he rfl fun _ hk => hk⟩
    rootedLog := fun v => by
      by_cases hv : v = n
      · subst hv
        simpa using ((h.rootedLdr _ _ _ hl).restrict hpre).mono he
      · simpa [Function.update_of_ne hv] using (h.rootedLog v).mono he
    sortedLog := fun v => by
      by_cases hv : v = n
      · subst hv
        simpa using (h.sortedLdr _ _ _ hl).restrict hpre
      · simpa [Function.update_of_ne hv] using h.sortedLog v
    boundLog := fun v e hx => by
      by_cases hv : v = n
      · subst hv
        exact h.boundLdr _ _ _ hl e (List.mem_of_mem_take (by simpa using hx))
      · exact h.boundLog v e (by simpa [Function.update_of_ne hv] using hx)
    held := fun v T => by
      by_cases hv : v = n
      swap
      · simpa [Function.update_of_ne hv] using (h.held v T).of_ldr_eq he rfl fun _ hk => hk
      subst hv
      simp only [Function.update_self]
      intro c' L' k e hl' hk ht (hka : k < s.acc v T)
      rcases h.held v T c' L' k e hl' hk ht hka with hheld | hb
      swap
      · exact .inr (hb.mono he)
      -- the leader followed now has the entry as well
      have hcov : L'.take (k + 1) <+: L ∨ Blocked s T k := by
        rcases Nat.lt_or_ge T (s.term v) with hlt | hge
        · exact h.complete T _ c L hlt hl c' L' k e hl' hk ht trivial
        · have hT : T = s.term v := Nat.le_antisymm (h.term_of_acc (by omega)) hge
          rw [hT, hl] at hl'
          simp only [Option.some.injEq, Prod.mk.injEq] at hl'
          exact .inl (hl'.2 ▸ List.take_prefix _ _)
      rcases hcov with hL | hb
      swap
      · exact .inr (hb.mono he)
      refine .inl ?_
      rcases Nat.lt_or_ge k m with hkm | hmk
      · exact take_prefix_take hL hkm
      -- past the adopted prefix both logs have it, so they cannot conflict before it
      · exfalso
        have hlen : (L'.take (k + 1)).length = k + 1 := by
          have := (List.getElem?_eq_some_iff.mp hk).1
          simp; omega
        rcases cause with hle | ⟨p, a, b, hp, ha, hb, hne⟩
        · have := hheld.length_le
          omega
        · have h1 := take_eq_of_isPrefix hheld (k := k + 1) (by omega)
          have h2 := take_eq_of_isPrefix hL (k := k + 1) (by omega)
          have h3 : (s.log v).take (k + 1) = L.take (k + 1) := h1.symm.trans h2
          have h4 : (s.log v)[p]? = L[p]? := by
            rw [← List.getElem?_take_of_lt (show p < k + 1 by omega), h3,
              List.getElem?_take_of_lt (show p < k + 1 by omega)]
          rw [ha, hb, Option.some.injEq] at h4
          exact hne (by rw [h4])
    complete := fun T T' c' L' hT hl' =>
      (h.complete T T' c' L' hT hl').of_ldr_eq he rfl fun _ hk => hk }

theorem Inv.ack (h : Inv tm s) {c : N} {L : List E} {m : Nat}
    (hl : s.ldr (s.term n) = some (c, L)) (hm : m ≤ L.length) (holds : L.take m <+: s.log n) :
    Inv tm { s with acc := cell s.acc n (s.term n) (max (s.acc n (s.term n)) m) } := by
  have he := (Step.ack c L m hl hm holds : Step tm .any n s _).ext h.fresh
  exact { h with
    frozen := fun v T hT => by
      have hvT : ¬(v = n ∧ T = s.term n) := by rintro ⟨rfl, rfl⟩; exact Nat.lt_irrefl _ hT
      simpa [cell, hvT] using h.frozen v T hT
    ballot := fun v T c' hv => by
      obtain ⟨L', hc', hcov⟩ := h.ballot v T c' hv
      refine ⟨L', hc', fun T' hT => (hcov T' hT).of_ldr_eq he rfl fun k hk => ?_⟩
      have hvT : T' < s.term v := Nat.lt_of_lt_of_le hT (h.term_of_voted hv)
      rwa [he.frozen hvT] at hk
    accLdr := fun v T hpos => by
      by_cases hv : v = n ∧ T = s.term n
      · obtain ⟨rfl, rfl⟩ := hv
        refine ⟨c, L, hl, ?_⟩
        simp only [cell, and_self, if_true]
        exact Nat.max_le.mpr ⟨h.acc_le hl, hm⟩
      · simp only [cell, hv, if_false] at hpos ⊢
        exact h.accLdr v T hpos
    held := fun v T => by
      by_cases hv : v = n ∧ T = s.term n
      · obtain ⟨rfl, rfl⟩ := hv
        intro c' L' k e hl' hk ht hka
        simp only [cell, and_self, if_true] at hka
        rcases Nat.lt_or_ge k m with hkm | hmk
        · have hl'' : s.ldr (s.term v) = some (c', L') := hl'
          rw [hl] at hl''
          simp only [Option.some.injEq, Prod.mk.injEq] at hl''
          obtain ⟨-, rfl⟩ := hl''
          exact .inl ((List.take_prefix_take_left (by omega)).trans holds)
        · exact (h.held v _ c' L' k e hl' hk ht (by omega)).imp id (·.mono he)
      · refine (h.held v T).of_ldr_eq he rfl fun k hk => ?_
        simpa [cell, hv] using hk
    complete := fun T T' c' L' hT hl' =>
      (h.complete T T' c' L' hT hl').of_ldr_eq he rfl fun _ hk => hk }

theorem Inv.lose (h : Inv tm s) {k : Nat}
    (unacked : ∀ p e, k ≤ p → (s.log n)[p]? = some e → s.acc n (tm e) ≤ p) :
    Inv tm { s with log := Function.update s.log n ((s.log n).take k) } := by
  have he := (Step.lose k unacked : Step tm .any n s _).ext h.fresh
  have hpre : (s.log n).take k <+: s.log n := List.take_prefix _ _
  exact { h with
    ballot := fun v T c hv => by
      obtain ⟨L, hc, hcov⟩ := h.ballot v T c hv
      exact ⟨L, hc, fun T' hT => (hcov T' hT).of_ldr_eq he rfl fun _ hk => hk⟩
    rootedLog := fun v => by
      by_cases hv : v = n
      · subst hv; simpa using ((h.rootedLog v).restrict hpre).mono he
      · simpa [Function.update_of_ne hv] using (h.rootedLog v).mono he
    sortedLog := fun v => by
      by_cases hv : v = n
      · subst hv; simpa using (h.sortedLog v).restrict hpre
      · simpa [Function.update_of_ne hv] using h.sortedLog v
    boundLog := fun v e hx => by
      by_cases hv : v = n
      · subst hv; exact h.boundLog v e (List.mem_of_mem_take (by simpa using hx))
      · exact h.boundLog v e (by simpa [Function.update_of_ne hv] using hx)
    held := fun v T => by
      by_cases hv : v = n
      swap
      · simpa [Function.update_of_ne hv] using (h.held v T).of_ldr_eq he rfl fun _ hk => hk
      subst hv
      simp only [Function.update_self]
      intro c L p e hl hp ht (hpa : p < s.acc v T)
      rcases h.held v T c L p e hl hp ht hpa with hheld | hb
      swap
      · exact .inr (hb.mono he)
      rcases Nat.lt_or_ge p k with hpk | hkp
      · exact .inl (take_prefix_take hheld hpk)
      · have hpe : (s.log v)[p]? = some e := by
          refine getElem?_mono hheld ?_
          rw [List.getElem?_take_of_lt (Nat.lt_succ_self p)]
          exact hp
        have := unacked p e hkp hpe
        rw [ht] at this
        omega
    complete := fun T T' c L hT hl =>
      (h.complete T T' c L hT hl).of_ldr_eq he rfl fun _ hk => hk }

theorem Inv.commit (h : Inv tm s) {L : List E} {k : Nat} {e : E} {V : Finset N}
    (own : s.ldr (s.term n) = some (n, L)) (entry : L[k]? = some e) (current : tm e = s.term n)
    (acked : ∀ v ∈ V, k < s.acc v (s.term n)) (overtaken : Overtaken s (s.term n) V) :
    Inv tm
      { s with com := Function.update s.com (s.term n) (max (s.com (s.term n)) (k + 1)) } := by
  have he := (Step.commit L k e V own entry current trivial acked overtaken :
    Step tm .any n s _).ext h.fresh
  exact { h with
    ballot := fun v T c hv => by
      obtain ⟨L', hc, hcov⟩ := h.ballot v T c hv
      exact ⟨L', hc, fun T' hT => (hcov T' hT).of_ldr_eq he rfl fun _ hk => hk⟩
    held := fun v T => (h.held v T).of_ldr_eq he rfl fun _ hk => hk
    complete := fun T T' c L' hT hl =>
      (h.complete T T' c L' hT hl).of_ldr_eq he rfl fun _ hk => hk
    committed := fun T hpos => by
      by_cases hT : T = s.term n
      swap
      · simp only [Function.update_of_ne hT] at hpos ⊢
        exact h.committed T hpos
      subst hT
      simp only [Function.update_self]
      rcases Nat.lt_or_ge k (s.com (s.term n)) with hlt | hge
      · rw [Nat.max_eq_left hlt]
        exact h.committed _ (by omega)
      · rw [Nat.max_eq_right (by omega)]
        exact ⟨n, L, e, own, entry, current⟩ }

variable {G : Guard N E}

/-- **Every step keeps the invariant.** -/
theorem Inv.step (h : Inv tm s) (hs : Step tm G n s s') : Inv tm s' := by
  cases hs with
  | bump T later => exact h.bump later
  | campaign T later => exact h.campaign later
  | vote c L cand free upToDate => exact h.vote cand free upToDate
  | elect V cand free quorum votes informed => exact h.elect cand free votes informed
  | extend e own current allowed => exact h.extend own current
  | adopt c L m ldr bound cause => exact h.adopt ldr bound cause
  | ack c L m ldr bound holds => exact h.ack ldr bound holds
  | lose k unacked => exact h.lose unacked
  | commit L k e V own entry current quorum acked overtaken =>
    exact h.commit own entry current acked overtaken

/-- A run of steps of one node keeps the invariant, extends the past and touches nobody else. -/
theorem Inv.steps (h : Inv tm s) (hs : Steps tm G n s s') :
    Inv tm s' ∧ Ext s s' ∧ Off n s s' := by
  induction hs with
  | refl => exact ⟨h, Ext.refl s, Off.refl n s⟩
  | tail _ hstep ih =>
    obtain ⟨hi, he, ho⟩ := ih
    have he' := hstep.ext hi.fresh
    exact ⟨hi.step hstep, he.trans he', ho.trans hstep.off he'⟩

end Steps

/-! ## One family of quorums -/

/-- Two quorums have a member in common. -/
def Meet (Q : Finset N → Prop) : Prop := ∀ V W, Q V → Q W → ∃ v, v ∈ V ∧ v ∈ W

/-- Leaders have been elected and entries committed by quorums. -/
structure Quorate (Q : Finset N → Prop) (s : State N E) : Prop where
  voters : ∀ T c L, s.ldr T = some (c, L) → Q (s.bal T)
  committed : ∀ T, 0 < s.com T → ∃ V, Q V ∧ ∀ v ∈ V, s.com T ≤ s.acc v T

section Quorate

variable {Q : Finset N → Prop}

theorem Quorate.init : Quorate Q (State.init N E) :=
  ⟨fun _ _ _ h => (by cases h), fun _ h => absurd h (Nat.lt_irrefl 0)⟩

theorem Quorate.step [DecidableEq N] {G : Guard N E} (h : Quorate Q s) (hi : Inv tm s)
    (hQ : ∀ V, G.quorum V → Q V) (hs : Step tm G n s s') : Quorate Q s' := by
  have he := hs.ext hi.fresh
  have hkeep : s'.com = s.com → ∀ T, 0 < s'.com T → ∃ V, Q V ∧ ∀ v ∈ V, s'.com T ≤ s'.acc v T := by
    intro hcom T hpos
    rw [hcom] at hpos ⊢
    obtain ⟨V, hV, hacc⟩ := h.committed T hpos
    exact ⟨V, hV, fun v hv => Nat.le_trans (hacc v hv) (he.acc v T)⟩
  cases hs with
  | elect V cand free quorum votes informed =>
    refine ⟨fun T c L hl => ?_, hkeep rfl⟩
    rcases ldr_update hl with ⟨rfl, -, -⟩ | ⟨hT, hl⟩
    · simpa using hQ V quorum
    · simpa [Function.update_of_ne hT] using h.voters T c L hl
  | extend e own current allowed =>
    refine ⟨fun T c L hl => ?_, hkeep rfl⟩
    rcases ldr_update hl with ⟨rfl, -, -⟩ | ⟨-, hl⟩
    · exact h.voters _ _ _ own
    · exact h.voters T c L hl
  | commit L k e V own entry current quorum acked overtaken =>
    refine ⟨h.voters, fun T hpos => ?_⟩
    by_cases hT : T = s.term n
    swap
    · simp only [Function.update_of_ne hT] at hpos ⊢
      exact h.committed T hpos
    subst hT
    simp only [Function.update_self]
    rcases Nat.lt_or_ge k (s.com (s.term n)) with hlt | hge
    · rw [Nat.max_eq_left hlt]
      exact h.committed _ (by omega)
    · rw [Nat.max_eq_right (by omega)]
      exact ⟨V, hQ V quorum, acked⟩
  | _ => exact ⟨h.voters, hkeep rfl⟩

theorem Quorate.steps [DecidableEq N] {G : Guard N E} (h : Quorate Q s) (hi : Inv tm s)
    (hQ : ∀ V, G.quorum V → Q V) (hs : Steps tm G n s s') : Quorate Q s' := by
  induction hs with
  | refl => exact h
  | tail hsteps hstep ih => exact ih.step (hi.steps hsteps).1 hQ hstep

variable {V : Finset N}

theorem Quorate.informed (h : Quorate Q s) (hQ : Meet Q) (hV : Q V) (T : Nat) :
    Informed s T V := by
  intro U hU hpos
  obtain ⟨W, hW, hacc⟩ := h.committed U hpos
  obtain ⟨v, hvV, hvW⟩ := hQ V W hV hW
  exact ⟨U, hU, Nat.le_refl _, v, hvV, hacc v hvW⟩

theorem Quorate.overtaken (h : Quorate Q s) (hQ : Meet Q) (hV : Q V) (T : Nat) :
    Overtaken s T V := by
  intro U c L _ hl
  exact hQ V _ hV (h.voters U c L hl)

/-- **A committed prefix stays with a quorum**: those who acknowledged it have it in every later
    state. -/
theorem Quorate.kept (h : Quorate Q s) (hi : Inv tm s) {T : Nat} {P : List E}
    (hP : Settled s T P) (hne : P ≠ []) :
    ∃ V, Q V ∧ ∀ s', Inv tm s' → Ext s s' → ∀ v ∈ V, P <+: s'.log v := by
  rcases hP with rfl | ⟨U, c, L, -, hl, hp, hcom⟩
  · exact absurd rfl hne
  have hpos : 0 < P.length := List.length_pos_iff.mpr hne
  obtain ⟨c', L', e, hl', hk, ht⟩ := hi.committed U (by omega)
  rw [hl, Option.some.injEq, Prod.mk.injEq] at hl'
  obtain ⟨-, rfl⟩ := hl'
  obtain ⟨V, hV, hacc⟩ := h.committed U (by omega)
  refine ⟨V, hV, fun s' h' he v hv => ?_⟩
  obtain ⟨L', hl', hpre⟩ := he.ldr hl
  have hlt : s.com U - 1 < s'.acc v U := by
    have hold := hacc v hv
    have hnew := he.acc v U
    omega
  rcases h'.held v U c L' _ e hl' (getElem?_mono hpre hk) ht hlt with hlog | hb
  · rw [Nat.sub_add_cancel (by omega)] at hlog
    exact (List.prefix_take_iff.mpr ⟨hp.trans hpre, hcom⟩).trans hlog
  · have hmore := he.com U
    exact absurd hb (not_blocked (by omega))

/-- **A leader that a quorum has left** never commits more than what one of them has already. -/
theorem Quorate.fenced (h' : Quorate Q s') (hQ : Meet Q) (hi : Inv tm s) (hi' : Inv tm s')
    (he : Ext s s') {T : Nat} (hV : Q V) (hleft : ∀ v ∈ V, T < s.term v) {c : N} {L : List E}
    (hl : s'.ldr T = some (c, L)) (hpos : 0 < s'.com T) :
    ∃ v ∈ V, L.take (s'.com T) <+: s.log v := by
  obtain ⟨c', L', e, hl', hk, ht⟩ := hi'.committed T hpos
  rw [hl, Option.some.injEq, Prod.mk.injEq] at hl'
  obtain ⟨-, rfl⟩ := hl'
  obtain ⟨W, hW, hacc⟩ := h'.committed T hpos
  obtain ⟨v, hvV, hvW⟩ := hQ V W hV hW
  -- what `v` acknowledged before it left is all it will ever have acknowledged
  have hfrozen : s.acc v T = s'.acc v T := (he.frozen (hleft v hvV)).symm
  have henough := hacc v hvW
  obtain ⟨c₀, L₀, hl₀, hle⟩ := hi.accLdr v T (by omega)
  obtain ⟨L', hl', hpre⟩ := he.ldr hl₀
  rw [hl, Option.some.injEq, Prod.mk.injEq] at hl'
  obtain ⟨-, rfl⟩ := hl'
  have hk₀ := getElem?_restrict hpre (by omega) hk
  refine ⟨v, hvV, ?_⟩
  rcases hi.held v T c₀ L₀ _ e hl₀ hk₀ ht (by omega) with hlog | hb
  · rw [Nat.sub_add_cancel hpos] at hlog
    rwa [← take_eq_of_isPrefix hpre (by omega)]
  · exact absurd (hb.mono he) (not_blocked (by omega))

end Quorate

end TermLog
