import Mathlib.Data.Finset.Basic
import Mathlib.Logic.Function.Basic
import Mathlib.Logic.Relation

/-!
# Term logs: an abstract replicated log with elected writers

Nodes move through numbered terms. In a term at most one node, its leader, writes: it owns a log
that only grows, and other nodes copy prefixes of it over their own log. A node votes at most
once a term, for a candidate whose log is at least as up to date as its own; a quorum of votes
makes a leader, a quorum of acknowledgements commits a prefix.

The state keeps what a proof wants to remember and no implementation has to: the log every
leader has written so far (`ldr`), the votes it was elected with (`bal`), the log every candidate
campaigned with (`cand`), every vote (`voted`), how much of each leader's log a node has ever
acknowledged (`acc`) and how much each leader has committed (`com`).

Entries are an arbitrary type with a term. Which sets count as quorums, and which entries may be
written, is left to a `Guard`, which may be another one at every step. What safety takes is said
at the two steps that use a quorum: the voters of a new leader know of what is committed
(`Informed`), and whoever commits hears one of the voters of every later leader (`Overtaken`).
Positions count from zero: position `k` of a log is in its prefix of length `k + 1`.
-/

namespace TermLog

/-- A table with the cell `(n, T)` replaced. -/
def cell {N α : Type} [DecidableEq N] (f : N → Nat → α) (n : N) (T : Nat) (v : α) :
    N → Nat → α :=
  fun m U => if m = n ∧ U = T then v else f m U

structure State (N E : Type) where
  term : N → Nat
  log : N → List E
  ldr : Nat → Option (N × List E)
  cand : N → Nat → Option (List E)
  voted : N → Nat → Option N
  acc : N → Nat → Nat
  com : Nat → Nat
  bal : Nat → Finset N

/-- Nobody has done anything. -/
def State.init (N E : Type) : State N E where
  term _ := 0
  log _ := []
  ldr _ := none
  cand _ _ := none
  voted _ _ := none
  acc _ _ := 0
  com _ := 0
  bal _ := ∅

/-- What a node takes for a quorum, and what it may write after a log. -/
structure Guard (N E : Type) where
  quorum : Finset N → Prop
  entry : List E → E → Prop

/-- Any set, and any entry. -/
def Guard.any {N E : Type} : Guard N E := ⟨fun _ => True, fun _ _ => True⟩

section Steps

variable {N E : Type} [DecidableEq N] (tm : E → Nat) (G : Guard N E)

/-- The term of the last entry, 0 for the empty log. -/
def lastTerm (L : List E) : Nat := (L.getLast?.map tm).getD 0

/-- `L` is at least as up to date as `M`. -/
def UpToDate (L M : List E) : Prop :=
  lastTerm tm M < lastTerm tm L ∨ lastTerm tm L = lastTerm tm M ∧ M.length ≤ L.length

/-- At some position up to `m` the two logs hold entries of different terms. -/
def Conflict (m : Nat) (L M : List E) : Prop :=
  ∃ p a b, p ≤ m ∧ L[p]? = some a ∧ M[p]? = some b ∧ tm a ≠ tm b

omit [DecidableEq N] in
/-- One of `V` has acknowledged the longest of what is committed before term `T`. -/
def Informed (s : State N E) (T : Nat) (V : Finset N) : Prop :=
  ∀ U, U < T → 0 < s.com U → ∃ U', U' < T ∧ s.com U ≤ s.com U' ∧ ∃ v ∈ V, s.com U' ≤ s.acc v U'

omit [DecidableEq N] in
/-- One of `V` has voted for the leader of every term after `T`. -/
def Overtaken (s : State N E) (T : Nat) (V : Finset N) : Prop :=
  ∀ U c L, T < U → s.ldr U = some (c, L) → ∃ v ∈ V, v ∈ s.bal U

/-- What node `n` may do. -/
inductive Step (n : N) : State N E → State N E → Prop where
  | bump {s : State N E} (T : Nat) (later : s.term n < T) :
      Step n s { s with term := Function.update s.term n T }
  /-- A candidate votes for itself. -/
  | campaign {s : State N E} (T : Nat) (later : s.term n < T) :
      Step n s { s with
        term := Function.update s.term n T
        cand := cell s.cand n T (some (s.log n))
        voted := cell s.voted n T (some n) }
  | vote {s : State N E} (c : N) (L : List E) (cand : s.cand c (s.term n) = some L)
      (free : s.voted n (s.term n) = none) (upToDate : UpToDate tm L (s.log n)) :
      Step n s { s with voted := cell s.voted n (s.term n) (some c) }
  | elect {s : State N E} (V : Finset N) (cand : s.cand n (s.term n) = some (s.log n))
      (free : s.ldr (s.term n) = none) (quorum : G.quorum V)
      (votes : ∀ v ∈ V, s.voted v (s.term n) = some n) (informed : Informed s (s.term n) V) :
      Step n s { s with
        ldr := Function.update s.ldr (s.term n) (some (n, s.log n))
        bal := Function.update s.bal (s.term n) V }
  | extend {s : State N E} (e : E) (own : s.ldr (s.term n) = some (n, s.log n))
      (current : tm e = s.term n) (allowed : G.entry (s.log n) e) :
      Step n s { s with
        log := Function.update s.log n (s.log n ++ [e])
        ldr := Function.update s.ldr (s.term n) (some (n, s.log n ++ [e])) }
  /-- Replace the log by a prefix of the leader's: it is extended that way, or it conflicts. -/
  | adopt {s : State N E} (c : N) (L : List E) (m : Nat) (ldr : s.ldr (s.term n) = some (c, L))
      (bound : m ≤ L.length)
      (cause : (s.log n).length ≤ m ∨ Conflict tm m (s.log n) L) :
      Step n s { s with log := Function.update s.log n (L.take m) }
  | ack {s : State N E} (c : N) (L : List E) (m : Nat) (ldr : s.ldr (s.term n) = some (c, L))
      (bound : m ≤ L.length) (holds : L.take m <+: s.log n) :
      Step n s { s with acc := cell s.acc n (s.term n) (max (s.acc n (s.term n)) m) }
  /-- Lose a suffix of which nothing was acknowledged to the leader who wrote it. -/
  | lose {s : State N E} (k : Nat)
      (unacked : ∀ p e, k ≤ p → (s.log n)[p]? = some e → s.acc n (tm e) ≤ p) :
      Step n s { s with log := Function.update s.log n ((s.log n).take k) }
  /-- Only an entry of the leader's own term is counted. -/
  | commit {s : State N E} (L : List E) (k : Nat) (e : E) (V : Finset N)
      (own : s.ldr (s.term n) = some (n, L)) (entry : L[k]? = some e) (current : tm e = s.term n)
      (quorum : G.quorum V) (acked : ∀ v ∈ V, k < s.acc v (s.term n))
      (overtaken : Overtaken s (s.term n) V) :
      Step n s { s with com := Function.update s.com (s.term n) (max (s.com (s.term n)) (k + 1)) }

/-- Any number of steps of node `n`. -/
def Steps (n : N) : State N E → State N E → Prop := Relation.ReflTransGen (Step tm G n)

end Steps

/-! ## What the past keeps -/

section Past

variable {N E : Type}

/-- Later states know everything earlier ones did: logs of leaders grow, votes and campaigns
    stand, and what a node acknowledged in a term it has left is final. A leader commits nothing
    that all voters of a later one had not acknowledged when they voted. -/
structure Ext (s s' : State N E) : Prop where
  term : ∀ n, s.term n ≤ s'.term n
  ldr : ∀ {T c L}, s.ldr T = some (c, L) → ∃ L', s'.ldr T = some (c, L') ∧ L <+: L'
  cand : ∀ {n T L}, s.cand n T = some L → s'.cand n T = some L
  voted : ∀ {n T c}, s.voted n T = some c → s'.voted n T = some c
  acc : ∀ n T, s.acc n T ≤ s'.acc n T
  frozen : ∀ {n T}, T < s.term n → s'.acc n T = s.acc n T
  com : ∀ T, s.com T ≤ s'.com T
  bal : ∀ {T c L}, s.ldr T = some (c, L) → s'.bal T = s.bal T
  late : ∀ {T U c L k}, s.ldr U = some (c, L) → (∀ v ∈ s.bal U, T < s.term v ∧ s.acc v T ≤ k) →
    T < U → s.com T ≤ k → s'.com T ≤ k

theorem Ext.refl (s : State N E) : Ext s s where
  term _ := Nat.le_refl _
  ldr h := ⟨_, h, List.prefix_refl _⟩
  cand h := h
  voted h := h
  acc _ _ := Nat.le_refl _
  frozen _ := rfl
  com _ := Nat.le_refl _
  bal _ := rfl
  late _ _ _ h := h

theorem Ext.trans {s s' s'' : State N E} (h : Ext s s') (h' : Ext s' s'') : Ext s s'' where
  term n := Nat.le_trans (h.term n) (h'.term n)
  ldr hl := by
    obtain ⟨L', hl', hp⟩ := h.ldr hl
    obtain ⟨L'', hl'', hp'⟩ := h'.ldr hl'
    exact ⟨L'', hl'', hp.trans hp'⟩
  cand hc := h'.cand (h.cand hc)
  voted hv := h'.voted (h.voted hv)
  acc n T := Nat.le_trans (h.acc n T) (h'.acc n T)
  frozen ht := by rw [h'.frozen (Nat.lt_of_lt_of_le ht (h.term _)), h.frozen ht]
  com T := Nat.le_trans (h.com T) (h'.com T)
  bal hl := by
    obtain ⟨L', hl', -⟩ := h.ldr hl
    rw [h'.bal hl', h.bal hl]
  late hl hv hT hk := by
    obtain ⟨L', hl', -⟩ := h.ldr hl
    refine h'.late hl' (fun v hm => ?_) hT (h.late hl hv hT hk)
    rw [h.bal hl] at hm
    obtain ⟨hleft, hacc⟩ := hv v hm
    exact ⟨Nat.lt_of_lt_of_le hleft (h.term v), by rw [h.frozen hleft]; exact hacc⟩

/-- Nothing that belongs to another node than `n` changes. -/
structure Off (n : N) (s s' : State N E) : Prop where
  term : ∀ {m}, m ≠ n → s'.term m = s.term m
  log : ∀ {m}, m ≠ n → s'.log m = s.log m
  cand : ∀ {m}, m ≠ n → s'.cand m = s.cand m
  voted : ∀ {m}, m ≠ n → s'.voted m = s.voted m
  acc : ∀ {m}, m ≠ n → s'.acc m = s.acc m
  ldr : ∀ {T c L}, s'.ldr T = some (c, L) → c = n ∨ s.ldr T = some (c, L)
  kept : ∀ {T c L}, c ≠ n → s.ldr T = some (c, L) → s'.ldr T = some (c, L)
  com : ∀ {T}, s'.com T = s.com T ∨ ∃ L, s'.ldr T = some (n, L)

theorem Off.refl (n : N) (s : State N E) : Off n s s where
  term _ := rfl
  log _ := rfl
  cand _ := rfl
  voted _ := rfl
  acc _ := rfl
  ldr h := .inr h
  kept _ h := h
  com := .inl rfl

theorem Off.trans {n : N} {s s' s'' : State N E} (h : Off n s s') (h' : Off n s' s'')
    (he : Ext s' s'') : Off n s s'' where
  term hm := (h'.term hm).trans (h.term hm)
  log hm := (h'.log hm).trans (h.log hm)
  cand hm := (h'.cand hm).trans (h.cand hm)
  voted hm := (h'.voted hm).trans (h.voted hm)
  acc hm := (h'.acc hm).trans (h.acc hm)
  ldr hl := by
    rcases h'.ldr hl with hc | hl
    · exact .inl hc
    · exact h.ldr hl
  kept hc hl := h'.kept hc (h.kept hc hl)
  com := by
    intro T
    rcases h'.com (T := T) with h2 | h2
    · rcases h.com (T := T) with h1 | ⟨L, h1⟩
      · exact .inl (h2.trans h1)
      · obtain ⟨L', hl', _⟩ := he.ldr h1
        exact .inr ⟨L', hl'⟩
    · exact .inr h2

end Past

section StepFacts

variable {N E : Type} [DecidableEq N] {tm : E → Nat} {G : Guard N E} {n : N}
  {s s' : State N E}

theorem Step.off (h : Step tm G n s s') : Off n s s' := by
  cases h with
  | elect V _ free _ _ _ =>
    refine ⟨fun _ => rfl, fun _ => rfl, fun _ => rfl, fun _ => rfl, fun _ => rfl, ?_, ?_, .inl rfl⟩
    · intro T c L hl
      by_cases hT : T = s.term n
      · subst hT
        simp only [Function.update_self, Option.some.injEq, Prod.mk.injEq] at hl
        exact .inl hl.1.symm
      · exact .inr (by simpa [Function.update_of_ne hT] using hl)
    · intro T c L _ hl
      have hT : T ≠ s.term n := by rintro rfl; rw [free] at hl; cases hl
      simpa [Function.update_of_ne hT] using hl
  | extend e own _ _ =>
    refine ⟨fun _ => rfl, fun hm => Function.update_of_ne hm _ _, fun _ => rfl, fun _ => rfl,
      fun _ => rfl, ?_, ?_, .inl rfl⟩
    · intro T c L hl
      by_cases hT : T = s.term n
      · subst hT
        simp only [Function.update_self, Option.some.injEq, Prod.mk.injEq] at hl
        exact .inl hl.1.symm
      · exact .inr (by simpa [Function.update_of_ne hT] using hl)
    · intro T c L hc hl
      have hT : T ≠ s.term n := by
        rintro rfl
        rw [own] at hl
        simp only [Option.some.injEq, Prod.mk.injEq] at hl
        exact hc hl.1.symm
      simpa [Function.update_of_ne hT] using hl
  | commit L k e V own _ _ _ _ _ =>
    refine ⟨fun _ => rfl, fun _ => rfl, fun _ => rfl, fun _ => rfl, fun _ => rfl, .inr,
      fun _ hl => hl, ?_⟩
    intro T
    by_cases hT : T = s.term n
    · subst hT; exact .inr ⟨L, own⟩
    · exact .inl (Function.update_of_ne hT _ _)
  | _ =>
    refine ⟨?_, ?_, ?_, ?_, ?_, .inr, fun _ hl => hl, .inl rfl⟩
    all_goals
      intro m hm
      first | rfl | exact Function.update_of_ne hm _ _ | (funext T; simp [cell, hm])

theorem Step.ext (h : Step tm G n s s')
    (fresh : ∀ T, s.term n < T → s.cand n T = none ∧ s.voted n T = none) : Ext s s' := by
  have upd : ∀ T, s.term n < T → ∀ m, s.term m ≤ Function.update s.term n T m := by
    intro T hT m
    by_cases hm : m = n
    · subst hm; simp [Nat.le_of_lt hT]
    · simp [Function.update_of_ne hm]
  cases h with
  | bump T later => exact { Ext.refl s with term := upd T later }
  | campaign T later =>
    obtain ⟨hc, hv⟩ := fresh T later
    refine { Ext.refl s with term := upd T later, cand := ?_, voted := ?_ }
    · intro m U L hL
      have : ¬(m = n ∧ U = T) := by rintro ⟨rfl, rfl⟩; rw [hc] at hL; cases hL
      simpa [cell, this] using hL
    · intro m U c hL
      have : ¬(m = n ∧ U = T) := by rintro ⟨rfl, rfl⟩; rw [hv] at hL; cases hL
      simpa [cell, this] using hL
  | vote c L _ free _ =>
    refine { Ext.refl s with voted := ?_ }
    intro m U c' hL
    have : ¬(m = n ∧ U = s.term n) := by rintro ⟨rfl, rfl⟩; rw [free] at hL; cases hL
    simpa [cell, this] using hL
  | elect V _ free _ _ _ =>
    have hold : ∀ {T c L}, s.ldr T = some (c, L) → T ≠ s.term n := by
      rintro T c L hl rfl
      rw [free] at hl
      cases hl
    refine { Ext.refl s with ldr := ?_, bal := ?_ }
    · intro T c L hl
      exact ⟨L, by simpa [Function.update_of_ne (hold hl)] using hl, List.prefix_refl _⟩
    · intro T c L hl
      exact Function.update_of_ne (hold hl) _ _
  | extend e own _ _ =>
    refine { Ext.refl s with ldr := ?_ }
    intro T c L hl
    by_cases hT : T = s.term n
    · subst hT
      rw [own] at hl
      simp only [Option.some.injEq, Prod.mk.injEq] at hl
      obtain ⟨rfl, rfl⟩ := hl
      exact ⟨s.log n ++ [e], by simp, List.prefix_append _ _⟩
    · exact ⟨L, by simpa [Function.update_of_ne hT] using hl, List.prefix_refl _⟩
  | adopt => exact { Ext.refl s with }
  | ack c L m _ _ _ =>
    refine { Ext.refl s with acc := ?_, frozen := ?_ }
    · intro v T
      by_cases hv : v = n ∧ T = s.term n
      · obtain ⟨rfl, rfl⟩ := hv; simp [cell]
      · simp [cell, hv]
    · intro v T hT
      have : ¬(v = n ∧ T = s.term n) := by rintro ⟨rfl, rfl⟩; exact Nat.lt_irrefl _ hT
      simp [cell, this]
  | lose => exact { Ext.refl s with }
  | commit L k e V _ _ _ _ acked overtaken =>
    refine { Ext.refl s with com := ?_, late := ?_ }
    · intro T
      by_cases hT : T = s.term n
      · subst hT; simp
      · simp [Function.update_of_ne hT]
    · intro T U c M m hl hv hTU hm
      by_cases hT : T = s.term n
      swap
      · simpa [Function.update_of_ne hT] using hm
      -- one of those who acknowledged the entry is among the voters of the later leader
      subst hT
      obtain ⟨v, hvV, hvU⟩ := overtaken U c M hTU hl
      have hlt := acked v hvV
      have hle := (hv v hvU).2
      simp only [Function.update_self]
      omega

end StepFacts
end TermLog
