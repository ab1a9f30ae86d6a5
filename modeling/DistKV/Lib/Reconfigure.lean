import Mathlib.Data.Finset.Max
import DistKV.Lib.TermLogSafety

/-!
# Term logs whose quorums change

What counts as a quorum is read off a log: some entries change it. Each node goes by a committed
prefix of its own choice, its version, and may lag behind the others, so the quorums of two nodes
need not meet. They do if the versions are *close*: of the changes the longer one has and the
shorter one has not, none but the first is a major one.

A leader that writes a major change looks around first: every node that takes itself for a member,
and every member of the configuration the leader goes by, has all the changes of the leader's log
in its version. Nothing is asked of anybody afterwards. `Configured` says what this comes to:
whoever stands for election or leads has, before the last major change of whatever log, every change
in its version (`Configured.standing`), so its version is close to all that matter, and the steps
of `Lib/TermLog.lean` may be taken (`Configured.informed`, `Configured.overtaken`).
-/

namespace TermLog

/-- How configurations are read off a log. -/
structure Scheme (N E : Type) where
  quorum : List E → Finset N → Prop
  member : List E → N → Prop
  change : E → Prop
  major : E → Prop

section Defs

variable {N E : Type} (C : Scheme N E)

/-- The changes among the first `p` entries of `L` are among its first `k`. -/
def Scheme.Below (L : List E) (p k : Nat) : Prop :=
  ∀ j e, j < p → L[j]? = some e → C.change e → j < k

/-- Between `P` and `P'` at most the first change is a major one. -/
def Scheme.Close (P P' : List E) : Prop :=
  ∀ p e, P'[p]? = some e → C.major e → C.Below P' p P.length

structure Scheme.Lawful : Prop where
  change : ∀ e, C.major e → C.change e
  member : ∀ P e n, ¬C.major e → (C.member (P ++ [e]) n ↔ C.member P n)
  meet : ∀ P P' V W, P <+: P' → C.Close P P' → C.quorum P V → C.quorum P' W → ∃ v ∈ V, v ∈ W

/-- Every node has the changes before position `p` of `L` in its version, or is no member from its
    version up to there. -/
def Synced (ver : N → List E) (L : List E) (p : Nat) : Prop :=
  ∀ m, C.Below L p (ver m).length ∨
    ∀ q, (ver m).length ≤ q → q ≤ p → ¬C.member (L.take q) m

/-- The changes before position `p` of `L` are committed. -/
def Based (s : State N E) (T : Nat) (L : List E) (p : Nat) : Prop :=
  ∃ k ≤ p, C.Below L p k ∧ Settled s T (L.take k)

/-- `ver` are the versions the nodes go by. -/
structure Configured (s : State N E) (ver : N → List E) : Prop where
  version : ∀ n, Settled s (s.term n) (ver n)
  synced : ∀ T c L p e, s.ldr T = some (c, L) → L[p]? = some e → C.major e → Synced C ver L p
  based : ∀ T c L p e, s.ldr T = some (c, L) → L[p]? = some e → C.major e → Based C s T L p
  elected : ∀ T c L, s.ldr T = some (c, L) → ∃ P U, U < T ∧ Settled s U P ∧ C.quorum P (s.bal T) ∧
    ∀ T' c' L' p e, T' < T → s.ldr T' = some (c', L') → L'[p]? = some e → C.major e →
      (p < s.com T' ∨ ∃ v ∈ s.bal T, p < s.acc v T') → C.Below L' p P.length
  committed : ∀ T, 0 < s.com T → ∃ P W, Settled s T P ∧ C.quorum P W ∧
    (∀ w ∈ W, s.com T ≤ s.acc w T) ∧ ∀ c L p e, s.ldr T = some (c, L) → p < s.com T →
      L[p]? = some e → C.major e → C.Below L p P.length

/-- The version of `n` was committed before the term it stands or leads in. -/
def Current (s : State N E) (ver : N → List E) (n : N) : Prop :=
  ∃ U, Settled s U (ver n) ∧
    (U < s.term n ∨ U ≤ s.term n ∧ ∃ L, s.ldr (s.term n) = some (n, L))

/-- `n` counts the quorums of its version, as a member of it, and looks around before it writes a
    change. -/
structure Guarded (ver : N → List E) (n : N) (G : Guard N E) (s : State N E) : Prop where
  quorum : ∀ V, G.quorum V → C.quorum (ver n) V ∧ C.member (ver n) n ∧ Current s ver n
  entry : ∀ L e, G.entry L e → C.change e → C.Below L L.length (ver n).length
  major : ∀ L e, G.entry L e → C.major e → ∀ m, C.member (ver m) m ∨ C.member L m →
    C.Below L L.length (ver m).length

end Defs

variable {N E : Type} {C : Scheme N E} {tm : E → Nat} {n : N} {s s' : State N E}
  {ver : N → List E}

/-! ## Logs with the same front -/

theorem Scheme.Below.mono {L : List E} {p k k' : Nat} (h : C.Below L p k) (hk : k ≤ k') :
    C.Below L p k' :=
  fun j e hj he hc => Nat.lt_of_lt_of_le (h j e hj he hc) hk

theorem getElem?_front {L L' : List E} {p j : Nat} {e : E} (h : L.take p <+: L') (hj : j < p)
    (he : L[j]? = some e) : L'[j]? = some e := by
  refine getElem?_mono h ?_
  rw [List.getElem?_take_of_lt hj]
  exact he

theorem Scheme.Below.front {L L' : List E} {p k : Nat} (h : C.Below L' p k) (hp : L.take p <+: L') :
    C.Below L p k :=
  fun j e hj he hc => h j e hj (getElem?_front hp hj he) hc

theorem take_front {L L' : List E} {p q : Nat} (h : L.take p <+: L') (hp : p ≤ L.length)
    (hq : q ≤ p) : L'.take q = L.take q := by
  have hlen : q ≤ (L.take p).length := by rw [List.length_take]; omega
  rw [← take_eq_of_isPrefix h hlen, List.take_take, Nat.min_eq_left hq]

theorem Synced.front {L L' : List E} {p : Nat} (h : Synced C ver L' p) (hp : L.take p <+: L')
    (hlen : p ≤ L.length) : Synced C ver L p := by
  intro m
  rcases h m with hb | habsent
  · exact .inl (hb.front hp)
  · refine .inr fun q hm hq => ?_
    rw [← take_front hp hlen hq]
    exact habsent q hm hq

theorem Based.front {L L' : List E} {T T' p : Nat} (h : Based C s T L' p) (hp : L.take p <+: L')
    (hlen : p ≤ L.length) (hT : T ≤ T') (he : Ext s s') : Based C s' T' L p := by
  obtain ⟨k, hk, hb, hset⟩ := h
  refine ⟨k, hk, hb.front hp, ?_⟩
  rw [← take_front hp hlen hk]
  exact hset.mono he hT

/-- A member stays one as long as there is no major change. -/
theorem Scheme.Lawful.member_take (hC : C.Lawful) {L : List E} {q r : Nat} (hqr : q ≤ r)
    (hno : ∀ p e, q ≤ p → p < r → L[p]? = some e → ¬C.major e) {m : N} :
    C.member (L.take r) m ↔ C.member (L.take q) m := by
  induction r, hqr using Nat.le_induction with
  | base => exact Iff.rfl
  | succ r hqr ih =>
    have ih' := ih fun p e hq hp he => hno p e hq (Nat.lt_succ_of_lt hp) he
    rw [← ih', List.take_add_one]
    cases he : L[r]? with
    | none => simp
    | some e => exact hC.member _ e m (hno r e hqr (Nat.lt_succ_self r) he)

/-! ## Who stands is close -/

section Standing

variable (hC : C.Lawful) (hi : Inv tm s) (h : Configured C s ver)
include hi h

/-- **Whoever takes itself for a member has the changes before every major one.** -/
theorem Configured.standing (hm : C.member (ver n) n) {T p : Nat} {c : N} {L : List E} {e : E}
    (hl : s.ldr T = some (c, L)) (he : L[p]? = some e) (hmajor : C.major e) :
    C.Below L p (ver n).length := by
  rcases h.synced T c L p e hl he hmajor n with hb | habsent
  · exact hb
  obtain ⟨k, hk, hb, hset⟩ := h.based T c L p e hl he hmajor
  rcases Nat.lt_or_ge (ver n).length k with hlt | hge
  swap
  · exact hb.mono hge
  -- its version is a front part of the log, and there it is a member
  have hp := (List.getElem?_eq_some_iff.mp he).1
  have hfront : ver n <+: L.take k := by
    refine hi.settled_le (h.version n) hset ?_
    rw [List.length_take]
    omega
  refine absurd ?_ (habsent (ver n).length (Nat.le_refl _) (by omega))
  rw [← take_eq_of_isPrefix (hfront.trans (List.take_prefix _ _)) (Nat.le_refl _), List.take_length]
  exact hm

omit hi h in
/-- A committed prefix is a front part of a leader's log. -/
theorem close_of_settled {P P' : List E} {T : Nat} (hP' : Settled s T P')
    (hbelow : ∀ U c L p e, U ≤ T → s.ldr U = some (c, L) → P' <+: L → P'.length ≤ s.com U →
      L[p]? = some e → C.major e → p < P'.length → C.Below L p P.length) : C.Close P P' := by
  intro p e he hmajor
  have hlt := (List.getElem?_eq_some_iff.mp he).1
  rcases hP' with rfl | ⟨U, c, L, hU, hl, hp, hcom⟩
  · cases he
  · exact (hbelow U c L p e hU hl hp hcom (getElem?_mono hp he) hmajor hlt).front
      ((List.take_prefix _ _).trans hp)

theorem Configured.close_ahead (hm : C.member (ver n) n) {T : Nat} {P : List E}
    (hP : Settled s T P) : C.Close (ver n) P :=
  close_of_settled hP fun _ _ _ _ _ _ hl _ _ he hmajor _ => h.standing hi hm hl he hmajor

include hC

/-- The versions a leader was elected with and a later member goes by are close, so their quorums
    meet. -/
theorem Configured.meets_ballot (hm : C.member (ver n) n) {T U : Nat} (hset : Settled s U (ver n))
    (hU : U < T) {c : N} {L : List E} (hl : s.ldr T = some (c, L)) {V : Finset N}
    (hV : C.quorum (ver n) V) : ∃ v ∈ V, v ∈ s.bal T := by
  obtain ⟨P, U', -, hP, hquorum, hbound⟩ := h.elected T c L hl
  rcases hi.settled_agree hset hP with hp | hp
  · exact hC.meet _ _ _ _ hp (h.close_ahead hi hm hP) hV hquorum
  · have hclose : C.Close P (ver n) := close_of_settled hset
      fun W c' L' p e hW hl' _ hcom he hmajor hlt =>
        hbound W c' L' p e (by omega) hl' he hmajor (.inl (by omega))
    obtain ⟨v, hv, hvV⟩ := hC.meet _ _ _ _ hp hclose hquorum hV
    exact ⟨v, hvV, hv⟩

theorem Configured.overtaken (hm : C.member (ver n) n) {T U : Nat} (hset : Settled s U (ver n))
    (hU : U ≤ T) {V : Finset N} (hV : C.quorum (ver n) V) : Overtaken s T V :=
  fun _ _ _ hT hl => h.meets_ballot hC hi hm hset (by omega) hl hV

theorem Configured.informed (hm : C.member (ver n) n) {T U : Nat} (hset : Settled s U (ver n))
    (hU : U < T) {V : Finset N} (hV : C.quorum (ver n) V) : Informed s T V := by
  intro U₀ hU₀ hpos
  -- the longest of what has been committed before `T`
  obtain ⟨W, hW, hmost⟩ :=
    Finset.exists_max_image (Finset.range T) s.com ⟨U₀, Finset.mem_range.mpr hU₀⟩
  have hle := hmost U₀ (Finset.mem_range.mpr hU₀)
  have hWT := Finset.mem_range.mp hW
  refine ⟨W, hWT, hle, ?_⟩
  obtain ⟨P, A, hP, hquorum, hacc, hbound⟩ := h.committed W (by omega)
  suffices hmeet : ∃ v ∈ V, v ∈ A by
    obtain ⟨v, hvV, hvA⟩ := hmeet
    exact ⟨v, hvV, hacc v hvA⟩
  rcases hi.settled_agree hset hP with hp | hp
  · exact hC.meet _ _ _ _ hp (h.close_ahead hi hm hP) hV hquorum
  -- the version is part of it
  obtain ⟨c, L, e, hl, hk, -⟩ := hi.committed W (by omega)
  have hlen : s.com W ≤ L.length := by
    have := (List.getElem?_eq_some_iff.mp hk).1
    omega
  have hclose : C.Close P (ver n) := by
    refine close_of_settled hset fun U' c' L' p x hU' hl' hpre hcom hx hmajor hlt => ?_
    have hmax := hmost U' (Finset.mem_range.mpr (by omega))
    have hfront : ver n <+: L.take (s.com W) := by
      have hlast : Settled s W (L.take (s.com W)) :=
        .inr ⟨W, c, L, Nat.le_refl _, hl, List.take_prefix _ _, List.length_take_le _ _⟩
      refine hi.settled_le hset hlast ?_
      rw [List.length_take]
      omega
    have hxv : (ver n)[p]? = some x := getElem?_restrict hpre hlt hx
    have hxL : L[p]? = some x := getElem?_mono (hfront.trans (List.take_prefix _ _)) hxv
    have hb := hbound c L p x hl (by omega) hxL hmajor
    refine hb.front ?_
    rw [← take_eq_of_isPrefix hpre (Nat.le_of_lt hlt)]
    exact (List.take_prefix _ _).trans (hfront.trans (List.take_prefix _ _))
  obtain ⟨v, hv, hvV⟩ := hC.meet _ _ _ _ hp hclose hquorum hV
  exact ⟨v, hvV, hv⟩

end Standing

/-! ## The steps -/

theorem Configured.init : Configured C (State.init N E) fun _ => [] where
  version _ := .inl rfl
  synced _ _ _ _ _ h := by cases h
  based _ _ _ _ _ h := by cases h
  elected _ _ _ h := by cases h
  committed _ h := absurd h (Nat.lt_irrefl 0)

/-- A node takes up a longer version. -/
theorem Configured.advance [DecidableEq N] (h : Configured C s ver) {P : List E}
    (hP : Settled s (s.term n) P) (hle : (ver n).length ≤ P.length) :
    Configured C s (Function.update ver n P) := by
  refine { h with version := fun m => ?_, synced := fun T c L p e hl he hmajor m => ?_ }
  · by_cases hm : m = n
    · subst hm
      rw [Function.update_self]
      exact hP
    · rw [Function.update_of_ne hm]
      exact h.version m
  · by_cases hm : m = n
    swap
    · rw [Function.update_of_ne hm]
      exact h.synced T c L p e hl he hmajor m
    subst hm
    rw [Function.update_self]
    rcases h.synced T c L p e hl he hmajor m with hb | habsent
    · exact .inl (hb.mono hle)
    · exact .inr fun q hq => habsent q (Nat.le_trans hle hq)

section Step

variable {G : Guard N E}

theorem Current.mono (h : Current s ver n) (he : Ext s s') : Current s' ver n := by
  obtain ⟨U, hset, hU⟩ := h
  refine ⟨U, hset.mono he (Nat.le_refl _), ?_⟩
  have hterm := he.term n
  rcases hU with hlt | ⟨hle, L, hl⟩
  · exact .inl (by omega)
  rcases Nat.lt_or_eq_of_le hterm with hlt | heq
  · exact .inl (by omega)
  · obtain ⟨L', hl', -⟩ := he.ldr hl
    rw [heq] at hle hl'
    exact .inr ⟨hle, L', hl'⟩

theorem Guarded.mono (h : Guarded C ver n G s) (he : Ext s s') : Guarded C ver n G s' :=
  { h with quorum := fun V hV => ⟨(h.quorum V hV).1, (h.quorum V hV).2.1, (h.quorum V hV).2.2.mono he⟩ }

/-- Nothing happens to leaders, acknowledgements and what is committed. -/
theorem Configured.idle (h : Configured C s ver) (he : Ext s s') (hldr : s'.ldr = s.ldr)
    (hbal : s'.bal = s.bal) (hacc : s'.acc = s.acc) (hcom : s'.com = s.com) :
    Configured C s' ver where
  version m := (h.version m).mono he (he.term m)
  synced T c L p e hl := by
    rw [hldr] at hl
    exact h.synced T c L p e hl
  based T c L p e hl hp hmajor := by
    rw [hldr] at hl
    exact (h.based T c L p e hl hp hmajor).front (List.take_prefix _ _)
      (Nat.le_of_lt (List.getElem?_eq_some_iff.mp hp).1) (Nat.le_refl _) he
  elected T c L hl := by
    rw [hldr] at hl
    obtain ⟨P, U, hU, hP, rest⟩ := h.elected T c L hl
    rw [hldr, hbal, hacc, hcom]
    exact ⟨P, U, hU, hP.mono he (Nat.le_refl _), rest⟩
  committed T hpos := by
    rw [hcom] at hpos
    obtain ⟨P, W, hP, rest⟩ := h.committed T hpos
    rw [hldr, hacc, hcom]
    exact ⟨P, W, hP.mono he (Nat.le_refl _), rest⟩

/-- What a log says of its entries, the log of the entry's own leader says. -/
theorem Configured.of_rooted (h : Configured C s ver) (he : Ext s s') {L : List E} {T p : Nat} {e : E}
    (hroot : Rooted tm s L) (hbound : ∀ x ∈ L, tm x ≤ T) (hp : L[p]? = some e)
    (hmajor : C.major e) : Synced C ver L p ∧ Based C s' T L p := by
  obtain ⟨c, L', hl, hpre⟩ := hroot p e hp
  have hlt := (List.getElem?_eq_some_iff.mp hp).1
  have hp' : L'[p]? = some e := getElem?_front hpre (Nat.lt_succ_self p) hp
  have hfront : L.take p <+: L' :=
    (List.take_prefix_take_left (Nat.le_succ p)).trans hpre
  exact ⟨(h.synced _ c L' p e hl hp' hmajor).front hfront (Nat.le_of_lt hlt),
    (h.based _ c L' p e hl hp' hmajor).front hfront (Nat.le_of_lt hlt)
      (hbound e (List.mem_of_getElem? hp)) he⟩

variable [DecidableEq N]

theorem Configured.elect (h : Configured C s ver) (hi : Inv tm s) (hG : Guarded C ver n G s)
    {V : Finset N} (hc : s.cand n (s.term n) = some (s.log n)) (free : s.ldr (s.term n) = none)
    (quorum : G.quorum V) (votes : ∀ v ∈ V, s.voted v (s.term n) = some n)
    (informed : Informed s (s.term n) V) :
    Configured C { s with
      ldr := Function.update s.ldr (s.term n) (some (n, s.log n))
      bal := Function.update s.bal (s.term n) V } ver := by
  have he := (Step.elect V hc free quorum votes informed : Step tm G n s _).ext hi.fresh
  have hzero := hi.com_zero free
  have hnone : ∀ v, s.acc v (s.term n) = 0 := by
    intro v
    rcases Nat.eq_zero_or_pos (s.acc v (s.term n)) with h0 | hpos
    · exact h0
    · obtain ⟨c, L, hl, -⟩ := hi.accLdr v _ hpos
      rw [free] at hl
      cases hl
  obtain ⟨hV, hm, U, hset, hU⟩ := hG.quorum V quorum
  have hnew : ∀ {p e}, (s.log n)[p]? = some e → C.major e → _ :=
    fun hp hmajor => h.of_rooted he (hi.rootedLog n) (hi.boundLog n) hp hmajor
  refine ⟨fun m => (h.version m).mono he (he.term m), fun T c L p e hl hp hmajor => ?_,
    fun T c L p e hl hp hmajor => ?_, fun T c L hl => ?_, fun T hpos => ?_⟩
  · rcases ldr_update hl with ⟨rfl, -, rfl⟩ | ⟨-, hl⟩
    · exact (hnew hp hmajor).1
    · exact h.synced T c L p e hl hp hmajor
  · rcases ldr_update hl with ⟨rfl, -, rfl⟩ | ⟨-, hl⟩
    · exact (hnew hp hmajor).2
    · exact (h.based T c L p e hl hp hmajor).front (List.take_prefix _ _)
        (Nat.le_of_lt (List.getElem?_eq_some_iff.mp hp).1) (Nat.le_refl _) he
  · rcases ldr_update hl with ⟨rfl, rfl, rfl⟩ | ⟨hT, hl⟩
    · have hbefore : U < s.term c := by
        rcases hU with hlt | ⟨-, L, hl⟩
        · exact hlt
        · rw [free] at hl
          cases hl
      refine ⟨ver c, U, hbefore, hset.mono he (Nat.le_refl _), by simpa using hV, ?_⟩
      intro T' c' L' p e hT' hl' hp hmajor _
      rcases ldr_update hl' with ⟨rfl, -, -⟩ | ⟨-, hl'⟩
      · exact absurd hT' (Nat.lt_irrefl _)
      · exact h.standing hi hm hl' hp hmajor
    · obtain ⟨P, U', hU', hP, hquorum, hbound⟩ := h.elected T c L hl
      refine ⟨P, U', hU', hP.mono he (Nat.le_refl _), ?_, ?_⟩
      · simpa [Function.update_of_ne hT] using hquorum
      intro T' c' L' p e hT' hl' hp hmajor hreach
      simp only [Function.update_of_ne hT] at hreach
      rcases ldr_update hl' with ⟨rfl, -, -⟩ | ⟨-, hl'⟩
      · -- nothing of the new leader has been acknowledged or committed
        rw [hzero] at hreach
        rcases hreach with hlt | ⟨v, -, hlt⟩
        · exact absurd hlt (Nat.not_lt_zero _)
        · rw [hnone v] at hlt
          exact absurd hlt (Nat.not_lt_zero _)
      · exact hbound T' c' L' p e hT' hl' hp hmajor hreach
  · obtain ⟨P, W, hP, hquorum, hacc, hbound⟩ := h.committed T hpos
    refine ⟨P, W, hP.mono he (Nat.le_refl _), hquorum, hacc, fun c L p e hl hlt hp hmajor => ?_⟩
    rcases ldr_update hl with ⟨rfl, -, -⟩ | ⟨-, hl⟩
    · have hlt' : p < s.com (s.term n) := hlt
      rw [hzero] at hlt'
      exact absurd hlt' (Nat.not_lt_zero _)
    · exact hbound c L p e hl hlt hp hmajor

omit [DecidableEq N] in
/-- **A major change finds everybody up to date or no member.** -/
theorem Configured.looked (hC : C.Lawful) (h : Configured C s ver) (hi : Inv tm s) {L : List E}
    {T : Nat} {c : N} (hl : s.ldr T = some (c, L)) (hver : ver n <+: L)
    (hquiet : C.Below L L.length (ver n).length)
    (hlooks : ∀ m, C.member (ver m) m ∨ C.member L m → C.Below L L.length (ver m).length) :
    Synced C ver L L.length := by
  intro m
  by_cases hb : C.Below L L.length (ver m).length
  · exact .inl hb
  have hout : ¬(C.member (ver m) m ∨ C.member L m) := fun hin => hb (hlooks m hin)
  -- a change it has not got is in the version of the writer
  have hlt : (ver m).length < (ver n).length := by
    by_contra hle
    exact hb (hquiet.mono (Nat.le_of_not_lt hle))
  have hfront : ver m <+: L :=
    (hi.settled_le (h.version m) (h.version n) (Nat.le_of_lt hlt)).trans hver
  have hown : L.take (ver m).length = ver m := by
    rw [← take_eq_of_isPrefix hfront (Nat.le_refl _), List.take_length]
  refine .inr fun q hmq hq hmem => ?_
  by_cases hmajor : ∃ p e, q ≤ p ∧ L[p]? = some e ∧ C.major e
  · -- the log says so at the next major change
    obtain ⟨p, e, hqp, hp, hmajor⟩ := hmajor
    rcases h.synced T c L p e hl hp hmajor m with hbelow | habsent
    · refine hout (.inl ?_)
      rw [← hown]
      refine (hC.member_take hmq fun j x hj hjq hx hx' => ?_).mp hmem
      have := hbelow j x (by omega) hx (hC.change x hx')
      omega
    · exact habsent q hmq hqp hmem
  · refine hout (.inr ?_)
    have hall : C.member (L.take L.length) m :=
      (hC.member_take hq fun j x hj _ hx hx' => hmajor ⟨j, x, hj, hx, hx'⟩).mpr hmem
    rwa [List.take_length] at hall

theorem Configured.extend (hC : C.Lawful) (h : Configured C s ver) (hi : Inv tm s)
    (hG : Guarded C ver n G s) {e : E} (own : s.ldr (s.term n) = some (n, s.log n))
    (current : tm e = s.term n) (allowed : G.entry (s.log n) e) :
    Configured C { s with
      log := Function.update s.log n (s.log n ++ [e])
      ldr := Function.update s.ldr (s.term n) (some (n, s.log n ++ [e])) } ver := by
  have he := (Step.extend e own current allowed : Step tm G n s _).ext hi.fresh
  have hver : ver n <+: s.log n := hi.settled (h.version n) (Nat.le_refl _) own
  -- entries of the longer log are those of the shorter one, and one more
  have hold : ∀ {p x}, (s.log n)[p]? = some x →
      (s.log n ++ [e]).take p <+: s.log n ∧ p ≤ (s.log n ++ [e]).length := by
    intro p x hx
    have hlt := (List.getElem?_eq_some_iff.mp hx).1
    rw [List.take_append_of_le_length (Nat.le_of_lt hlt), List.length_append]
    exact ⟨List.take_prefix _ _, by omega⟩
  have hlast : (s.log n ++ [e]).take (s.log n).length <+: s.log n := by
    rw [List.take_append_of_le_length (Nat.le_refl _), List.take_length]
  refine ⟨fun m => (h.version m).mono he (he.term m), fun T c L p x hl hx hmajor => ?_,
    fun T c L p x hl hx hmajor => ?_, fun T c L hl => ?_, fun T hpos => ?_⟩
  · rcases ldr_update hl with ⟨rfl, -, rfl⟩ | ⟨-, hl⟩
    swap
    · exact h.synced T c L p x hl hx hmajor
    rcases getElem?_concat hx with hx | ⟨rfl, rfl⟩
    · exact (h.synced _ n _ p x own hx hmajor).front (hold hx).1 (hold hx).2
    · exact (h.looked hC hi own hver (hG.entry _ x allowed (hC.change x hmajor))
        (hG.major _ x allowed hmajor)).front hlast (by rw [List.length_append]; omega)
  · rcases ldr_update hl with ⟨rfl, -, rfl⟩ | ⟨-, hl⟩
    swap
    · exact (h.based T c L p x hl hx hmajor).front (List.take_prefix _ _)
        (Nat.le_of_lt (List.getElem?_eq_some_iff.mp hx).1) (Nat.le_refl _) he
    rcases getElem?_concat hx with hx | ⟨rfl, rfl⟩
    · exact (h.based _ n _ p x own hx hmajor).front (hold hx).1 (hold hx).2 (Nat.le_refl _) he
    · have hbased : Based C s (s.term n) (s.log n) (s.log n).length := by
        refine ⟨(ver n).length, hver.length_le, hG.entry _ x allowed (hC.change x hmajor), ?_⟩
        rw [← take_eq_of_isPrefix hver (Nat.le_refl _), List.take_length]
        exact h.version n
      exact hbased.front hlast (by rw [List.length_append]; omega) (Nat.le_refl _) he
  · obtain ⟨L₀, hl₀⟩ : ∃ L₀, s.ldr T = some (c, L₀) := by
      rcases ldr_update hl with ⟨rfl, rfl, rfl⟩ | ⟨-, hl⟩
      · exact ⟨_, own⟩
      · exact ⟨_, hl⟩
    obtain ⟨P, U, hU, hP, hquorum, hbound⟩ := h.elected T c L₀ hl₀
    refine ⟨P, U, hU, hP.mono he (Nat.le_refl _), hquorum, ?_⟩
    intro T' c' L' p x hT' hl' hx hmajor hreach
    rcases ldr_update hl' with ⟨rfl, rfl, rfl⟩ | ⟨-, hl'⟩
    swap
    · exact hbound T' c' L' p x hT' hl' hx hmajor hreach
    rcases getElem?_concat hx with hx | ⟨rfl, rfl⟩
    · exact (hbound _ _ _ p x hT' own hx hmajor hreach).front (hold hx).1
    · -- the new entry has been neither committed nor acknowledged
      exfalso
      rcases hreach with hlt | ⟨v, -, hlt⟩
      · exact absurd hlt (Nat.not_lt_of_le (hi.com_le own))
      · exact absurd hlt (Nat.not_lt_of_le (hi.acc_le own))
  · obtain ⟨P, W, hP, hquorum, hacc, hbound⟩ := h.committed T hpos
    refine ⟨P, W, hP.mono he (Nat.le_refl _), hquorum, hacc, fun c L p x hl hlt hx hmajor => ?_⟩
    rcases ldr_update hl with ⟨rfl, rfl, rfl⟩ | ⟨-, hl⟩
    swap
    · exact hbound c L p x hl hlt hx hmajor
    rcases getElem?_concat hx with hx | ⟨rfl, rfl⟩
    · exact (hbound _ _ p x own hlt hx hmajor).front (hold hx).1
    · exact absurd hlt (Nat.not_lt_of_le (hi.com_le own))

theorem Configured.ack (h : Configured C s ver) (hi : Inv tm s) {c : N} {L : List E} {m : Nat}
    (hl : s.ldr (s.term n) = some (c, L)) (hm : m ≤ L.length) (holds : L.take m <+: s.log n) :
    Configured C
      { s with acc := cell s.acc n (s.term n) (max (s.acc n (s.term n)) m) } ver := by
  have he := (Step.ack c L m hl hm holds : Step tm .any n s _).ext hi.fresh
  refine { h with
    elected := fun T c' L' hl' => ?_
    committed := fun T hpos => ?_ }
  · obtain ⟨P, U, hU, hP, hquorum, hbound⟩ := h.elected T c' L' hl'
    refine ⟨P, U, hU, hP, hquorum, fun T' c'' L'' p e hT' hl'' hp hmajor hreach => ?_⟩
    refine hbound T' c'' L'' p e hT' hl'' hp hmajor (hreach.imp id ?_)
    -- the voters of a later leader have left the term
    rintro ⟨v, hv, hlt⟩
    have hleft : T' < s.term v :=
      Nat.lt_of_lt_of_le hT' (hi.term_of_voted (hi.voters T c' L' hl' v hv))
    exact ⟨v, hv, by rwa [he.frozen hleft] at hlt⟩
  · obtain ⟨P, W, hP, hquorum, hacc, hbound⟩ := h.committed T hpos
    exact ⟨P, W, hP, hquorum, fun w hw => Nat.le_trans (hacc w hw) (he.acc w T), hbound⟩

theorem Configured.commit (h : Configured C s ver) (hi : Inv tm s) (hG : Guarded C ver n G s)
    {L : List E} {k : Nat} {e : E} {V : Finset N} (own : s.ldr (s.term n) = some (n, L))
    (entry : L[k]? = some e) (current : tm e = s.term n) (quorum : G.quorum V)
    (acked : ∀ v ∈ V, k < s.acc v (s.term n)) (overtaken : Overtaken s (s.term n) V) :
    Configured C
      { s with com := Function.update s.com (s.term n) (max (s.com (s.term n)) (k + 1)) } ver := by
  have he := (Step.commit L k e V own entry current quorum acked overtaken :
    Step tm G n s _).ext hi.fresh
  obtain ⟨hV, hm, U, hset, hU⟩ := hG.quorum V quorum
  refine ⟨fun m => (h.version m).mono he (he.term m), h.synced, fun T c L' p x hl hx hmajor => ?_,
    fun T c L' hl => ?_, fun T hpos => ?_⟩
  · exact (h.based T c L' p x hl hx hmajor).front (List.take_prefix _ _)
      (Nat.le_of_lt (List.getElem?_eq_some_iff.mp hx).1) (Nat.le_refl _) he
  · obtain ⟨P, U', hU', hP, hquorum, hbound⟩ := h.elected T c L' hl
    refine ⟨P, U', hU', hP.mono he (Nat.le_refl _), hquorum, ?_⟩
    intro T' c' L'' p x hT' hl' hx hmajor hreach
    refine hbound T' c' L'' p x hT' hl' hx hmajor ?_
    by_cases hT : T' = s.term n
    swap
    · simpa only [Function.update_of_ne hT] using hreach
    -- what is committed now, a voter of the later leader has acknowledged
    subst hT
    simp only [Function.update_self] at hreach
    rcases hreach with hlt | hacked
    swap
    · exact .inr hacked
    rcases Nat.lt_or_ge p (s.com (s.term n)) with hold | hnew
    · exact .inl hold
    · obtain ⟨v, hvV, hvT⟩ := overtaken T c L' hT' hl
      have := acked v hvV
      exact .inr ⟨v, hvT, by omega⟩
  · by_cases hT : T = s.term n
    swap
    · simp only [Function.update_of_ne hT] at hpos ⊢
      obtain ⟨P, W, hP, rest⟩ := h.committed T hpos
      exact ⟨P, W, hP.mono he (Nat.le_refl _), rest⟩
    subst hT
    simp only [Function.update_self] at hpos ⊢
    rcases Nat.lt_or_ge k (s.com (s.term n)) with hlt | hge
    · obtain ⟨P, W, hP, rest⟩ := h.committed (s.term n) (by omega)
      have hsame := Nat.max_eq_left (a := s.com (s.term n)) hlt
      refine ⟨P, W, hP.mono he (Nat.le_refl _), ?_⟩
      rw [hsame]
      exact rest
    · have hold : U ≤ s.term n := by
        rcases hU with hlt | ⟨hle, -⟩
        · exact Nat.le_of_lt hlt
        · exact hle
      refine ⟨ver n, V, hset.mono he hold, hV, fun v hv => ?_, fun c L' p x hl _ hx hmajor =>
        h.standing hi hm hl hx hmajor⟩
      exact Nat.max_le.mpr ⟨Nat.le_trans hge (Nat.le_of_lt (acked v hv)), acked v hv⟩

/-- **Every step of a guarded node keeps the configurations in order.** -/
theorem Configured.step (hC : C.Lawful) (h : Configured C s ver) (hi : Inv tm s)
    (hG : Guarded C ver n G s) (hs : Step tm G n s s') : Configured C s' ver := by
  have he := hs.ext hi.fresh
  cases hs with
  | elect V cand free quorum votes informed =>
    exact h.elect hi hG cand free quorum votes informed
  | extend e own current allowed => exact h.extend hC hi hG own current allowed
  | ack c L m ldr bound holds => exact h.ack hi ldr bound holds
  | commit L k e V own entry current quorum acked overtaken =>
    exact h.commit hi hG own entry current quorum acked overtaken
  | _ => exact h.idle he rfl rfl rfl rfl

theorem Configured.steps (hC : C.Lawful) (h : Configured C s ver) (hi : Inv tm s)
    (hG : Guarded C ver n G s) (hs : Steps tm G n s s') : Configured C s' ver := by
  induction hs with
  | refl => exact h
  | tail hsteps hstep ih =>
    obtain ⟨hi', he, -⟩ := hi.steps hsteps
    exact ih.step hC hi' (hG.mono he) hstep

end Step

end TermLog
