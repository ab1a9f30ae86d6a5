import DistKV.Lib.TermLogSafety
import DistKV.Raft.Stored

/-!
# What the abstract log sees of a storage

The safety argument is that of `Lib/TermLogSafety.lean`. Its state is a ghost here: next to every
run of the cluster there is one of the abstract system, in which a node has a *whole* log. A
storage has the end of it, from its snapshot on (`Rel`), and the snapshot stands for a committed
prefix.

The two need not fit together. `saveSnapshot` keeps every entry above the snapshot, whatever the
node had at the snapshot's own index, so after an InstallSnapshot the whole log may have a front
part that is not the prefix the snapshot stands for. The abstract node then still has the log it
had before, and votes with it. `q` asks for more, namely that the prefix is the front part.

This module has the abstract steps behind every change of the view.
-/

namespace DistKV
namespace Raft

open TermLog (Settled lastTerm)

/-! ## The ghost -/

abbrev Ghost := TermLog.State Nat Entry

abbrev GhostGuard := TermLog.Guard Nat Entry

/-- Steps of node `i`, with `G` what counts as a quorum and what may be appended. -/
abbrev GhostSteps (G : GhostGuard) (i : Nat) (a a' : Ghost) : Prop :=
  TermLog.Steps Entry.term G i a a'

abbrev GhostInv (a : Ghost) : Prop := TermLog.Inv Entry.term a

/-! ## Views -/

structure View where
  term : Nat
  votedFor : Nat
  snapIndex : Nat
  snapTerm : Nat
  log : List Entry

abbrev DiskStorage.view (s : DiskStorage) : View :=
  ⟨s.term, s.votedFor, s.snapIndex, s.snapTerm, s.log⟩

/-- What would be recovered from `recs` next to the snapshot in `f`. -/
def Files.view (f : Files) (recs : List WalRecord) : View :=
  ⟨(hardOf recs).1, (hardOf recs).2, f.snapIndex, f.snapTerm, logOf f.snapIndex recs⟩

structure Rel (q : Prop) (a : Ghost) (i : Nat) (v : View) : Prop where
  term : a.term i = v.term
  vote : v.votedFor ≠ 0 → a.voted i v.term = some v.votedFor
  free : v.votedFor = 0 → a.voted i v.term = none
  length : (a.log i).length = v.snapIndex + v.log.length
  log : (a.log i).drop v.snapIndex = v.log
  last : v.log = [] → lastTerm Entry.term (a.log i) = v.snapTerm
  snap : ∃ P, Settled a v.term P ∧ P.length = v.snapIndex ∧ lastTerm Entry.term P = v.snapTerm ∧
    (q → P <+: a.log i)

section Rel

variable {q : Prop} {G : GhostGuard} {a a' : Ghost} {i : Nat} {v : View}

theorem Rel.init (i : Nat) : Rel q (TermLog.State.init Nat Entry) i ⟨0, 0, 0, 0, []⟩ where
  term := rfl
  vote h := absurd rfl h
  free _ := rfl
  length := rfl
  log := rfl
  last _ := rfl
  snap := ⟨[], .inl rfl, rfl, rfl, fun _ => List.prefix_refl _⟩

/-- Entry `k` of the storage is entry `snapIndex + k` of the whole log. -/
theorem Rel.entry (h : Rel q a i v) (k : Nat) : (a.log i)[v.snapIndex + k]? = v.log[k]? := by
  rw [← h.log, List.getElem?_drop]

theorem Rel.take (h : Rel q a i v) (k : Nat) :
    ((a.log i).take (v.snapIndex + k)).drop v.snapIndex = v.log.take k := by
  rw [List.drop_take, h.log, Nat.add_sub_cancel_left]

theorem Rel.lastTerm_eq (h : Rel q a i v) :
    lastTerm Entry.term (a.log i) = ((v.log.getLast?.map Entry.term).getD v.snapTerm) := by
  cases hl : v.log.getLast? with
  | none =>
    rw [h.last (List.getLast?_eq_none_iff.mp hl)]
    rfl
  | some e =>
    have hlast : (a.log i).getLast? = some e := by
      rw [← h.log, List.getLast?_drop] at hl
      split at hl
      · cases hl
      · exact hl
    rw [lastTerm, hlast]
    rfl

/-- Nothing of node `i` that the view speaks of has changed. -/
theorem Rel.congr (h : Rel q a i v) (he : TermLog.Ext a a') (hterm : a'.term i = a.term i)
    (hlog : a'.log i = a.log i) (hvoted : a'.voted i = a.voted i) : Rel q a' i v := by
  obtain ⟨P, hP, hlen, hlast, hq⟩ := h.snap
  refine ⟨hterm.trans h.term, ?_, ?_, ?_, ?_, ?_, P, hP.mono he (Nat.le_refl _), hlen, hlast, ?_⟩
  · rw [hvoted]; exact h.vote
  · rw [hvoted]; exact h.free
  · rw [hlog]; exact h.length
  · rw [hlog]; exact h.log
  · rw [hlog]; exact h.last
  · rw [hlog]; exact hq

/-- Another node took steps. -/
theorem Rel.other {j : Nat} (h : Rel q a i v) (he : TermLog.Ext a a') (ho : TermLog.Off j a a')
    (hij : i ≠ j) : Rel q a' i v :=
  h.congr he (ho.term hij) (ho.log hij) (ho.voted hij)

/-! ## Terms and votes -/

theorem Rel.bump (hi : GhostInv a) (h : Rel q a i v) {term : Nat} (later : v.term < term) :
    ∃ a', GhostSteps G i a a' ∧ Rel q a' i { v with term := term, votedFor := 0 } := by
  have hlater : a.term i < term := by rw [h.term]; exact later
  have hstep : GhostSteps G i a { a with term := Function.update a.term i term } :=
    .single (.bump term hlater)
  obtain ⟨-, he, -⟩ := hi.steps hstep
  obtain ⟨P, hP, hlen, hlast, hq⟩ := h.snap
  exact ⟨_, hstep, Function.update_self .., fun hne => absurd rfl hne,
    fun _ => (hi.frozen i term hlater).2.1, h.length, h.log, h.last, P,
    hP.mono he (Nat.le_of_lt later), hlen, hlast, hq⟩

/-- The node becomes a candidate with the log it has. -/
theorem Rel.campaign (hi : GhostInv a) (h : Rel q a i v) (hid : i ≠ 0) :
    ∃ a', GhostSteps G i a a' ∧ Rel q a' i { v with term := v.term + 1, votedFor := i } ∧
      a'.cand i (v.term + 1) = some (a'.log i) ∧ ∀ L, a'.ldr (v.term + 1) ≠ some (i, L) := by
  have hlater : a.term i < v.term + 1 := by rw [h.term]; exact Nat.lt_succ_self _
  obtain ⟨hcand, hvoted, -⟩ := hi.frozen i (v.term + 1) hlater
  have hstep : GhostSteps G i a _ := .single (.campaign (v.term + 1) hlater)
  obtain ⟨-, he, -⟩ := hi.steps hstep
  obtain ⟨P, hP, hlen, hlast, hq⟩ := h.snap
  refine ⟨_, hstep, ⟨Function.update_self .., fun _ => ?_, fun hz => ?_, h.length, h.log, h.last, P,
    hP.mono he (Nat.le_succ _), hlen, hlast, hq⟩, ?_, fun L hl => ?_⟩
  · exact if_pos ⟨rfl, rfl⟩
  · exact absurd hz hid
  · exact if_pos ⟨rfl, rfl⟩
  · -- a leader of the term has stood for it
    obtain ⟨M, hM, -⟩ := hi.stood _ _ _ hl
    rw [hcand] at hM
    cases hM

theorem Rel.voteFor (hi : GhostInv a) (h : Rel q a i v) {c : Nat} {M : List Entry}
    (hc : c ≠ 0) (free : v.votedFor = 0 ∨ v.votedFor = c) (cand : a.cand c v.term = some M)
    (upToDate : TermLog.UpToDate Entry.term M (a.log i)) :
    ∃ a', GhostSteps G i a a' ∧ Rel q a' i { v with votedFor := c } ∧ a'.log = a.log ∧
      a'.ldr = a.ldr ∧ a'.com = a.com := by
  by_cases hz : v.votedFor = 0
  · have hfree : a.voted i (a.term i) = none := by rw [h.term]; exact h.free hz
    have hstep : GhostSteps G i a _ :=
      .single (.vote c M (by rw [h.term]; exact cand) hfree upToDate)
    obtain ⟨-, he, -⟩ := hi.steps hstep
    obtain ⟨P, hP, hlen, hlast, hq⟩ := h.snap
    refine ⟨_, hstep, ⟨h.term, fun _ => ?_, fun hno => absurd hno hc, h.length, h.log, h.last, P,
      hP.mono he (Nat.le_refl _), hlen, hlast, hq⟩, rfl, rfl, rfl⟩
    exact if_pos ⟨rfl, h.term.symm⟩
  · -- the vote of the term has been given to this candidate before
    obtain rfl := free.resolve_left hz
    exact ⟨a, .refl, h, rfl, rfl, rfl⟩

/-! ## Logs -/

/-- The node has another log, and the prefix its snapshot stands for is the front part of it. -/
theorem Rel.relog (h : Rel q a i v) (he : TermLog.Ext a a') (hterm : a'.term = a.term)
    (hvoted : a'.voted = a.voted) (above : v.snapIndex ≤ (a'.log i).length)
    (whole : ∀ P, Settled a v.term P → P.length = v.snapIndex → P <+: a'.log i) :
    Rel q a' i { v with log := (a'.log i).drop v.snapIndex } := by
  obtain ⟨P, hP, hlen, hlast, -⟩ := h.snap
  have hpre := whole P hP hlen
  refine ⟨by rw [hterm]; exact h.term, by rw [hvoted]; exact h.vote, by rw [hvoted]; exact h.free,
    ?_, rfl, fun hnil => ?_, P, hP.mono he (Nat.le_refl _), hlen, hlast, fun _ => hpre⟩
  · rw [List.length_drop, Nat.add_sub_cancel' above]
  · -- nothing above the snapshot: the prefix is all there is
    have hle := List.drop_eq_nil_iff.mp hnil
    rw [← hpre.eq_of_length_le (by rw [hlen]; exact hle)]
    exact hlast

/-- The log of a leader begins with everything that is settled. -/
theorem settled_whole (hi : GhostInv a) {term c : Nat} {L P : List Entry}
    (ldr : a.ldr term = some (c, L)) (hP : Settled a term P) : P <+: L :=
  hi.settled hP (Nat.le_refl _) ldr

/-- A leader appends an entry of its own. -/
theorem Rel.extend (hi : GhostInv a) (h : Rel q a i v) {e : Entry}
    (own : a.ldr v.term = some (i, a.log i)) (current : e.term = v.term)
    (allowed : G.entry (a.log i) e) :
    ∃ a', GhostSteps G i a a' ∧ Rel q a' i { v with log := v.log ++ [e] } ∧
      a'.log i = a.log i ++ [e] ∧ a'.ldr v.term = some (i, a'.log i) ∧ a'.acc = a.acc ∧
      a'.com = a.com := by
  obtain ⟨a', hsteps, hlog, hldr, hterm, hvoted, hacc, hcom⟩ : ∃ a', GhostSteps G i a a' ∧
      a'.log i = a.log i ++ [e] ∧ a'.ldr (a.term i) = some (i, a.log i ++ [e]) ∧
      a'.term = a.term ∧ a'.voted = a.voted ∧ a'.acc = a.acc ∧ a'.com = a.com :=
    ⟨_, .single (.extend e (by rw [h.term]; exact own) (current.trans h.term.symm) allowed),
      Function.update_self .., Function.update_self .., rfl, rfl, rfl, rfl⟩
  obtain ⟨-, he, -⟩ := hi.steps hsteps
  have hle : v.snapIndex ≤ (a.log i).length := by rw [h.length]; exact Nat.le_add_right _ _
  have hrel := h.relog he hterm hvoted (by rw [hlog, List.length_append]; omega) fun P hP _ => by
    rw [hlog]
    exact (settled_whole hi own hP).trans (List.prefix_append _ _)
  rw [hlog, List.drop_append_of_le_length hle, h.log] at hrel
  exact ⟨a', hsteps, hrel, hlog, by rw [hlog, ← h.term]; exact hldr, hacc, hcom⟩

/-- A follower takes over a prefix of the log of its leader. -/
theorem Rel.adopt (hi : GhostInv a) (h : Rel q a i v) {c m : Nat} {L : List Entry}
    (ldr : a.ldr v.term = some (c, L)) (above : v.snapIndex ≤ m) (bound : m ≤ L.length)
    (cause : (a.log i).length ≤ m ∨ TermLog.Conflict Entry.term m (a.log i) L) :
    ∃ a', GhostSteps G i a a' ∧
      Rel q a' i { v with log := (L.take m).drop v.snapIndex } ∧
      a'.log i = L.take m ∧ a'.ldr = a.ldr := by
  obtain ⟨a', hsteps, hlog, hldr, hterm, hvoted⟩ : ∃ a', GhostSteps G i a a' ∧
      a'.log i = L.take m ∧ a'.ldr = a.ldr ∧ a'.term = a.term ∧ a'.voted = a.voted :=
    ⟨_, .single (.adopt c L m (by rw [h.term]; exact ldr) bound cause), Function.update_self ..,
      rfl, rfl, rfl⟩
  obtain ⟨-, he, -⟩ := hi.steps hsteps
  have hrel := h.relog he hterm hvoted (by rw [hlog, List.length_take]; omega) fun P hP hlen => by
    rw [hlog]
    exact List.prefix_take_iff.mpr ⟨settled_whole hi ldr hP, by rw [hlen]; exact above⟩
  rw [hlog] at hrel
  exact ⟨a', hsteps, hrel, hlog, hldr⟩

/-- A leader that crashes loses entries it has not acknowledged itself. -/
theorem Rel.lose (hi : GhostInv a) (h : Rel q a i v)
    (own : a.ldr v.term = some (i, a.log i)) {j : Nat}
    (unacked : ∀ p e, v.snapIndex + j ≤ p → (a.log i)[p]? = some e → a.acc i e.term ≤ p) :
    ∃ a', GhostSteps G i a a' ∧ Rel q a' i { v with log := v.log.take j } ∧
      a'.log i = (a.log i).take (v.snapIndex + j) := by
  obtain ⟨a', hsteps, hlog, hterm, hvoted⟩ : ∃ a', GhostSteps G i a a' ∧
      a'.log i = (a.log i).take (v.snapIndex + j) ∧ a'.term = a.term ∧ a'.voted = a.voted :=
    ⟨_, .single (.lose (v.snapIndex + j) unacked), Function.update_self .., rfl, rfl⟩
  obtain ⟨-, he, -⟩ := hi.steps hsteps
  have hlen := h.length
  have hrel := h.relog he hterm hvoted (by rw [hlog, List.length_take]; omega) fun P hP hlen => by
    rw [hlog]
    exact List.prefix_take_iff.mpr ⟨settled_whole hi own hP, by omega⟩
  rw [hlog, h.take j] at hrel
  exact ⟨a', hsteps, hrel, hlog⟩

/-! ## Snapshots -/

/-- A snapshot of what the node has. -/
theorem Rel.compact (h : Rel q a i v) {P : List Entry} {term : Nat} (hP : Settled a v.term P)
    (above : v.snapIndex ≤ P.length) (bound : P.length ≤ (a.log i).length)
    (hterm : lastTerm Entry.term P = term)
    (hlast : P.length = (a.log i).length → lastTerm Entry.term (a.log i) = term)
    (hq : q → P <+: a.log i) :
    Rel q a i { v with
      snapIndex := P.length, snapTerm := term, log := v.log.drop (P.length - v.snapIndex) } := by
  refine ⟨h.term, h.vote, h.free, ?_, ?_, fun hnil => hlast ?_, P, hP, rfl, hterm, hq⟩
  · have := h.length
    simp only [List.length_drop]
    omega
  · rw [← h.log, List.drop_drop, Nat.add_sub_cancel' above]
  · have := List.drop_eq_nil_iff.mp hnil
    have := h.length
    omega

/-- A snapshot from the leader: it replaces the log where it reaches as far, and otherwise leaves
    it alone. -/
theorem Rel.install (hi : GhostInv a) (h : Rel q a i v) {c : Nat} {L P : List Entry}
    (ldr : a.ldr v.term = some (c, L)) (hP : Settled a v.term P) (above : v.snapIndex < P.length)
    (hq : q → P.length < (a.log i).length → P <+: a.log i) :
    ∃ a', GhostSteps G i a a' ∧
      Rel q a' i { v with
        snapIndex := P.length, snapTerm := lastTerm Entry.term P
        log := v.log.drop (P.length - v.snapIndex) } := by
  have hpre : P <+: L := settled_whole hi ldr hP
  rcases Nat.lt_or_ge P.length (a.log i).length with hlt | hge
  · exact ⟨a, .refl, h.compact hP (Nat.le_of_lt above) (Nat.le_of_lt hlt) rfl
      (fun heq => absurd heq (Nat.ne_of_lt hlt)) fun hstrong => hq hstrong hlt⟩
  · obtain ⟨a', hsteps, hrel, hlog, -⟩ :=
      h.adopt hi ldr (Nat.le_of_lt above) hpre.length_le (.inl hge)
    obtain ⟨-, he, -⟩ := hi.steps hsteps
    have htake : L.take P.length = P := by
      rw [← TermLog.take_eq_of_isPrefix hpre (Nat.le_refl _), List.take_length]
    rw [htake] at hlog hrel
    have hnew := hrel.compact (hP.mono he (Nat.le_refl _)) (Nat.le_of_lt above)
      (by rw [hlog]) rfl (fun _ => by rw [hlog]) fun _ => by rw [hlog]
    have hnil : v.log.drop (P.length - v.snapIndex) = [] := by
      have := h.length
      exact List.drop_eq_nil_iff.mpr (by omega)
    have hnil' : (P.drop v.snapIndex).drop (P.length - v.snapIndex) = [] :=
      List.drop_eq_nil_iff.mpr (by rw [List.length_drop])
    refine ⟨a', hsteps, ?_⟩
    rw [hnil]
    simp only [hnil'] at hnew
    exact hnew

end Rel

end Raft
end DistKV
