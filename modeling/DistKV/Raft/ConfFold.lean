import DistKV.Lib.Reconfigure
import DistKV.Raft.ApplyStream
import DistKV.Raft.JointQuorum

/-!
# The configuration as a fold of the log

The applier folds the committed changes into the node's configuration, one by one, and skips those
that `ApplyConfChange` rejects. So a log decides who counts in an election, and the logs of this
repository are logs whose quorums change in the sense of `Lib/Reconfigure.lean` (`voting`). A
`LEAVE_JOINT` is the minor kind of change: it drops the old half and leaves the voters as they are.
Whatever is one other change ahead, and any number of `LEAVE_JOINT`s, has quorums that meet
(`voting_lawful`).
-/

namespace DistKV
namespace Raft

/-! ## The fold -/

/-- The change an entry asks for. -/
def Entry.change? (e : Entry) : Option ConfChange :=
  match e.type, e.confChange with
  | .confChange, some cc => some cc
  | _, _ => none

/-- The membership after an entry; a change that is rejected is skipped. -/
def ConfState.absorb (c : ConfState) (e : Entry) : ConfState :=
  match e.change? with
  | none => c
  | some cc =>
    match c.applyConfChange cc with
    | .error _ => c
    | .ok next => next

/-- The membership after a list of entries. -/
def ConfState.after (c : ConfState) (es : List Entry) : ConfState := es.foldl ConfState.absorb c

/-- The membership after the first `index` entries of a log. -/
def foldConf (boot : ConfState) (L : Nat → Entry) : Nat → ConfState
  | 0 => boot
  | index + 1 => (foldConf boot L index).absorb (L (index + 1))

theorem ConfState.absorb_plain {c : ConfState} {e : Entry} (h : e.change? = none) :
    c.absorb e = c := by
  rw [absorb, h]

theorem ConfState.absorb_change {c : ConfState} {e : Entry} {cc : ConfChange}
    (h : e.change? = some cc) : c.absorb e = (c.applyConfChange cc).toOption.getD c := by
  rw [absorb, h]
  cases hcc : c.applyConfChange cc with
  | error err => simp only [hcc]; rfl
  | ok next => simp only [hcc]; rfl

theorem ConfState.absorb_congr {c : ConfState} {e e' : Entry} (h : e.change? = e'.change?) :
    c.absorb e = c.absorb e' := by
  rw [absorb, absorb, h]

/-- An entry leaves the configuration alone or makes an accepted change. -/
theorem ConfState.absorb_cases (c : ConfState) (e : Entry) :
    c.absorb e = c ∨ ∃ cc, e.change? = some cc ∧ Changed c cc (c.absorb e) := by
  cases he : e.change? with
  | none => exact .inl (absorb_plain he)
  | some cc =>
    rw [absorb_change he]
    cases hcc : c.applyConfChange cc with
    | error err => exact .inl rfl
    | ok next => exact .inr ⟨cc, rfl, applyConfChange_changed hcc⟩

section After

variable {c : ConfState} {e : Entry} {es es' : List Entry}

@[simp] theorem ConfState.after_nil : c.after [] = c := rfl

@[simp] theorem ConfState.after_cons : c.after (e :: es) = (c.absorb e).after es := rfl

@[simp] theorem ConfState.after_append : c.after (es ++ es') = (c.after es).after es' :=
  List.foldl_append

theorem ConfState.after_plain (h : ∀ e ∈ es, e.change? = none) : c.after es = c := by
  induction es with
  | nil => rfl
  | cons e es ih =>
    rw [after_cons, absorb_plain (h e List.mem_cons_self)]
    exact ih fun x hx => h x (List.mem_cons_of_mem _ hx)

theorem ConfState.Formed.absorb (h : c.Formed) (e : Entry) : (c.absorb e).Formed := by
  rcases c.absorb_cases e with hsame | ⟨cc, -, hchanged⟩
  · rw [hsame]
    exact h
  · exact hchanged.formed h

theorem ConfState.Formed.after (h : c.Formed) (es : List Entry) : (c.after es).Formed := by
  induction es generalizing c with
  | nil => exact h
  | cons e es ih => exact ih (h.absorb e)

/-- The two ways to write the fold. -/
theorem after_eq_foldConf {boot : ConfState} {L : Nat → Entry} {P : List Entry}
    (h : ∀ (m : Nat) e, P[m]? = some e → L (m + 1) = e) :
    boot.after P = foldConf boot L P.length := by
  induction P using List.reverseRecOn with
  | nil => rfl
  | append_singleton P e ih =>
    have hlast : L (P.length + 1) = e := h P.length e (by simp)
    rw [ConfState.after_append, List.length_append, List.length_singleton, foldConf, hlast,
      ih fun m x hx => h m x (TermLog.getElem?_mono (List.prefix_append _ _) hx)]
    rfl

theorem foldConf_plain {boot : ConfState} {L : Nat → Entry} {index j : Nat} (hj : index ≤ j)
    (h : ∀ m, index < m → m ≤ j → (L m).change? = none) :
    foldConf boot L j = foldConf boot L index := by
  induction hj with
  | refl => rfl
  | step hj ih =>
    rename_i j
    rw [foldConf, ConfState.absorb_plain (h (j + 1) (Nat.lt_succ_of_le hj) (Nat.le_refl _))]
    exact ih fun m hlt hle => h m hlt (Nat.le_succ_of_le hle)

end After

/-! ## Quorums read off a log -/

/-- A change of the voters, whether it is accepted or not. -/
def Entry.Major (e : Entry) : Prop := ∃ cc, e.change? = some cc ∧ cc.type ≠ .leaveJoint

/-- Who counts according to a log. -/
def voting (boot : ConfState) : TermLog.Scheme Nat Entry where
  quorum P V := (boot.after P).Counts V
  member P i := i ∈ (boot.after P).voters
  change e := e.change? ≠ none
  major := Entry.Major

section Voting

open ConfState

variable {boot c : ConfState} {e : Entry} {es : List Entry}

/-- Entries that are not major can only make the configuration leave its joint half. -/
theorem absorb_minor (h : ¬e.Major) :
    c.absorb e = c ∨ c.joint.Nonempty ∧ c.absorb e = ⟨c.voters, ∅⟩ := by
  rcases c.absorb_cases e with hsame | ⟨cc, hcc, hchanged⟩
  · exact .inl hsame
  have htype : cc.type = .leaveJoint := by
    by_contra hne
    exact h ⟨cc, hcc, hne⟩
  generalize c.absorb e = next at hchanged ⊢
  cases hchanged with
  | add type => rw [htype] at type; cases type
  | remove type => rw [htype] at type; cases type
  | leave type hj => exact .inr ⟨hj, rfl⟩

theorem after_minor (h : ∀ e ∈ es, ¬e.Major) :
    c.after es = c ∨ c.joint.Nonempty ∧ c.after es = ⟨c.voters, ∅⟩ := by
  induction es generalizing c with
  | nil => exact .inl rfl
  | cons e es ih =>
    have hrest : ∀ x ∈ es, ¬x.Major := fun x hx => h x (List.mem_cons_of_mem _ hx)
    rw [after_cons]
    rcases absorb_minor (c := c) (h e List.mem_cons_self) with hsame | ⟨hj, hleft⟩
    · rw [hsame]
      exact ih hrest
    · rw [hleft]
      rcases ih (c := ⟨c.voters, ∅⟩) hrest with hsame | ⟨hj', -⟩
      · exact .inr ⟨hj, hsame⟩
      · exact absurd hj' Finset.not_nonempty_empty

theorem Step.refl (S : Finset Nat) : ConfState.Step S S :=
  ⟨Finset.Subset.refl S, Nat.le_succ _⟩

/-- A change and what leaves of its joint half. -/
theorem Changed.near {next : ConfState} {cc : ConfChange} (hc : c.Formed) (h : Changed c cc next) :
    ConfState.Step c.members next.voters ∨ ConfState.Step next.voters c.members := by
  cases h with
  | add type hj =>
    rw [members_eq, hj, Finset.union_empty]
    exact .inl ⟨Finset.subset_insert _ _, Finset.card_insert_le _ _⟩
  | remove type hj hin hcard =>
    rw [members_eq, hj, Finset.union_empty]
    exact .inr ⟨Finset.erase_subset _ _, Nat.le_of_eq (Finset.card_erase_add_one hin).symm⟩
  | leave type hj =>
    have hleft := (Changed.leave type hj : Changed c cc ⟨c.voters, ∅⟩).members hc
    rwa [members_eq ⟨c.voters, ∅⟩, Finset.union_empty] at hleft

/-- One change of any kind and then minor ones: the members are one step away at most. -/
theorem members_near (hc : c.Formed) {next : ConfState}
    (hnext : next = c ∨ ∃ cc, Changed c cc next) (h : ∀ e ∈ es, ¬e.Major) :
    ConfState.Step c.members (next.after es).members ∨
      ConfState.Step (next.after es).members c.members := by
  rcases after_minor (c := next) h with hsame | ⟨hj, hleft⟩
  · rw [hsame]
    rcases hnext with rfl | ⟨cc, hchanged⟩
    · exact .inl (Step.refl _)
    · exact hchanged.members hc
  · rw [hleft, members_eq ⟨next.voters, ∅⟩, Finset.union_empty]
    rcases hnext with rfl | ⟨cc, hchanged⟩
    · have hleave : Changed next { type := .leaveJoint } ⟨next.voters, ∅⟩ := .leave rfl hj
      exact Changed.near hc hleave
    · have hnear := Changed.near hc hchanged
      exact hnear

/-- Of the changes in `es` none but the first is major. -/
theorem after_near (hc : c.Formed)
    (h : ∀ (p : Nat) e, es[p]? = some e → e.Major →
      ∀ (j : Nat) x, j < p → es[j]? = some x → x.change? = none) :
    ConfState.Step c.members (c.after es).members ∨
      ConfState.Step (c.after es).members c.members := by
  induction es with
  | nil => exact .inl (Step.refl _)
  | cons e es ih =>
    rw [after_cons]
    cases he : e.change? with
    | none =>
      rw [absorb_plain he]
      exact ih fun p x hx hmajor j y hj hy => h (p + 1) x hx hmajor (j + 1) y (by omega) hy
    | some cc =>
      have hnext : c.absorb e = c ∨ ∃ cc, Changed c cc (c.absorb e) := by
        rcases c.absorb_cases e with hsame | ⟨cc, -, hchanged⟩
        · exact .inl hsame
        · exact .inr ⟨cc, hchanged⟩
      refine members_near hc hnext fun x hx hmajor => ?_
      obtain ⟨p, hp⟩ := List.getElem?_of_mem hx
      have hnone := h (p + 1) x hp hmajor 0 e (Nat.succ_pos p) rfl
      rw [he] at hnone
      cases hnone

/-- **Quorums of close configurations meet.** -/
theorem voting_lawful (hboot : boot.Formed) : (voting boot).Lawful where
  change e h := by
    obtain ⟨cc, hcc, -⟩ := h
    show e.change? ≠ none
    rw [hcc]
    exact Option.some_ne_none cc
  member P e i h := by
    show i ∈ (boot.after (P ++ [e])).voters ↔ i ∈ (boot.after P).voters
    rw [after_append, after_cons, after_nil]
    rcases absorb_minor (c := boot.after P) h with hsame | ⟨-, hleft⟩
    · rw [hsame]
    · rw [hleft]
  meet P P' V W hp hclose hV hW := by
    obtain ⟨D, rfl⟩ := hp
    have hW' : ((boot.after P).after D).Counts W := by
      rw [← after_append]
      exact hW
    have hformed : (boot.after P).Formed := hboot.after P
    refine counts_meet hformed (hformed.after D) (after_near hformed ?_) hV hW'
    intro p e he hmajor j x hj hx
    by_contra hne
    have hpos : ∀ q, (P ++ D)[P.length + q]? = D[q]? := fun q => by
      rw [List.getElem?_append_right (Nat.le_add_right _ _), Nat.add_sub_cancel_left]
    have hlt := hclose (P.length + p) e ((hpos p).trans he) hmajor (P.length + j) x (by omega)
      ((hpos j).trans hx) hne
    omega

end Voting

/-! ## The applier -/

theorem Node.applyConfChangeLocked_conf {n : Node} (cc : ConfChange) :
    (n.applyConfChangeLocked cc).1.conf =
      match n.conf.applyConfChange cc with
      | .error _ => n.conf
      | .ok next => next := by
  rw [applyConfChangeLocked]
  cases n.conf.applyConfChange cc with
  | error err => rfl
  | ok next =>
    simp only [trackMember_conf]
    rfl

/-- Applying an entry absorbs it. -/
theorem Node.applyEntry_conf {n : Node} (e : Entry) :
    (n.applyEntry e).1.conf = n.conf.absorb e := by
  cases ht : e.type with
  | normal => simp only [applyEntry, ConfState.absorb, Entry.change?, ht]
  | confChange =>
    cases hcc : e.confChange with
    | none => simp only [applyEntry, ConfState.absorb, Entry.change?, ht, hcc]
    | some cc =>
      simp only [applyEntry, ConfState.absorb, Entry.change?, ht, hcc]
      exact applyConfChangeLocked_conf cc

section Applier

variable {boot : ConfState} {L : Nat → Entry} {n m : Node}

/-- The applier goes along the changes of the log. -/
theorem collectLoop_conf {fuel : Nat} {msgs : List ApplyMsg}
    (h : Node.collectLoop fuel n = some (m, msgs)) (hsnap : n.store.snapIndex ≤ n.lastApplied)
    (hL : ∀ index e, n.lastApplied < index → index ≤ n.commitIndex →
      n.store.entryAt index = some e → e.change? = (L index).change?)
    (hn : n.conf = foldConf boot L n.lastApplied) : m.conf = foldConf boot L m.lastApplied := by
  induction fuel generalizing n m msgs with
  | zero =>
    obtain ⟨rfl, -⟩ := Prod.mk.inj (Option.some.inj h)
    exact hn
  | succ fuel ih =>
    rw [Node.collectLoop] at h
    split at h
    swap
    · obtain ⟨rfl, -⟩ := Prod.mk.inj (Option.some.inj h)
      exact hn
    next hlt =>
    simp only at h
    split at h
    · next hbelow => exact absurd hbelow (Nat.not_lt.mpr (Nat.succ_le_succ hsnap))
    split at h
    · cases h
    next e he =>
    obtain ⟨⟨m', rest⟩, hrest, hq⟩ := Option.map_eq_some_iff.mp h
    obtain ⟨rfl, -⟩ := Prod.mk.inj hq
    obtain ⟨hlog, hsame⟩ := applyEntry_log (n := n) e
    have hcommit := (Node.applyEntry_frame (n := n) e).2.1
    have hentry : ∀ index, (n.applyEntry e).1.store.entryAt index = n.store.entryAt index := by
      intro index
      rw [DiskStorage.entryAt, DiskStorage.entryAt, DiskStorage.firstIndex, DiskStorage.firstIndex,
        hlog, hsame]
    refine ih hrest ?_ (fun index e' hlow hle he' => ?_) ?_
    · show (n.applyEntry e).1.store.snapIndex ≤ n.lastApplied + 1
      rw [hsame]
      exact Nat.le_succ_of_le hsnap
    · have hle' : index ≤ (n.applyEntry e).1.commitIndex := hle
      rw [hcommit] at hle'
      exact hL index e' (Nat.lt_of_succ_lt hlow) hle' (hentry index ▸ he')
    · show (n.applyEntry e).1.conf = foldConf boot L (n.lastApplied + 1)
      rw [Node.applyEntry_conf, foldConf, ← hn]
      exact ConfState.absorb_congr (hL (n.lastApplied + 1) e (Nat.lt_succ_self _) hlt he)

/-- The applier stops at `commitIndex`. -/
theorem collectLoop_reaches {fuel : Nat} {msgs : List ApplyMsg}
    (h : Node.collectLoop fuel n = some (m, msgs)) (hsnap : n.store.snapIndex ≤ n.lastApplied)
    (hle : n.lastApplied ≤ n.commitIndex) (hfuel : n.commitIndex - n.lastApplied ≤ fuel) :
    m.lastApplied = n.commitIndex := by
  induction fuel generalizing n m msgs with
  | zero =>
    obtain ⟨rfl, -⟩ := Prod.mk.inj (Option.some.inj h)
    omega
  | succ fuel ih =>
    rw [Node.collectLoop] at h
    split at h
    swap
    · obtain ⟨rfl, -⟩ := Prod.mk.inj (Option.some.inj h)
      omega
    next hlt =>
    simp only at h
    split at h
    · next hbelow => exact absurd hbelow (Nat.not_lt.mpr (Nat.succ_le_succ hsnap))
    split at h
    · cases h
    next e he =>
    obtain ⟨⟨m', rest⟩, hrest, hq⟩ := Option.map_eq_some_iff.mp h
    obtain ⟨rfl, -⟩ := Prod.mk.inj hq
    have hsame := (applyEntry_log (n := n) e).2
    have hcommit := (Node.applyEntry_frame (n := n) e).2.1
    refine (ih hrest ?_ ?_ ?_).trans hcommit
    · show (n.applyEntry e).1.store.snapIndex ≤ n.lastApplied + 1
      rw [hsame]
      exact Nat.le_succ_of_le hsnap
    · show n.lastApplied + 1 ≤ (n.applyEntry e).1.commitIndex
      rw [hcommit]
      exact hlt
    · show (n.applyEntry e).1.commitIndex - (n.lastApplied + 1) ≤ fuel
      rw [hcommit]
      omega

end Applier

/-! ## The configuration to come -/

/-- What the node has in its log at `index` and has not applied; nothing anywhere else. -/
def Node.ahead (n : Node) (index : Nat) : Entry :=
  if index ≤ n.lastApplied then default else (n.store.entryAt index).getD default

/-- The configuration the node comes to when it applies its log through `index`. -/
def Node.confAt (n : Node) (index : Nat) : ConfState := foldConf n.conf n.ahead index

theorem Node.confAt_applied (n : Node) : n.confAt n.lastApplied = n.conf := by
  rw [confAt, foldConf_plain (Nat.zero_le _)]
  · rfl
  · intro m _ hle
    rw [ahead, if_pos hle]
    rfl

end Raft
end DistKV
