import DistKV.Raft.Frame
import DistKV.Raft.Section
import DistKV.Raft.Stored

/-!
# Consecutive logs in every run

In every run, with any failures and any configuration changes, the log of a node starts right
above its snapshot and has no gaps, and so does what an AppendEntries request carries.
-/

namespace DistKV
namespace Raft

/-! ## The rule -/

/-- The entries that are not there yet can be appended without a gap. -/
theorem appendable_dropWhile {s : DiskStorage} (hs : Stored s) {prev : Nat} {entries : List Entry}
    (hc : Chain prev entries) (hprev : prev ≤ s.lastIndex) :
    Appendable s (entries.dropWhile (Node.alreadyHas s)) := by
  have hlast := hs.lastIndex
  induction entries generalizing prev with
  | nil => intro e es' h; cases h
  | cons x xs ih =>
    have hix := hc.head
    cases hx : Node.alreadyHas s x with
    | true =>
      rw [List.dropWhile_cons_of_pos hx]
      refine ih hc.tail ?_
      simp only [Node.alreadyHas, Bool.or_eq_true, Bool.and_eq_true, decide_eq_true_eq] at hx
      omega
    | false =>
      rw [List.dropWhile_cons_of_neg (by simp [hx])]
      intro e es' h
      obtain ⟨rfl, rfl⟩ := List.cons.inj h
      simp only [Node.alreadyHas, Bool.or_eq_false_iff, decide_eq_false_iff_not] at hx
      refine ⟨by omega, by omega, ?_⟩
      rwa [hix, Nat.add_sub_cancel]

/-- An AppendEntries request carries consecutive entries from `prevLogIndex` on. -/
def ChainedRequest : Request → Prop
  | .appendEntries req => Chain req.prevLogIndex req.entries
  | _ => True

def ChainedNode (i : Nat) (n : Node) : Prop := n.id = i ∧ Stored n.store

theorem StoreStep.stored {i : Nat} {conf : ConfState} {op : NodeOp} {s s' : DiskStorage}
    (h : StoreStep i conf op s s') (hop : ∀ req, op = .handle req → ChainedRequest req)
    (hs : Kept Stored Recoverable s) : Kept Stored Recoverable s' := by
  cases h with
  | stepDown term later => exact Stored.setHardState hs _ _
  | campaign member => exact Stored.setHardState hs _ _
  | vote req request current free => exact Stored.setHardState hs _ _
  | entry e next current type =>
    refine Stored.appendEntries hs fun x xs hx => ?_
    obtain ⟨rfl, rfl⟩ := List.cons.inj hx
    have hlast := hs.1.lastIndex
    refine ⟨by omega, by omega, ?_⟩
    have := Chain.concat (b := e.index - 1) Chain.nil (e := e) (by simp; omega)
    exact this
  | accept req request current reaches =>
    exact Stored.appendEntries hs (appendable_dropWhile hs.1 (hop _ request) reaches)
  | sync => exact Stored.sync hs
  | install req request current => exact Stored.saveSnapshot hs _ _ _ _
  | compact index term data request held => exact Stored.saveSnapshot hs _ _ _ _
  | applied request e held type c => exact Stored.setConfState hs c

theorem stored_withFaults {n : Node} (h : Stored n.store) (faults : List Bool) :
    Kept Stored Recoverable (n.withFaults faults).store :=
  ⟨storedGuard.quiet (b := n.store.dirty) rfl h, by simp [Node.withFaults]⟩

theorem chained_sent {n : Node} (hn : Stored n.store) {s : Send} (hs : Sent n s) :
    ChainedRequest s.req := by
  cases hs with
  | vote role request => rw [request]; trivial
  | snapshot role request => rw [request]; trivial
  | append role next prevTerm above prev request =>
    rw [request]
    show Chain (next - 1) (n.store.entriesFrom next)
    rw [DiskStorage.firstIndex] at above
    rw [entriesFrom_eq hn.chain above]
    have := hn.chain.drop (next - n.store.snapIndex - 1)
    rwa [show n.store.snapIndex + (next - n.store.snapIndex - 1) = next - 1 by omega] at this

def chained : Assertion where
  node := ChainedNode
  files _ := Recoverable
  call _ _ := ChainedRequest

theorem chainRule (cfg : Config) : Rule cfg (fun _ _ _ => True) chained where
  init i := ⟨rfl, by
    refine ⟨Nat.le_refl _, WalOk.nil, rfl, fun h => by cases h⟩⟩
  files h := storedGuard.files h.2
  recover h ho := ⟨rfl, (h.recover ho).1⟩
  exec {i n faults op n' eff} _ hn _ hop hex := by
    have hreq : ∀ req, op = .handle req → ChainedRequest req := by
      rintro req rfl
      obtain ⟨_, h⟩ := hop
      exact h
    have hk := (Node.exec_store hex).keep (stored_withFaults hn.2 faults)
      fun hstep hs => hstep.stored hreq hs
    exact ⟨⟨(Node.exec_id hex).trans hn.1, hk.1⟩, hk.2, fun _ _ _ => trivial,
      fun s hs => ⟨chained_sent hk.1 ((Node.exec_sends hex).sent s hs), trivial⟩,
      fun _ _ _ _ => trivial⟩
  read _ _ _ _ _ _ _ hreq := ⟨by rw [hreq]; trivial, trivial⟩

end Raft
end DistKV
