import DistKV.Raft.Membership

/-!
# Is the membership a function of the log?

The applier folds the committed changes into the node's configuration, one by one, and persists every
result. A snapshot, the one on disk and the one that is sent, carries the configuration the node has
now and the index it was compacted to, which is smaller. A node that starts from such a pair applies
the changes in between a second time, to a configuration that has them already: `reappliedChanges`
ends in the wrong one. In a run of careful actions that leads back: whoever has come to where they
were, or to where the sender of their snapshot was, has the fold of the log up to `lastApplied`.
-/

namespace DistKV
namespace Raft

open Run (IsRun)

section Tracked

variable {boot : ConfState} {cfg : Config} {c : Cluster} {r : Reach} {a : Ghost}
  {ver : Nat → List Entry} {L : Nat → Entry} {i : Nat}

/-- From where they have been before, the applier comes to what the log folds to. -/
theorem Tracked.confAt_fold (h : Tracked boot c r a ver) (hs : Sound cfg c)
    (hL : ∀ term P (m : Nat) e, TermLog.Settled a term P → P[m]? = some e → L (m + 1) = e) {l : Nat}
    (hreach : r.node i ≤ l) (hlow : (c.node i).lastApplied ≤ l) (hhigh : l ≤ (c.node i).commitIndex) :
    (c.node i).confAt l = foldConf boot L l := by
  obtain ⟨F, hF⟩ := h.front hs i
  have hlen := h.reach i
  obtain ⟨P, hP, hPlen, hresumes⟩ := (h.node i).conf.advance (h.node i).applied hlow
    (hF.length.symm ▸ hhigh) (h.refined.inv.settled_agree (h.version i) hF.settled)
  have hl : l = P.length := by omega
  have hPset : TermLog.Settled a (c.node i).store.term P := by
    rcases hP with rfl | hp
    · exact h.version i
    · exact hF.settled.restrict hp
  rw [List.drop_of_length_le (Nat.le_of_eq hl.symm), ← hF.confAt l hlow hhigh] at hresumes
  conv => rhs; rw [hl]
  rw [← after_eq_foldConf fun m e => hL _ P m e hPset]
  exact hresumes

end Tracked

end Raft
end DistKV
