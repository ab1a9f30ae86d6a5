import Mathlib.Tactic.IntervalCases
import DistKV.Lib.TermLogSafety
import DistKV.Raft.Durable

/-!
# A follower beside a leader's log

What `HandleAppendEntries` makes of requests that were cut from one log, in whatever order and
however often they arrive, and whatever the storage does. The log is given by index (`W index` is the
entry, if the log still has one): for a leader's whole history that is a list, for a leader that
has compacted its log it is what the slice holds.

Two facts carry the argument. The entries a request steps over are the log's own, by log matching, so
a follower that accepts a request agrees with the log up to where it appends. And an entry that
agrees is stepped over, so nothing a request appends can lie below what agrees already.
-/

namespace DistKV
namespace Raft

open Run (IsRun)

/-! ## Agreement -/

/-- Up to `m` the storage has what the log has, as far as both go back. -/
def Agrees (W : Nat → Option Entry) (s : DiskStorage) (m : Nat) : Prop :=
  ∀ index x, s.snapIndex < index → index ≤ m → W index = some x → s.entryAt index = some x

/-- Log matching: an entry of the same index and term is preceded by the same entries. -/
def Matches (W : Nat → Option Entry) (s : DiskStorage) : Prop :=
  ∀ index e x, s.entryAt index = some e → W index = some x → x.term = e.term → Agrees W s index

/-- The request was cut from the log. -/
structure CutFrom (W : Nat → Option Entry) (req : AppendEntriesRequest) : Prop where
  /-- The log has the previous entry, or nothing up to there. -/
  base : ∀ index x, index ≤ req.prevLogIndex → W index = some x →
    ∃ e, W req.prevLogIndex = some e ∧ e.term = req.prevLogTerm
  entries : ∀ (k : Nat) e, req.entries[k]? = some e → W (req.prevLogIndex + 1 + k) = some e

section Store

variable {W : Nat → Option Entry} {s : DiskStorage} {req : AppendEntriesRequest}

theorem Agrees.below {m m' : Nat} (h : Agrees W s m) (hle : m' ≤ m) : Agrees W s m' :=
  fun index x hlow hhigh hx => h index x hlow (Nat.le_trans hhigh hle) hx

theorem termAt_entryAt (hs : Chain s.snapIndex s.log) {index : Nat} (h : s.snapIndex < index) :
    s.termAt index = (s.entryAt index).map (·.term) := by
  rw [termAt_above hs h, entryAt_above h]

theorem entryAt_le (hs : Chain s.snapIndex s.log) {index : Nat} {e : Entry}
    (h : s.entryAt index = some e) : s.snapIndex < index ∧ index ≤ s.lastIndex := by
  have hlow : s.snapIndex < index := by
    by_contra hle
    have hbelow : index < s.firstIndex := Nat.lt_succ_of_le (Nat.le_of_not_lt hle)
    rw [DiskStorage.entryAt, if_pos hbelow] at h
    cases h
  rw [entryAt_above hlow] at h
  have hlt := (List.getElem?_eq_some_iff.mp h).1
  rw [lastIndex_of_chain hs]
  exact ⟨hlow, by omega⟩

theorem snapIndex_le_lastIndex (hs : Chain s.snapIndex s.log) : s.snapIndex ≤ s.lastIndex := by
  rw [lastIndex_of_chain hs]
  exact Nat.le_add_right _ _

/-- An accepted previous entry is the log's. -/
theorem Matches.prev (hm : Matches W s) (hs : Chain s.snapIndex s.log) (hcut : CutFrom W req)
    (hprev : s.snapIndex < req.prevLogIndex → s.termAt req.prevLogIndex = some req.prevLogTerm) :
    Agrees W s req.prevLogIndex := by
  intro index x hlow hhigh hx
  have hlt := Nat.lt_of_lt_of_le hlow hhigh
  have hterm := hprev hlt
  rw [termAt_entryAt hs hlt, Option.map_eq_some_iff] at hterm
  obtain ⟨e, he, heq⟩ := hterm
  obtain ⟨y, hy, hyterm⟩ := hcut.base index x hhigh hx
  exact hm _ e y he hy (hyterm.trans heq.symm) index x hlow hhigh hx

/-- An entry that is stepped over is the log's, unless the snapshot covers it. -/
theorem Matches.has (hm : Matches W s) (hs : Chain s.snapIndex s.log) {e : Entry}
    (hW : W e.index = some e) (hhas : Node.alreadyHas s e = true) :
    Agrees W s e.index ∧ e.index ≤ s.lastIndex := by
  rw [Node.alreadyHas, Bool.or_eq_true, decide_eq_true_iff, Bool.and_eq_true, decide_eq_true_iff,
    decide_eq_true_iff] at hhas
  rcases hhas with hle | ⟨hlast, hterm⟩
  · exact ⟨fun index x hlow hhigh => absurd (Nat.le_trans hhigh hle) (Nat.not_le_of_lt hlow),
      Nat.le_trans hle (snapIndex_le_lastIndex hs)⟩
  refine ⟨?_, hlast⟩
  rcases Nat.lt_or_ge s.snapIndex e.index with hlt | hge
  swap
  · exact fun index x hlow hhigh => absurd (Nat.le_trans hhigh hge) (Nat.not_le_of_lt hlow)
  have hpos : e.index - s.snapIndex - 1 < s.log.length := by
    rw [lastIndex_of_chain hs] at hlast
    omega
  have hy : s.entryAt e.index = some (s.log.get ⟨_, hpos⟩) := by
    rw [entryAt_above hlt]
    exact List.getElem?_eq_getElem hpos
  refine hm e.index _ e hy hW ?_
  rw [termAt_entryAt hs hlt, hy] at hterm
  exact hterm.symm

/-- What agrees is stepped over. -/
theorem Agrees.has (hs : Chain s.snapIndex s.log) {m : Nat} (h : Agrees W s m) {e : Entry}
    (hW : W e.index = some e) (hle : e.index ≤ m) : Node.alreadyHas s e = true := by
  rw [Node.alreadyHas, Bool.or_eq_true, decide_eq_true_iff, Bool.and_eq_true, decide_eq_true_iff,
    decide_eq_true_iff]
  rcases Nat.lt_or_ge s.snapIndex e.index with hlt | hge
  · have he := h e.index e hlt hle hW
    refine .inr ⟨(entryAt_le hs he).2, ?_⟩
    rw [termAt_entryAt hs hlt, he]
    rfl
  · exact .inl hge

/-- Where the entries of a request stop being there already. -/
theorem CutFrom.split (hcut : CutFrom W req) (hW : ∀ index e, W index = some e → e.index = index)
    (hm : Matches W s) (hs : Chain s.snapIndex s.log)
    (hreach : req.prevLogIndex ≤ s.lastIndex)
    (hprev : s.snapIndex < req.prevLogIndex → s.termAt req.prevLogIndex = some req.prevLogTerm) :
    ∃ m, m = req.prevLogIndex + (req.entries.takeWhile (Node.alreadyHas s)).length ∧
      Agrees W s m ∧ m ≤ s.lastIndex := by
  refine ⟨_, rfl, ?_⟩
  -- each entry that is stepped over agrees up to its own index
  have hhad : ∀ (k : Nat) e, (req.entries.takeWhile (Node.alreadyHas s))[k]? = some e →
      Agrees W s (req.prevLogIndex + 1 + k) ∧ req.prevLogIndex + 1 + k ≤ s.lastIndex := by
    intro k e he
    have hin : req.entries[k]? = some e :=
      TermLog.getElem?_mono (List.takeWhile_prefix _) he
    have hWe := hcut.entries k e hin
    have hindex := hW _ e hWe
    rw [← hindex] at hWe ⊢
    exact hm.has hs hWe (List.mem_takeWhile_imp (List.mem_of_getElem? he))
  rcases Nat.eq_zero_or_pos (req.entries.takeWhile (Node.alreadyHas s)).length with hzero | hpos
  · rw [hzero, Nat.add_zero]
    exact ⟨hm.prev hs hcut hprev, hreach⟩
  · obtain ⟨k, hk⟩ : ∃ k, (req.entries.takeWhile (Node.alreadyHas s)).length = k + 1 :=
      ⟨_, (Nat.succ_pred_eq_of_pos hpos).symm⟩
    have hlast := hhad k _ (List.getElem?_eq_getElem (by omega))
    rw [hk]
    have hsum : req.prevLogIndex + (k + 1) = req.prevLogIndex + 1 + k := by omega
    rw [hsum]
    exact hlast

/-! ## Writing -/

/-- However many of the appends fail. -/
theorem appendLoop_log (s : DiskStorage) (es : List Entry) :
    ∃ j, (s.appendLoop es).1.log = s.log ++ es.take j := by
  induction es generalizing s with
  | nil => exact ⟨0, (List.append_nil _).symm⟩
  | cons e es ih =>
    rw [DiskStorage.appendLoop, andThen]
    split
    · obtain ⟨j, hj⟩ := ih { (s.onDisk (·.append (.append e))).1 with
        log := (s.onDisk (·.append (.append e))).1.log ++ [e] }
      refine ⟨j + 1, hj.trans ?_⟩
      rw [List.take_succ_cons]
      exact List.append_assoc _ _ _
    · exact ⟨0, (List.append_nil _).symm⟩

theorem appendEntries_log (s : DiskStorage) (e : Entry) (es : List Entry) :
    (s.appendEntries (e :: es)).1.log = s.log ∨
      ∃ j, (s.appendEntries (e :: es)).1.log = truncateFrom s.log e.index ++ (e :: es).take j := by
  rw [DiskStorage.appendEntries]
  cases ht : (s.truncateConflict e.index).2 with
  | false =>
    refine .inl ?_
    rw [andThen, if_neg (by rw [ht]; exact Bool.false_ne_true)]
    -- the record could not be written, so nothing is cut
    rw [DiskStorage.truncateConflict] at ht ⊢
    split at ht
    · next x hx =>
      split at ht
      · next hge =>
        simp only [if_pos hge]
        rw [andThen] at ht ⊢
        split at ht
        · cases ht
        · next hfail =>
          rw [if_neg hfail]
          rfl
      · cases ht
    · cases ht
  | true =>
    refine .inr ?_
    rw [andThen, if_pos ht, ← truncateConflict_ok ht]
    obtain ⟨j, hj⟩ := appendLoop_log (s.truncateConflict e.index).1 (e :: es)
    exact ⟨j, andThen_ind (P := fun s' : DiskStorage => s'.log = _) hj fun _ => hj⟩

/-- What `storeEntries` leaves of the log. -/
theorem storeEntries_log (s : DiskStorage) (entries : List Entry) :
    (Node.storeEntries s entries).1.log = s.log ∧ ((Node.storeEntries s entries).2 = true →
        entries.dropWhile (Node.alreadyHas s) = []) ∨
      ∃ e es j, entries.dropWhile (Node.alreadyHas s) = e :: es ∧
        (Node.storeEntries s entries).1.log = truncateFrom s.log e.index ++ (e :: es).take j ∧
        ((Node.storeEntries s entries).2 = true → (e :: es).length ≤ j) := by
  cases hdrop : entries.dropWhile (Node.alreadyHas s) with
  | nil =>
    refine .inl ⟨?_, fun _ => rfl⟩
    simp [Node.storeEntries, hdrop]
  | cons e es =>
    have hstore : (Node.storeEntries s entries).1.log = (s.appendEntries (e :: es)).1.log := by
      simp only [Node.storeEntries, hdrop, List.length_cons, gt_iff_lt, Nat.zero_lt_succ, if_true]
      exact andThen_ind (P := fun s' : DiskStorage => s'.log = _) rfl fun _ => sync_log
    by_cases hok : (Node.storeEntries s entries).2 = true
    · rcases storeEntries_ok hok with ⟨hall, -⟩ | ⟨-, -, -, e', es', hdrop', hlog⟩
      · cases hdrop.symm.trans (List.dropWhile_eq_nil_iff.mpr (List.all_eq_true.mp hall))
      · obtain ⟨rfl, rfl⟩ := List.cons.inj (hdrop.symm.trans hdrop')
        exact .inr ⟨e, es, (e :: es).length, rfl, by rw [List.take_length]; exact hlog,
          fun _ => Nat.le_refl _⟩
    · rw [hstore]
      rcases appendEntries_log s e es with hsame | ⟨j, hj⟩
      · exact .inl ⟨hsame, fun h => absurd h hok⟩
      · exact .inr ⟨e, es, j, rfl, hj, fun h => absurd h hok⟩

/-- Two storages with the same log above the same snapshot. -/
structure SameLog (s s' : DiskStorage) : Prop where
  snapIndex : s'.snapIndex = s.snapIndex
  log : s'.log = s.log

section SameLog

variable {s' : DiskStorage} (h : SameLog s s')
include h

theorem SameLog.chain (hs : Chain s.snapIndex s.log) : Chain s'.snapIndex s'.log := by
  rw [h.snapIndex, h.log]
  exact hs

theorem SameLog.entryAt (index : Nat) : s'.entryAt index = s.entryAt index := by
  rw [DiskStorage.entryAt, DiskStorage.entryAt, DiskStorage.firstIndex, DiskStorage.firstIndex,
    h.snapIndex, h.log]

theorem SameLog.lastIndex : s'.lastIndex = s.lastIndex := by
  rw [DiskStorage.lastIndex, DiskStorage.lastIndex, h.snapIndex, h.log]

theorem SameLog.agrees {m : Nat} (ha : Agrees W s m) : Agrees W s' m := by
  intro index x hlow hhigh hx
  rw [h.entryAt]
  exact ha index x (h.snapIndex ▸ hlow) hhigh hx

theorem SameLog.matches (hm : Matches W s) : Matches W s' := by
  intro index e x he hx hterm
  rw [h.entryAt] at he
  exact h.agrees (hm index e x he hx hterm)

end SameLog

/-- A log that agrees up to where it was cut and goes on with entries of `W` agrees throughout. -/
theorem agrees_overwrite {s' : DiskStorage} (hs : Chain s.snapIndex s.log)
    (hsnap : s'.snapIndex = s.snapIndex) {m j : Nat} {new : List Entry}
    (hlow : s.snapIndex ≤ m) (hm : m ≤ s.lastIndex)
    (hlog : s'.log = truncateFrom s.log (m + 1) ++ new.take j)
    (hW : ∀ index e, W index = some e → e.index = index)
    (hnew : ∀ (k : Nat) e, new[k]? = some e → W (m + 1 + k) = some e) (hagree : Agrees W s m) :
    Chain s'.snapIndex s'.log ∧ s'.lastIndex = m + (new.take j).length ∧
      ∀ m', m' ≤ s'.lastIndex → Agrees W s' m' := by
  have hfront : truncateFrom s.log (m + 1) = s.log.take (m - s.snapIndex) := by
    rw [hs.truncateFrom]
    congr 1
    omega
  have hlen : (s.log.take (m - s.snapIndex)).length = m - s.snapIndex := by
    rw [lastIndex_of_chain hs] at hm
    rw [List.length_take]
    omega
  rw [hfront] at hlog
  have hold : ∀ k, k < m - s.snapIndex → s'.log[k]? = s.log[k]? := by
    intro k hk
    rw [hlog, List.getElem?_append_left (by rw [hlen]; exact hk), List.getElem?_take_of_lt hk]
  have hadded : ∀ (k : Nat) e, m - s.snapIndex ≤ k → s'.log[k]? = some e →
      new[k - (m - s.snapIndex)]? = some e := by
    intro k e hk he
    rw [hlog, List.getElem?_append_right (by rw [hlen]; exact hk), hlen] at he
    exact TermLog.getElem?_mono (List.take_prefix _ _) he
  have hchain : Chain s'.snapIndex s'.log := by
    intro k e he
    rw [hsnap]
    rcases Nat.lt_or_ge k (m - s.snapIndex) with hk | hk
    · rw [hold k hk] at he
      exact hs k e he
    · have hindex := hW _ e (hnew _ e (hadded k e hk he))
      omega
  have hend : s'.lastIndex = m + (new.take j).length := by
    rw [lastIndex_of_chain hchain, hsnap, hlog, List.length_append, hlen]
    omega
  refine ⟨hchain, hend, fun m' hm' index x hlow' hhigh hx => ?_⟩
  rw [hsnap] at hlow'
  rw [entryAt_above (by rw [hsnap]; exact hlow'), hsnap]
  rcases Nat.lt_or_ge (index - s.snapIndex - 1) (m - s.snapIndex) with hk | hk
  · rw [hold _ hk, ← entryAt_above hlow']
    exact hagree index x hlow' (by omega) hx
  · -- the entry is one of the new ones
    have hlt : index - s.snapIndex - 1 < s'.log.length := by
      have hlast := Nat.le_trans hhigh hm'
      rw [lastIndex_of_chain hchain, hsnap] at hlast
      omega
    have hget := List.getElem?_eq_getElem hlt
    have hadd := hnew _ _ (hadded _ _ hk hget)
    have hplace : m + 1 + (index - s.snapIndex - 1 - (m - s.snapIndex)) = index := by omega
    rw [hplace, hx] at hadd
    rw [hget, ← hadd]

/-- **One request, on the storage.** If the previous entry is accepted, log matching is kept, what
    agreed before agrees after, and if nothing fails the storage agrees up to the end of the
    request. -/
theorem CutFrom.storeEntries (hcut : CutFrom W req)
    (hW : ∀ index e, W index = some e → e.index = index)
    (hm : Matches W s) (hs : Chain s.snapIndex s.log)
    (hreach : req.prevLogIndex ≤ s.lastIndex)
    (hprev : s.snapIndex < req.prevLogIndex → s.termAt req.prevLogIndex = some req.prevLogTerm)
    {s' : DiskStorage} {ok : Bool} (hstore : Node.storeEntries s req.entries = (s', ok)) :
    Chain s'.snapIndex s'.log ∧ Matches W s' ∧
      (ok = true → Agrees W s' (req.prevLogIndex + req.entries.length) ∧
        req.prevLogIndex + req.entries.length ≤ s'.lastIndex) ∧
      ∀ m, Agrees W s m → m ≤ s.lastIndex → Agrees W s' m ∧ m ≤ s'.lastIndex := by
  have hsnap : s'.snapIndex = s.snapIndex := by
    have h := storeEntries_snapIndex s req.entries
    rwa [hstore] at h
  have hlog := storeEntries_log s req.entries
  rw [hstore] at hlog
  obtain ⟨m₀, hm₀, hagree, hlast⟩ := hcut.split hW hm hs hreach hprev
  have hsplit : req.entries.takeWhile (Node.alreadyHas s) ++
      req.entries.dropWhile (Node.alreadyHas s) = req.entries := List.takeWhile_append_dropWhile
  have hlength := congrArg List.length hsplit
  rw [List.length_append] at hlength
  generalize req.entries.takeWhile (Node.alreadyHas s) = had at hm₀ hsplit hlength
  rcases hlog with ⟨hsame, hall⟩ | ⟨e, es, j, hdrop, hnew, hall⟩
  · -- the log is as it was
    have hlogs : SameLog s s' := ⟨hsnap, hsame⟩
    refine ⟨hlogs.chain hs, hlogs.matches hm, fun hok => ?_, fun m hagm hle =>
      ⟨hlogs.agrees hagm, by rw [hlogs.lastIndex]; exact hle⟩⟩
    rw [hall hok, List.length_nil, Nat.add_zero] at hlength
    rw [← hlength, ← hm₀, hlogs.lastIndex]
    exact ⟨hlogs.agrees hagree, hlast⟩
  · -- it is cut at the first entry that is not there, and goes on with the request
    rw [hdrop] at hsplit hlength
    have hnewW : ∀ (k : Nat) x, (e :: es)[k]? = some x → W (m₀ + 1 + k) = some x := by
      intro k x hx
      have hplace : m₀ + 1 + k = req.prevLogIndex + 1 + (had.length + k) := by omega
      rw [hplace]
      refine hcut.entries _ x ?_
      rw [← hsplit, List.getElem?_append_right (Nat.le_add_right _ _), Nat.add_sub_cancel_left]
      exact hx
    have hWe : W (m₀ + 1) = some e := hnewW 0 e rfl
    have hindex : e.index = m₀ + 1 := hW _ e hWe
    have hmissing : Node.alreadyHas s e = false := by
      have hhead := List.head?_dropWhile_not (Node.alreadyHas s) req.entries
      rw [hdrop] at hhead
      exact hhead
    have habove : s.snapIndex < m₀ + 1 := by
      by_contra hle
      rw [Node.alreadyHas, hindex, decide_eq_true (Nat.le_of_not_lt hle)] at hmissing
      cases hmissing
    rw [hindex] at hnew
    obtain ⟨hchain, hend, hagrees⟩ :=
      agrees_overwrite hs hsnap (Nat.le_of_lt_succ habove) hlast hnew hW hnewW hagree
    refine ⟨hchain, fun index x y hx hy _ => hagrees index (entryAt_le hchain hx).2, fun hok => ?_,
      fun m hagm hle => ?_⟩
    · have hreachEnd : req.prevLogIndex + req.entries.length ≤ s'.lastIndex := by
        rw [hend, List.take_of_length_le (hall hok)]
        omega
      exact ⟨hagrees _ hreachEnd, hreachEnd⟩
    · -- what agrees would have been stepped over
      have hbelow : m ≤ m₀ := by
        by_contra hlt
        have hhas := hagm.has hs (hindex.symm ▸ hWe) (by rw [hindex]; exact Nat.lt_of_not_le hlt)
        rw [hmissing] at hhas
        cases hhas
      have hend' : m ≤ s'.lastIndex := by
        rw [hend]
        exact Nat.le_trans hbelow (Nat.le_add_right _ _)
      exact ⟨hagrees m hend', hend'⟩

end Store

/-! ## The handler -/

/-- What `HandleAppendEntries` does once it follows the sender. -/
inductive Appends (f : Node) (req : AppendEntriesRequest) : Node × AppendEntriesResponse → Prop
  | beyond (short : f.store.lastIndex < req.prevLogIndex) : Appends f req
      (f, { term := f.store.term, conflictIndex := f.store.lastIndex + 1 })
  | missing (above : f.store.snapIndex ≤ req.prevLogIndex)
      (reaches : req.prevLogIndex ≤ f.store.lastIndex)
      (none : f.store.termAt req.prevLogIndex = none) : Appends f req
      (f, { term := f.store.term, conflictIndex := f.store.firstIndex })
  | conflict (t : Nat) (above : f.store.snapIndex ≤ req.prevLogIndex)
      (reaches : req.prevLogIndex ≤ f.store.lastIndex)
      (held : f.store.termAt req.prevLogIndex = some t) (other : t ≠ req.prevLogTerm) :
      Appends f req (f,
        { term := f.store.term, conflictTerm := t
          conflictIndex := Node.conflictStart f.store t req.prevLogIndex })
  | accept (reaches : req.prevLogIndex ≤ f.store.lastIndex)
      (same : f.store.snapIndex ≤ req.prevLogIndex →
        f.store.termAt req.prevLogIndex = some req.prevLogTerm) :
      Appends f req (f.acceptEntries req { term := f.store.term })

theorem handleAppendEntries_cases {n : Node} {req : AppendEntriesRequest}
    (h : n.store.term ≤ req.term) :
    Appends (n.follow req.term req.leaderId) req (n.handleAppendEntries req) := by
  rw [Node.handleAppendEntries, if_neg (Nat.not_lt_of_le h)]
  simp only
  split
  · next hshort => exact .beyond hshort
  next hreach =>
  have hreaches := Nat.le_of_not_lt hreach
  split
  · next hin =>
    have habove : (n.follow req.term req.leaderId).store.snapIndex ≤ req.prevLogIndex := by
      rcases hin with hge | heq
      · exact Nat.le_of_lt hge
      · exact Nat.le_of_eq heq.symm
    split
    · next hnone => exact .missing habove hreaches hnone
    next t ht =>
    split
    · next hne => exact .conflict t habove hreaches ht hne
    · next heq =>
      refine .accept hreaches fun _ => ?_
      rw [ht, not_not.mp heq]
  · next hout =>
    refine .accept hreaches fun habove => absurd ?_ hout
    rcases Nat.lt_or_eq_of_le habove with hlt | heq
    · exact .inl hlt
    · exact .inr heq.symm

/-- The entries go to the storage; success and `commitIndex` depend on how that went. -/
theorem acceptEntries_spec (f : Node) (req : AppendEntriesRequest) (term : Nat) :
    (f.acceptEntries req { term := term }).1.store = (Node.storeEntries f.store req.entries).1 ∧
    (f.acceptEntries req { term := term }).2.success = (Node.storeEntries f.store req.entries).2 ∧
    ((f.acceptEntries req { term := term }).1.commitIndex = f.commitIndex ∨
      (Node.storeEntries f.store req.entries).2 = true ∧
      (f.acceptEntries req { term := term }).1.commitIndex =
        min req.leaderCommit (max (req.prevLogIndex + req.entries.length) f.commitIndex)) := by
  rw [Node.acceptEntries]
  cases hok : (Node.storeEntries f.store req.entries).2 with
  | false => simp
  | true =>
    simp only [Bool.not_true, Bool.false_eq_true, if_false, true_and]
    split
    · exact ⟨rfl, .inr rfl⟩
    · exact ⟨rfl, .inl rfl⟩

theorem setHardState_sameLog (s : DiskStorage) (term votedFor : Nat) :
    SameLog s (s.setHardState term votedFor).1 := by
  rw [DiskStorage.setHardState]
  exact andThen_ind (P := SameLog s) ⟨rfl, rfl⟩ fun _ => ⟨rfl, rfl⟩

theorem follow_sameLog (n : Node) (term leaderId : Nat) :
    SameLog n.store (n.follow term leaderId).store := by
  rw [Node.follow_disk]
  split
  · exact setHardState_sameLog _ _ _
  · exact ⟨rfl, rfl⟩

theorem storeEntries_term (s : DiskStorage) (es : List Entry) :
    (Node.storeEntries s es).1.term = s.term := by
  simp only [Node.storeEntries]
  split
  · refine andThen_ind (P := fun s' : DiskStorage => s'.term = s.term)
      (appendEntries_head _).term fun _ => ?_
    exact sync_head.term.trans (appendEntries_head _).term
  · rfl

/-- The follower is in a state that requests cut from `W` keep. -/
structure Beside (W : Nat → Option Entry) (s : DiskStorage) : Prop where
  chain : Chain s.snapIndex s.log
  matching : Matches W s

theorem Beside.same {W : Nat → Option Entry} {s s' : DiskStorage} (h : Beside W s)
    (hsame : SameLog s s') : Beside W s' :=
  ⟨hsame.chain h.chain, hsame.matches h.matching⟩

/-- What a request does to a follower beside `W`. -/
structure Carries (W : Nat → Option Entry) (n : Node) (req : AppendEntriesRequest) (m : Node)
    (success : Bool) : Prop where
  beside : Beside W m.store
  term : m.store.term = req.term
  reached : success = true → Agrees W m.store (req.prevLogIndex + req.entries.length) ∧
    req.prevLogIndex + req.entries.length ≤ m.store.lastIndex
  kept : ∀ index, Agrees W n.store index → index ≤ n.store.lastIndex →
    Agrees W m.store index ∧ index ≤ m.store.lastIndex
  commit : n.commitIndex < m.commitIndex → success = true ∧
    m.commitIndex ≤ req.prevLogIndex + req.entries.length

/-- **One request, on the node.** -/
theorem Beside.handleAppendEntries {W : Nat → Option Entry} {n : Node} {req : AppendEntriesRequest}
    (h : Beside W n.store) (hW : ∀ index e, W index = some e → e.index = index)
    (hcut : CutFrom W req) (hterm : n.store.term ≤ req.term) :
    Carries W n req (n.handleAppendEntries req).1 (n.handleAppendEntries req).2.success := by
  have hsame := follow_sameLog n req.term req.leaderId
  have hbeside := h.same hsame
  have hfterm := Node.follow_term (n := n) req.leaderId hterm
  have hfcommit := Node.follow_commitIndex (n := n) req.term req.leaderId
  -- a request that is turned down changes nothing that matters
  have hrejected : Carries W n req (n.follow req.term req.leaderId) false := by
    refine ⟨hbeside, hfterm, by simp, fun index hagree hle =>
      ⟨hsame.agrees hagree, by rw [hsame.lastIndex]; exact hle⟩, fun hlt => ?_⟩
    rw [hfcommit] at hlt
    exact absurd hlt (Nat.lt_irrefl _)
  have hcases := handleAppendEntries_cases (n := n) hterm
  generalize n.handleAppendEntries req = r at hcases ⊢
  cases hcases with
  | beyond short => exact hrejected
  | missing above reaches none => exact hrejected
  | conflict t above reaches held other => exact hrejected
  | accept reaches same =>
    generalize n.follow req.term req.leaderId = f at *
    obtain ⟨hstore, hok, hcommit⟩ := acceptEntries_spec f req f.store.term
    generalize f.acceptEntries req { term := f.store.term } = r at *
    obtain ⟨hchain, hmatch, hreached, hkept⟩ := hcut.storeEntries hW hbeside.matching hbeside.chain
      reaches (fun hlt => same (Nat.le_of_lt hlt)) Prod.mk.eta.symm
    rw [← hstore] at hchain hmatch hreached hkept
    refine ⟨⟨hchain, hmatch⟩, ?_, fun hyes => hreached (hok ▸ hyes), fun index hagree hle => ?_,
      fun hlt => ?_⟩
    · rw [hstore, storeEntries_term]
      exact hfterm
    · exact hkept index (hsame.agrees hagree) (by rw [hsame.lastIndex]; exact hle)
    · rcases hcommit with hstay | ⟨hyes, hraised⟩
      · rw [hstay, hfcommit] at hlt
        exact absurd hlt (Nat.lt_irrefl _)
      · refine ⟨hok.trans hyes, ?_⟩
        rw [hraised, hfcommit] at hlt ⊢
        omega

/-! ## Runs -/

/-- The entry at `index` of a log that starts at index 1. -/
def logAt (L : List Entry) (index : Nat) : Option Entry := if index = 0 then none else L[index - 1]?

/-- The request carries a run of entries of `L` and the term of the entry before it. -/
structure AppendEntriesRequest.Of (L : List Entry) (req : AppendEntriesRequest) : Prop where
  prev : req.prevLogIndex ≤ L.length
  prevTerm : req.prevLogTerm = ((logAt L req.prevLogIndex).map (·.term)).getD 0
  entries : req.entries <+: L.drop req.prevLogIndex

section Log

variable {L : List Entry}

theorem logAt_isSome {index : Nat} (hpos : 0 < index) (hle : index ≤ L.length) :
    ∃ e, logAt L index = some e := by
  rw [logAt, if_neg (Nat.ne_of_gt hpos)]
  exact ⟨_, List.getElem?_eq_getElem (by omega)⟩

theorem logAt_index (hL : Chain 0 L) (index : Nat) (e : Entry) (h : logAt L index = some e) :
    e.index = index := by
  rw [logAt] at h
  split at h
  · cases h
  · have := hL _ e h
    omega

theorem AppendEntriesRequest.Of.cutFrom {req : AppendEntriesRequest}
    (h : AppendEntriesRequest.Of L req) : CutFrom (logAt L) req where
  base index x hle hx := by
    have hpos : 0 < index := by
      rcases Nat.eq_zero_or_pos index with rfl | hpos
      · cases hx
      · exact hpos
    obtain ⟨e, he⟩ := logAt_isSome (L := L) (Nat.lt_of_lt_of_le hpos hle) h.prev
    refine ⟨e, he, ?_⟩
    rw [h.prevTerm, he]
    rfl
  entries k e he := by
    have hin := TermLog.getElem?_mono h.entries he
    rw [List.getElem?_drop] at hin
    rw [logAt, if_neg (by omega), ← hin]
    congr 1
    omega

theorem AppendEntriesRequest.Of.end_le {req : AppendEntriesRequest}
    (h : AppendEntriesRequest.Of L req) :
    req.prevLogIndex + req.entries.length ≤ L.length := by
  have hlen := h.entries.length_le
  rw [List.length_drop] at hlen
  have hprev := h.prev
  omega

end Log

/-- One AppendEntries request arrives; the list says which file operations fail. -/
def deliverAppend (n : Node) (a : AppendEntriesRequest × List Bool) : Option Node :=
  some ((n.withFaults a.2).handleAppendEntries a.1).1

/-- **AppendEntries under duplication and reordering.** `L` is the log of the leader of term `T`, and a
    node of that term matches it. However requests that were cut from `L` arrive, and whatever the
    storage does: once a request that ends at index `m` has succeeded, the node has the entries of
    `L` above its snapshot up to `m` from then on, and `commitIndex` is raised only to where the node
    has them. -/
theorem append_entries_safe (L : List Entry) (T : Nat) (n : Node) (σ : Nat → Node)
    (α : Nat → Option (AppendEntriesRequest × List Bool)) (hL : Chain 0 L)
    (hrun : IsRun deliverAppend n σ α) (hterm : n.store.term = T)
    (hchain : Chain n.store.snapIndex n.store.log) (hmatch : Matches (logAt L) n.store)
    (hreq : ∀ k a, α k = some a → a.1.term = T ∧ AppendEntriesRequest.Of L a.1)
    (k : Nat) (req : AppendEntriesRequest) (faults : List Bool) (hk : α k = some (req, faults)) :
    ((((σ k).withFaults faults).handleAppendEntries req).2.success = true → ∀ j, k < j →
      req.prevLogIndex + req.entries.length ≤ (σ j).store.lastIndex ∧
      ∀ index, (σ j).store.snapIndex < index → index ≤ req.prevLogIndex + req.entries.length →
        ∃ e, (σ j).store.entryAt index = some e ∧ logAt L index = some e) ∧
    ((σ k).commitIndex < (σ (k + 1)).commitIndex →
      (σ (k + 1)).commitIndex ≤ (σ (k + 1)).store.lastIndex ∧
      ∀ index, (σ (k + 1)).store.snapIndex < index → index ≤ (σ (k + 1)).commitIndex →
        ∃ e, (σ (k + 1)).store.entryAt index = some e ∧ logAt L index = some e) := by
  have hW := logAt_index hL
  have hnext : ∀ {k req faults}, α k = some (req, faults) →
      ((σ k).withFaults faults).handleAppendEntries req =
        (σ (k + 1), (((σ k).withFaults faults).handleAppendEntries req).2) := by
    intro k req faults ha
    exact Prod.ext (Option.some.inj (hrun.next k _ ha)) rfl
  -- one request at a node that is beside `L`
  have hone : ∀ {k req faults}, α k = some (req, faults) → Beside (logAt L) (σ k).store →
      (σ k).store.term = T → Carries (logAt L) (σ k) req (σ (k + 1))
        (((σ k).withFaults faults).handleAppendEntries req).2.success := by
    intro k req faults ha hbeside hT
    obtain ⟨hreqT, hof⟩ := hreq k _ ha
    have hcarry := Beside.handleAppendEntries (n := (σ k).withFaults faults)
      (hbeside.same ⟨rfl, rfl⟩) hW hof.cutFrom (Nat.le_of_eq (hT.trans hreqT.symm))
    have hsame : SameLog (σ k).store ((σ k).withFaults faults).store := ⟨rfl, rfl⟩
    rw [congrArg Prod.fst (hnext ha)] at hcarry
    exact ⟨hcarry.beside, hcarry.term, hcarry.reached,
      fun index hagree hle => hcarry.kept index (hsame.agrees hagree) hle, hcarry.commit⟩
  have hall : ∀ k, Beside (logAt L) (σ k).store ∧ (σ k).store.term = T := by
    refine hrun.invariant (P := fun n => Beside (logAt L) n.store ∧ n.store.term = T)
      ⟨⟨hchain, hmatch⟩, hterm⟩ fun k a ha h => ?_
    have hcarry := hone ha h.1 h.2
    exact ⟨hcarry.beside, hcarry.term.trans (hreq k a ha).1⟩
  -- agreement up to an index of `L` gives the entries
  have hentries : ∀ {s : DiskStorage} {m}, Agrees (logAt L) s m → m ≤ L.length →
      ∀ index, s.snapIndex < index → index ≤ m →
        ∃ e, s.entryAt index = some e ∧ logAt L index = some e := by
    intro s m hagree hm index hlow hhigh
    obtain ⟨e, he⟩ := logAt_isSome (L := L) (Nat.lt_of_le_of_lt (Nat.zero_le _) hlow)
      (Nat.le_trans hhigh hm)
    exact ⟨e, hagree index e hlow hhigh he, he⟩
  have hend := (hreq k _ hk).2.end_le
  have hcarry := hone hk (hall k).1 (hall k).2
  constructor
  · intro hyes j hj
    have hkept := hrun.invariant_from
      (P := fun n => Agrees (logAt L) n.store (req.prevLogIndex + req.entries.length) ∧
        req.prevLogIndex + req.entries.length ≤ n.store.lastIndex)
      (hcarry.reached hyes) (fun i a _ ha hagree =>
        (hone ha (hall i).1 (hall i).2).kept _ hagree.1 hagree.2) (Nat.succ_le_of_lt hj)
    exact ⟨hkept.2, hentries hkept.1 hend⟩
  · intro hlt
    obtain ⟨hyes, hle⟩ := hcarry.commit hlt
    obtain ⟨hagree, hlast⟩ := hcarry.reached hyes
    exact ⟨Nat.le_trans hle hlast, hentries (hagree.below hle) (Nat.le_trans hle hend)⟩

/-! ### A long request and a late short one -/

theorem chain_of_indices {b : Nat} {log : List Entry}
    (h : log.map (·.index) = List.range' (b + 1) log.length) : Chain b log := by
  intro k e he
  have hk := (List.getElem?_eq_some_iff.mp he).1
  have hmap : (log.map (·.index))[k]? = some e.index := by rw [List.getElem?_map, he]; rfl
  rw [h, List.getElem?_range' hk] at hmap
  have heq := Option.some.inj hmap
  omega

/-- The log of the leader of term 2. -/
def termTwoLog : List Entry :=
  [{ term := 1, index := 1 }, { term := 2, index := 2 }, { term := 2, index := 3 }]

/-- A follower that has kept an entry of term 1 at index 2. -/
def strayFollower : Node :=
  { id := 2
    store := { conf := .newConfState [1, 2, 3], term := 2,
               log := [{ term := 1, index := 1 }, { term := 1, index := 2 }] }
    conf := .newConfState [1, 2, 3] }

def longThenShort : List (AppendEntriesRequest × List Bool) :=
  [({ term := 2, leaderId := 1, prevLogIndex := 1, prevLogTerm := 1,
      entries := termTwoLog.drop 1, leaderCommit := 3 }, []),
    ({ term := 2, leaderId := 1, prevLogIndex := 0, prevLogTerm := 0,
       entries := termTwoLog.take 2, leaderCommit := 1 }, [])]

theorem strayFollower_matches : Matches (logAt termTwoLog) strayFollower.store := by
  intro index e x he hx hterm
  obtain ⟨hlow, hhigh⟩ := entryAt_le (chain_of_indices rfl) he
  have hpos : 0 < index := hlow
  have htwo : index ≤ 2 := hhigh
  interval_cases index
  · intro i y hlow' hhigh' hy
    have hone : i = 1 := Nat.le_antisymm hhigh' hlow'
    subst hone
    exact hy
  · cases he
    cases hx
    cases hterm

/-- The follower still has entry 3 when the short request comes late. -/
theorem append_entries_safe_stray : ∃ e,
    (((Run.after deliverAppend strayFollower longThenShort).getD strayFollower).store.entryAt 3) =
      some e ∧ logAt termTwoLog 3 = some e := by
  have hrun : IsRun deliverAppend strayFollower
      (fun k => (Run.after deliverAppend strayFollower (longThenShort.take k)).getD strayFollower)
      (fun k => longThenShort[k]?) := IsRun.ofList rfl
  have hof : ∀ a ∈ longThenShort, a.1.term = 2 ∧ a.1.prevLogIndex ≤ termTwoLog.length ∧
      a.1.prevLogTerm = ((logAt termTwoLog a.1.prevLogIndex).map (·.term)).getD 0 ∧
      a.1.entries <+: termTwoLog.drop a.1.prevLogIndex := by decide
  have hsafe := append_entries_safe termTwoLog 2 strayFollower _ _ (chain_of_indices rfl) hrun rfl
    (chain_of_indices rfl) strayFollower_matches
    (fun k a ha => by
      obtain ⟨h1, h2, h3, h4⟩ := hof a (List.mem_of_getElem? ha)
      exact ⟨h1, ⟨h2, h3, h4⟩⟩) 0 _ _ rfl
  exact (hsafe.1 (by decide) 2 (by decide)).2 3 (by decide) (by decide)

end Raft
end DistKV
