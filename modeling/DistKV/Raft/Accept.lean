import DistKV.Raft.Simulate

/-!
# Sections that are followed by the ghost: snapshots and the log of a follower

The local `Snapshot` cuts the front off a log whose whole is still known to the ghost.
`HandleAppendEntries` skips what the node has and replaces the rest; abstractly that is one
`adopt` for every record that reaches the WAL. `HandleInstallSnapshot` either replaces the whole
log or leaves it as it is, and then the snapshot and the rest of the log may belong to different
histories: only where the node has the snapshot's last entry do they fit (`Fits`).
-/

namespace DistKV
namespace Raft

open TermLog (Settled lastTerm)

variable {q : Prop} {G : GhostGuard} {peers : List Nat} {a₀ a a' : Ghost} {i : Nat}
  {n : Node} {s : DiskStorage}

/-! ## Compaction -/

/-- If the snapshot fits the log, so does everything that is committed. -/
theorem Rel.committed_whole {v : View} (hi : GhostInv a) (h : Rel q a i v) {P : List Entry}
    (hP : Settled a v.term P) (hle : v.snapIndex ≤ P.length) (hlog : P.drop v.snapIndex <+: v.log)
    (hq : q) : P <+: a.log i := by
  obtain ⟨S, hS, hlen, -, hpre⟩ := h.snap
  have hSP : S <+: P := by
    rcases hi.settled_agree hS hP with hp | hp
    · exact hp
    · rw [hp.eq_of_length_le (by rw [hlen]; exact hle)]
  have hfront : P = S ++ P.drop v.snapIndex := by
    obtain ⟨R, rfl⟩ := hSP
    rw [← hlen, List.drop_left]
  have hwhole : a.log i = S ++ v.log := by
    obtain ⟨R, hR⟩ := hpre hq
    rw [← h.log, ← hlen, ← hR, List.drop_left]
  rw [hfront, hwhole]
  exact (List.prefix_append_right_inj S).mpr hlog

/-- A snapshot at a committed index stands for a settled prefix. -/
theorem Committed.compaction (hi : GhostInv a) (hrel : Rel q a i s.view) (hs : Stored s)
    {commitIndex : Nat} (h : Committed a commitIndex s.view) {index term : Nat}
    (hlt : s.snapIndex < index) (hle : index ≤ commitIndex) (hterm : s.termAt index = some term) :
    ∃ P, Settled a s.term P ∧ P.length = index ∧ lastTerm Entry.term P = term ∧
      (∃ e, (a.log i)[index - 1]? = some e ∧ e.term = term) ∧ (q → P <+: a.log i) := by
  obtain ⟨hsnap, P, hP, hlen, hlog⟩ := h
  obtain ⟨k, rfl⟩ : ∃ k, index = k + 1 := ⟨index - 1, by omega⟩
  rw [hrel.termAt_eq hs (Nat.le_of_lt_succ hlt), Option.map_eq_some_iff] at hterm
  obtain ⟨e, he, hcur⟩ := hterm
  have hPe : P[k]? = some e := by
    have hbound : k - s.snapIndex < (P.drop s.snapIndex).length := by
      rw [List.length_drop]
      omega
    have hview := hrel.entry (k - s.snapIndex)
    rw [Nat.add_sub_cancel' (Nat.le_of_lt_succ hlt)] at hview
    have hdrop := TermLog.getElem?_restrict hlog hbound (hview.symm.trans he)
    rwa [List.getElem?_drop, Nat.add_sub_cancel' (Nat.le_of_lt_succ hlt)] at hdrop
  refine ⟨P.take (k + 1), hP.restrict (List.take_prefix _ _), ?_, ?_, ⟨e, he, hcur⟩, fun hq => ?_⟩
  · rw [List.length_take]
    omega
  · rw [TermLog.lastTerm_take hPe, hcur]
  · exact (List.take_prefix _ _).trans
      (hrel.committed_whole hi hP (by rw [hlen]; exact hsnap) hlog hq)

/-- What a crash leaves of the log, where it matters: at least `d` entries, or as if. -/
theorem Simulates.cut (hi : GhostInv a₀) (h : Simulates q G peers a₀ a i n) (d : Nat)
    {p : List WalRecord} (hs : n.store.disk.files.synced <+: p)
    (hp : p <+: n.store.disk.files.records) :
    ∃ b m, GhostSteps G i a b ∧ d ≤ m ∧ b.log i = (a.log i).take (n.store.snapIndex + m) ∧
      Rel q b i { n.store.view with log := n.store.log.take m } ∧
      (logOf n.store.snapIndex p).drop d = (n.store.log.take m).drop d := by
  have hlen : (a.log i).length = n.store.snapIndex + n.store.log.length := h.node.rel.length
  by_cases hl : n.role = .leader
  · obtain ⟨j, hj, hun⟩ := h.node.pending p hs hp
    obtain ⟨b, hsteps, hrel, hlog⟩ := h.node.rel.lose (j := max j d) (h.tracks.inv hi)
      (h.node.leader hl).own fun k e hk he => by
        have hk' : n.store.snapIndex + max j d ≤ k := hk
        exact hun k e (by omega) he
    refine ⟨b, max j d, hsteps, Nat.le_max_right _ _, hlog, hrel, ?_⟩
    rw [hj, List.drop_take, List.drop_take]
    congr 1
    omega
  · -- nothing is unsynced
    have hall := Files.eq_records (h.node.quiet hl) hs hp
    have htake : n.store.log.take (max n.store.log.length d) = n.store.log :=
      List.take_of_length_le (Nat.le_max_left _ _)
    refine ⟨a, max n.store.log.length d, .refl, Nat.le_max_right _ _, ?_, ?_, ?_⟩
    · rw [List.take_of_length_le (by omega)]
    · rw [htake]
      exact h.node.rel
    · rw [hall, ← h.tracks.clean.1.stored.log, htake]

/-- The snapshot a crash or the call itself puts before the log. -/
theorem Rel.compacted {v : View} (h : Rel q a i v) {P : List Entry} {term : Nat}
    (hP : Settled a v.term P) (above : v.snapIndex < P.length)
    (hterm : lastTerm Entry.term P = term)
    (hentry : ∃ e, (a.log i)[P.length - 1]? = some e ∧ e.term = term) (hq : q → P <+: a.log i) :
    Rel q a i { v with
      snapIndex := P.length, snapTerm := term, log := v.log.drop (P.length - v.snapIndex) } := by
  obtain ⟨e, he, hcur⟩ := hentry
  have hlt := (List.getElem?_eq_some_iff.mp he).1
  refine h.compact hP (Nat.le_of_lt above) (by omega) hterm (fun heq => ?_) hq
  have hlast : lastTerm Entry.term ((a.log i).take (P.length - 1 + 1)) = e.term :=
    TermLog.lastTerm_take he
  rw [List.take_of_length_le (by omega), hcur] at hlast
  exact hlast

theorem Clean.saveSnapshot_unsynced (h : Clean peers s) {index : Nat} (hlt : s.snapIndex < index)
    (term : Nat) (data : Bytes) (conf : ConfState) :
    (s.saveSnapshot index term data conf).1.disk.files.unsynced = [] := by
  rw [DiskStorage.saveSnapshot_calm h.calm hlt]
  rfl

theorem Simulates.compact (hi : GhostInv a₀) (h : Simulates q G peers a₀ a i n)
    {index term : Nat} (data : Bytes) {conf : ConfState} (hproper : conf.Proper peers)
    (hlt : n.store.snapIndex < index) (hle : index ≤ n.commitIndex)
    (hterm : n.store.termAt index = some term) :
    Simulates q G peers a₀ a i
      { n with store := (n.store.saveSnapshot index term data conf).1 } := by
  have hia := h.tracks.inv hi
  have hc := h.tracks.clean.1
  obtain ⟨P, hP, rfl, hlast, hentry, hq⟩ :=
    h.node.commit.compaction hia h.node.rel hc.stored hlt hle hterm
  have hrel := h.node.rel.compacted hP hlt hlast hentry hq
  have hstep : StoreStep 0 conf (.snapshot P.length data) n.store _ :=
    .compact P.length term data rfl hterm
  have hclean := hstep.clean (by simp) hproper (by simp) h.tracks.clean
  have hcut : ∀ p, n.store.disk.files.synced <+: p → p <+: n.store.disk.files.records →
      ∃ b, GhostSteps G i a b ∧
        Rel q b i { n.store.view with
          snapIndex := P.length, snapTerm := term
          log := (logOf n.store.snapIndex p).drop (P.length - n.store.snapIndex) } := by
    intro p hs hp
    obtain ⟨b, m, hsteps, hm, hlog, hrelb, hdrop⟩ := h.cut hi (P.length - n.store.snapIndex) hs hp
    obtain ⟨-, he, -⟩ := hia.steps hsteps
    obtain ⟨e, hentry, hcur⟩ := hentry
    refine ⟨b, hsteps, ?_⟩
    rw [hdrop]
    refine hrelb.compacted (hP.mono he (Nat.le_refl _)) hlt hlast ⟨e, ?_, hcur⟩ fun hstrong => ?_
    · rw [hlog, List.getElem?_take_of_lt (by omega)]
      exact hentry
    · rw [hlog]
      exact List.prefix_take_iff.mpr ⟨hq hstrong, by omega⟩
  have htracks := h.tracks.saveSnapshot hlt hclean hcut .refl hrel
  have hview := hc.saveSnapshot_view hlt term data conf
  have hsame : (n.store.saveSnapshot P.length term data conf).1.term =
      n.store.term := congrArg View.term hview
  refine ⟨htracks, NodeRel.synced htracks.rel hclean.1.stored ?_ h.node.applied
    (hc.saveSnapshot_unsynced hlt _ _ _) ?_ ?_ ?_⟩
  · obtain ⟨-, R, hR, hRlen, hRlog⟩ := h.node.commit
    rw [hview]
    refine ⟨hle, R, hR, hRlen, ?_⟩
    have hdrop := hRlog.drop (P.length - n.store.snapIndex)
    rwa [List.drop_drop, Nat.add_sub_cancel' (Nat.le_of_lt hlt)] at hdrop
  · rw [hsame]
    exact h.node.leader
  · rw [hsame]
    exact h.node.candidate
  · rw [hsame]
    exact h.node.owned

theorem Simulates.snapshot (hi : GhostInv a₀) (h : Simulates q G peers a₀ a i n)
    (hproper : n.conf.Proper peers) (index : Nat) (data : Bytes) :
    Simulates q G peers a₀ a i (n.snapshot index data).1 := by
  simp only [Node.snapshot]
  split
  · exact h
  next happlied =>
  split
  · exact h
  next term hterm =>
  rcases Nat.lt_or_ge n.store.snapIndex index with hlt | hge
  · have hle := Nat.le_trans (Nat.le_of_not_lt happlied) h.node.applied
    exact h.compact hi data hproper hlt hle hterm
  · rw [DiskStorage.saveSnapshot_below hge]
    exact h

/-! ## `HandleAppendEntries` -/

/-- An entry of the leader that the node has, with everything before it. -/
theorem Rel.agree (hi : GhostInv a) (h : Rel q a i s.view) (hs : Stored s) {T c k : Nat}
    {L : List Entry} {x : Entry} (ldr : a.ldr T = some (c, L)) (hx : L[k]? = some x)
    (hk : s.snapIndex ≤ k) (hterm : s.termAt (k + 1) = some x.term) :
    (a.log i).take (k + 1) = L.take (k + 1) := by
  rw [h.termAt_eq hs hk, Option.map_eq_some_iff] at hterm
  obtain ⟨y, hy, hcur⟩ := hterm
  exact (hi.rootedLog i).matching (hi.rootedLdr T c L ldr) hy hx hcur

/-- The check of the previous entry. -/
theorem Rel.agree_prev (hi : GhostInv a) (h : Rel q a i s.view) (hs : Stored s)
    {T c prev prevTerm : Nat} {L : List Entry} (ldr : a.ldr T = some (c, L))
    (hle : prev ≤ L.length) (hlast : lastTerm Entry.term (L.take prev) = prevTerm)
    (hlt : s.snapIndex < prev) (hterm : s.termAt prev = some prevTerm) :
    (a.log i).take prev = L.take prev := by
  obtain ⟨k, rfl⟩ : ∃ k, prev = k + 1 := ⟨prev - 1, by omega⟩
  have hx : L[k]? = some (L.get ⟨k, hle⟩) := List.getElem?_eq_getElem hle
  rw [TermLog.lastTerm_take hx] at hlast
  rw [← hlast] at hterm
  exact h.agree hi hs ldr hx (Nat.le_of_lt_succ hlt) hterm

/-- Where the node's log and the request part: up to `m` it agrees with the leader, and the entry
    there is missing or of another term. -/
theorem Rel.split (hi : GhostInv a) (h : Rel q a i s.view) (hs : Stored s) {T c : Nat}
    {L : List Entry} (ldr : a.ldr T = some (c, L)) {prev : Nat} {entries : List Entry}
    (hentries : entries <+: L.drop prev) (hchain : Chain prev entries)
    (hagree : s.snapIndex < prev → (a.log i).take prev = L.take prev) :
    ∃ m, m + (entries.dropWhile (Node.alreadyHas s)).length = prev + entries.length ∧
      (s.snapIndex < m → (a.log i).take m = L.take m) ∧
      entries.dropWhile (Node.alreadyHas s) <+: L.drop m ∧
      Chain m (entries.dropWhile (Node.alreadyHas s)) ∧
      ∀ e es, entries.dropWhile (Node.alreadyHas s) = e :: es →
        s.snapIndex ≤ m ∧ L[m]? = some e ∧
        ((a.log i).length ≤ m ∨ ∃ y, (a.log i)[m]? = some y ∧ y.term ≠ e.term) := by
  induction entries generalizing prev with
  | nil => exact ⟨prev, rfl, hagree, List.nil_prefix, .nil, by simp⟩
  | cons x xs ih =>
    have hx : L[prev]? = some x := by
      have := TermLog.getElem?_mono hentries (k := 0) rfl
      rwa [List.getElem?_drop, Nat.add_zero] at this
    have hrest : xs <+: L.drop (prev + 1) := by
      obtain ⟨R, hR⟩ := hentries
      rw [← List.drop_drop, ← hR]
      exact List.prefix_append _ _
    have hindex := hchain.head
    have hlast : s.lastIndex = (a.log i).length := (h.last_eq hs).1.symm
    cases hhas : Node.alreadyHas s x with
    | true =>
      rw [List.dropWhile_cons_of_pos hhas]
      obtain ⟨m, hm, rest⟩ := ih hrest hchain.tail fun hlt => by
        -- above the snapshot the entry is there with its term
        simp only [Node.alreadyHas, Bool.or_eq_true, Bool.and_eq_true, decide_eq_true_eq] at hhas
        have hle := Nat.le_of_lt_succ hlt
        rcases hhas with hbelow | ⟨hwithin, hterm⟩
        · omega
        · have hy : (a.log i)[prev]? = some ((a.log i).get ⟨prev, by omega⟩) :=
            List.getElem?_eq_getElem (by omega)
          rw [hindex, h.termAt_eq hs hle, hy] at hterm
          refine h.agree hi hs ldr hx hle ?_
          rw [h.termAt_eq hs hle, hy]
          exact congrArg some hterm
      exact ⟨m, by rw [hm, List.length_cons]; omega, rest⟩
    | false =>
      rw [List.dropWhile_cons_of_neg (by simp [hhas])]
      refine ⟨prev, rfl, hagree, hentries, hchain, ?_⟩
      rintro e es heq
      obtain ⟨rfl, rfl⟩ := List.cons.inj heq
      simp only [Node.alreadyHas, Bool.or_eq_false_iff, Bool.and_eq_false_imp,
        decide_eq_false_iff_not, decide_eq_true_eq] at hhas
      refine ⟨by omega, hx, ?_⟩
      rcases Nat.lt_or_ge prev (a.log i).length with hlt | hge
      · have hy : (a.log i)[prev]? = some ((a.log i).get ⟨prev, hlt⟩) :=
          List.getElem?_eq_getElem hlt
        refine .inr ⟨_, hy, ?_⟩
        have hterm := hhas.2 (by omega)
        rw [hindex, h.termAt_eq hs (by omega), hy] at hterm
        exact hterm
      · exact .inl hge

/-- The node and the entries from where the two logs part, as a prefix of the leader's log. -/
theorem Rel.overwrite (h : Rel q a i s.view) (hs : Stored s) {m j : Nat} {L fresh : List Entry}
    (above : s.snapIndex ≤ m) (bound : m ≤ L.length)
    (hagree : s.snapIndex < m → (a.log i).take m = L.take m) (hfresh : fresh <+: L.drop m)
    (hj : j ≤ fresh.length) :
    truncateFrom s.log (m + 1) ++ fresh.take j = (L.take (m + j)).drop s.snapIndex := by
  have hfront : s.log.take (m - s.snapIndex) = (L.take m).drop s.snapIndex := by
    rcases Nat.lt_or_eq_of_le above with hlt | heq
    · have htake := h.take (m - s.snapIndex)
      rw [Nat.add_sub_cancel' above, hagree hlt] at htake
      exact htake.symm
    · rw [← heq, Nat.sub_self, List.take_zero, List.drop_take, Nat.sub_self, List.take_zero]
  rw [hs.chain.truncateFrom, Nat.add_sub_add_right, hfront,
    TermLog.take_eq_of_isPrefix hfresh hj, List.take_add, List.drop_append_of_le_length]
  rw [List.length_take]
  exact Nat.le_min.mpr ⟨above, Nat.le_trans above bound⟩

/-- The entries reach the WAL one by one, and every time the node's log is a prefix of the
    leader's. -/
theorem Tracks.overwrite (hi : GhostInv a₀) (h : Tracks q G peers a₀ a i s) {c m : Nat}
    {L es : List Entry} {e : Entry} (ldr : a.ldr s.term = some (c, L)) (above : s.snapIndex ≤ m)
    (bound : m ≤ L.length) (hagree : s.snapIndex < m → (a.log i).take m = L.take m)
    (hfresh : e :: es <+: L.drop m) (hchain : Chain m (e :: es))
    (cause : (a.log i).length ≤ m ∨ TermLog.Conflict Entry.term m (a.log i) L)
    (hclean : Kept (Clean peers) CleanFiles (s.appendEntries (e :: es)).1) :
    ∃ a', GhostSteps G i a a' ∧ Tracks q G peers a₀ a' i (s.appendEntries (e :: es)).1 ∧
      a'.log i = L.take (m + (e :: es).length) ∧ a'.ldr = a.ldr := by
  have hs := h.clean.1.stored
  have hadopt : ∀ j, j ≤ (e :: es).length → ∃ b, GhostSteps G i a b ∧
      Rel q b i { s.view with log := truncateFrom s.log e.index ++ (e :: es).take j } ∧
      b.log i = L.take (m + j) ∧ b.ldr = a.ldr := by
    intro j hj
    have hlen := hfresh.length_le
    rw [List.length_drop] at hlen
    have hbound : m + j ≤ L.length := by omega
    rw [hchain.head, h.rel.overwrite hs above bound hagree hfresh hj]
    refine h.rel.adopt (h.inv hi) ldr (Nat.le_trans above (Nat.le_add_right _ _)) hbound ?_
    rcases cause with hshort | ⟨p, x, y, hp, hx, hy, hne⟩
    · exact .inl (Nat.le_trans hshort (Nat.le_add_right _ _))
    · exact .inr ⟨p, x, y, Nat.le_trans hp (Nat.le_add_right _ _), hx, hy, hne⟩
  obtain ⟨a', hsteps, hrel, hlog, hldr⟩ := hadopt (e :: es).length (Nat.le_refl _)
  rw [List.take_length] at hrel
  refine ⟨a', hsteps, h.appendEntries hclean ?_ ?_ hsteps hrel, hlog, hldr⟩
  · intro x hx
    obtain ⟨k, hk⟩ := List.mem_iff_getElem?.mp hx
    have hindex := hchain k x hk
    omega
  · intro j
    obtain ⟨b, hb, hrelb, -, -⟩ := hadopt (min j (e :: es).length) (Nat.min_le_right _ _)
    rw [← List.take_eq_take_min] at hrelb
    exact ⟨b, hb, hrelb⟩

/-- A committed entry is never replaced. -/
theorem Committed.below (hi : GhostInv a) (hrel : Rel q a i s.view) {commitIndex c m : Nat}
    (h : Committed a commitIndex s.view) {L : List Entry} (ldr : a.ldr s.term = some (c, L))
    (above : s.snapIndex ≤ m) {e : Entry} (he : L[m]? = some e)
    (cause : (a.log i).length ≤ m ∨ ∃ y, (a.log i)[m]? = some y ∧ y.term ≠ e.term) :
    commitIndex ≤ m := by
  obtain ⟨hsnap, P, hP, hlen, hlog⟩ := h
  have hpre := settled_whole hi ldr hP
  rcases cause with hshort | ⟨y, hy, hne⟩
  · have hle := hlog.length_le
    have hwhole : (a.log i).length = s.snapIndex + s.log.length := hrel.length
    rw [List.length_drop] at hle
    change P.length - s.snapIndex ≤ s.log.length at hle
    omega
  · rcases Nat.lt_or_ge m commitIndex with hlt | hge
    swap
    · exact hge
    rw [← hlen] at hlt
    have hPe : P[m]? = some e := TermLog.getElem?_restrict hpre hlt he
    have hown : (a.log i)[m]? = some e := by
      have hdrop : (P.drop s.snapIndex)[m - s.snapIndex]? = some e := by
        rw [List.getElem?_drop, Nat.add_sub_cancel' above]
        exact hPe
      have hentry := hrel.entry (m - s.snapIndex)
      rw [Nat.add_sub_cancel' above] at hentry
      exact hentry.trans (TermLog.getElem?_mono hlog hdrop)
    rw [hown, Option.some.injEq] at hy
    exact absurd (congrArg Entry.term hy.symm) hne

theorem Clean.appendEntries_ok (h : Clean peers s) (e : Entry) (es : List Entry) :
    (s.appendEntries (e :: es)).2 = true ∧ (s.appendEntries (e :: es)).1.dirty = true := by
  rw [DiskStorage.appendEntries_calm h.calm]
  exact ⟨rfl, rfl⟩

/-- What a follower has after `storeEntries`: everything up to the end of the request. -/
theorem Simulates.storeEntries (hi : GhostInv a₀) (h : Simulates q G peers a₀ a i n)
    (hr : n.role = .follower) {c : Nat} {L : List Entry} {req : AppendEntriesRequest}
    (ldr : a.ldr n.store.term = some (c, L)) (current : req.term = n.store.term)
    (reaches : req.prevLogIndex ≤ n.store.lastIndex)
    (hentries : req.entries <+: L.drop req.prevLogIndex)
    (hchain : Chain req.prevLogIndex req.entries)
    (hagree : n.store.snapIndex < req.prevLogIndex →
      (a.log i).take req.prevLogIndex = L.take req.prevLogIndex) :
    (Node.storeEntries n.store req.entries).2 = true ∧
    (Node.storeEntries n.store req.entries).1.disk.files.unsynced = [] ∧
    (Node.storeEntries n.store req.entries).1.snapIndex = n.store.snapIndex ∧
    (Node.storeEntries n.store req.entries).1.term = n.store.term ∧
    ∃ a', GhostSteps G i a a' ∧
      Simulates q G peers a₀ a' i
        { n with store := (Node.storeEntries n.store req.entries).1 } ∧ a'.ldr = a.ldr ∧
      (n.store.snapIndex < req.prevLogIndex + req.entries.length →
        (a'.log i).take (req.prevLogIndex + req.entries.length) =
          L.take (req.prevLogIndex + req.entries.length)) := by
  have hia := h.tracks.inv hi
  have hc := h.tracks.clean.1
  have hu : n.store.disk.files.unsynced = [] := h.node.quiet (by rw [hr]; simp)
  obtain ⟨m, hm, hfront, hfresh, hfreshChain, hsplit⟩ :=
    h.node.rel.split hia hc.stored ldr hentries hchain hagree
  have hstep : StoreStep 0 (.newConfState peers) (.handle (.appendEntries req)) n.store _ :=
    .accept req rfl current reaches
  simp only [Node.storeEntries]
  cases hdrop : req.entries.dropWhile (Node.alreadyHas n.store) with
  | nil =>
    -- the node has it all
    rw [hdrop, List.length_nil, Nat.add_zero] at hm
    have hnone : ¬([] : List Entry).length > 0 := Nat.lt_irrefl 0
    rw [if_neg hnone]
    exact ⟨rfl, hu, rfl, rfl, a, .refl, h, rfl, by rw [← hm]; exact hfront⟩
  | cons e es =>
    rw [hdrop] at hm hfresh hfreshChain hstep
    obtain ⟨above, he, cause⟩ := hsplit e es hdrop
    have bound : m ≤ L.length := Nat.le_of_lt (List.getElem?_eq_some_iff.mp he).1
    have hclean := keptClean_step h.tracks.clean hstep
      (fun r hreq => by obtain rfl := NodeOp.handle.inj hreq; exact hchain) (by simp)
    have hbelow := h.node.commit.below hia h.node.rel ldr above he cause
    have hdiffer : (∃ y, (a.log i)[m]? = some y ∧ y.term ≠ e.term) →
        TermLog.Conflict Entry.term m (a.log i) L := by
      rintro ⟨y, hy, hne⟩
      exact ⟨m, y, e, Nat.le_refl _, hy, he, hne⟩
    obtain ⟨a', hsteps, htracks, hlog, hldr⟩ := h.tracks.overwrite hi ldr above bound hfront hfresh
      hfreshChain (cause.imp id hdiffer) hclean
    obtain ⟨-, hext, -⟩ := hia.steps hsteps
    have hview := hc.appendEntries_view e es
    obtain ⟨hok, hdirty⟩ := hc.appendEntries_ok e es
    simp only [List.length_cons, gt_iff_lt, Nat.zero_lt_succ, if_true, andThen, hok]
    generalize (n.store.appendEntries (e :: es)).1 = s' at htracks hview hdirty hclean ⊢
    have hsync := keptClean_step hclean (.sync : StoreStep 0 _ (.finish 0) _ _) (by simp) (by simp)
    have hview' : s'.sync.1.view = s'.view := hclean.1.sync_view
    have hu' : s'.sync.1.disk.files.unsynced = [] :=
      hclean.1.sync_unsynced fun hf => by rw [hdirty] at hf; cases hf
    have hsnap : s'.sync.1.snapIndex = n.store.snapIndex :=
      (congrArg View.snapIndex hview').trans (congrArg View.snapIndex hview)
    have hterm : s'.sync.1.term = n.store.term :=
      (congrArg View.term hview').trans (congrArg View.term hview)
    have htracks' := htracks.sync hsync
    refine ⟨hclean.1.sync_ok, hu', hsnap, hterm, a', hsteps,
      ⟨htracks', NodeRel.synced htracks'.rel hsync.1.stored ?_ h.node.applied hu' ?_ ?_ ?_⟩, hldr, ?_⟩
    · -- the committed prefix is in the leader's log, and below the first new entry
      obtain ⟨hsnapc, P, hP, hlen, -⟩ := h.node.commit
      have hpre : P <+: L := settled_whole hia ldr hP
      have hfront : P <+: L.take (m + (e :: es).length) :=
        List.prefix_take_iff.mpr ⟨hpre, by rw [hlen]; omega⟩
      rw [← hlog] at hfront
      refine ⟨?_, P, ?_, hlen, ?_⟩
      · exact Nat.le_trans (Nat.le_of_eq hsnap) hsnapc
      · exact hP.mono hext (Nat.le_of_eq hterm.symm)
      · rw [← htracks'.rel.log]
        exact hfront.drop _
    · intro hl
      rw [hr] at hl
      cases hl
    · intro hl
      rw [hr] at hl
      cases hl
    · intro hl
      rw [hr] at hl
      cases hl
    · intro _
      rw [hlog, hm, List.take_take, Nat.min_self]

/-- A synced follower acknowledges what it has. -/
theorem Simulates.ack (hi : GhostInv a₀) (h : Simulates q G peers a₀ a i n)
    (hu : n.store.disk.files.unsynced = []) {c m : Nat} {L : List Entry}
    (ldr : a.ldr n.store.term = some (c, L)) (bound : m ≤ L.length)
    (hagree : n.store.snapIndex < m → (a.log i).take m = L.take m) :
    ∃ a', GhostSteps G i a a' ∧ Simulates q G peers a₀ a' i n ∧ a'.ldr = a.ldr ∧ a'.log = a.log ∧
      Acked a' n.store.term i m := by
  have hia := h.tracks.inv hi
  have hterm : a.term i = n.store.term := h.node.rel.term
  rcases Nat.lt_or_ge n.store.snapIndex m with hlt | hge
  · have holds : L.take m <+: a.log i := by
      rw [← hagree hlt]
      exact List.take_prefix _ _
    obtain ⟨a', hsteps, hacc, hterm', hlog, hvoted, hldr, hcom⟩ : ∃ a', GhostSteps G i a a' ∧
        m ≤ a'.acc i (a.term i) ∧ a'.term = a.term ∧ a'.log = a.log ∧ a'.voted = a.voted ∧
        a'.ldr = a.ldr ∧ a'.com = a.com := by
      refine ⟨_, .single (.ack c L m (by rw [hterm]; exact ldr) bound holds), ?_, rfl, rfl, rfl, rfl,
        rfl⟩
      simp [TermLog.cell]
    rw [hterm] at hacc
    exact ⟨a', hsteps, h.idle hi hu hsteps hterm' hlog hvoted hldr hcom, hldr, hlog,
      acked_of_acc (by rw [hldr]; exact ldr) bound hacc⟩
  · -- all of it is below the snapshot, and that is committed
    obtain ⟨P, hP, hlen, -⟩ := h.node.rel.snap
    exact ⟨a, .refl, h, rfl, rfl, acked_of_settled hia ldr hP (by rw [hlen]; exact hge)⟩

/-- A follower moves its commit index to where it has the leader's log. -/
theorem Simulates.followCommit (hi : GhostInv a₀) (h : Simulates q G peers a₀ a i n)
    {c m leaderCommit : Nat} {L P : List Entry} (ldr : a.ldr n.store.term = some (c, L))
    (hagree : n.store.snapIndex < m → (a.log i).take m = L.take m)
    (hP : Settled a n.store.term P) (hlen : P.length = leaderCommit)
    (later : n.commitIndex < leaderCommit) :
    Simulates q G peers a₀ a i
      { n with commitIndex := min leaderCommit (max m n.commitIndex) } := by
  rcases Nat.lt_or_ge n.commitIndex m with hlt | hge
  swap
  · rw [Nat.max_eq_right hge, Nat.min_eq_right (Nat.le_of_lt later)]
    exact h
  rw [Nat.max_eq_left (Nat.le_of_lt hlt)]
  have hsnap : n.store.snapIndex ≤ n.commitIndex := h.node.commit.1
  have hmore : n.commitIndex < min leaderCommit m := Nat.lt_min.mpr ⟨later, hlt⟩
  refine ⟨h.tracks, { h.node with
    commit := ⟨Nat.le_trans hsnap (Nat.le_of_lt hmore), P.take (min leaderCommit m),
      hP.restrict (List.take_prefix _ _), ?_, ?_⟩
    applied := Nat.le_trans h.node.applied (Nat.le_of_lt hmore)
    owned := fun hr => Nat.le_trans (h.node.owned hr) (Nat.le_of_lt hmore) }⟩
  · rw [List.length_take, hlen, Nat.min_eq_left (Nat.min_le_left _ _)]
  · have hpre : P <+: L := settled_whole (h.tracks.inv hi) ldr hP
    have heq : P.take (min leaderCommit m) = (a.log i).take (min leaderCommit m) := by
      rw [TermLog.take_eq_of_isPrefix hpre (by rw [hlen]; exact Nat.min_le_left _ _),
        ← Nat.min_eq_left (Nat.min_le_right leaderCommit m), ← List.take_take,
        ← hagree (Nat.lt_of_le_of_lt hsnap hlt), List.take_take]
    rw [heq, ← h.node.rel.log]
    exact (List.take_prefix _ _).drop _

/-- Whoever hears from another leader of its term or a later one becomes its follower. -/
theorem Simulates.follow (hi : GhostInv a₀) (h : Simulates q G peers a₀ a₀ i n)
    {source term : Nat} {L : List Entry} (ldr : a₀.ldr term = some (source, L)) (hne : i ≠ source)
    (hle : n.store.term ≤ term) (leaderId : Nat) :
    ∃ a, GhostSteps G i a₀ a ∧ Simulates q G peers a₀ a i (n.follow term leaderId) := by
  simp only [Node.follow]
  rcases Nat.lt_or_eq_of_le hle with hlt | heq
  · obtain ⟨a, hsteps, hnext⟩ := h.stepDown hi hlt
    rw [if_pos (.inl hlt)]
    exact ⟨a, hsteps, hnext.tracks, { hnext.node with }⟩
  subst heq
  have hrole : n.role ≠ .leader := by
    intro hl
    have hown := (h.node.leader hl).own
    rw [ldr, Option.some.injEq, Prod.mk.injEq] at hown
    exact hne hown.1.symm
  split
  · have hnext := h.giveUp hrole
    rw [Node.stepDownLocked, if_neg (Nat.lt_irrefl _)]
    exact ⟨a₀, .refl, hnext.tracks, { hnext.node with }⟩
  · exact ⟨a₀, .refl, h.tracks, { h.node with }⟩

theorem Simulates.acceptEntries (hi : GhostInv a₀) (h : Simulates q G peers a₀ a i n)
    (hr : n.role = .follower) {source : Nat} {req : AppendEntriesRequest}
    (hreq : GhostRequest a source i (.appendEntries req)) (current : n.store.term = req.term)
    (reaches : req.prevLogIndex ≤ n.store.lastIndex)
    (hchain : Chain req.prevLogIndex req.entries)
    (hcheck : n.store.snapIndex < req.prevLogIndex →
      n.store.termAt req.prevLogIndex = some req.prevLogTerm) (resp : AppendEntriesResponse) :
    ∃ a', GhostSteps G i a a' ∧ Simulates q G peers a₀ a' i (n.acceptEntries req resp).1 ∧
      Acked a' req.term i (req.prevLogIndex + req.entries.length) := by
  obtain ⟨-, L, ldr, hprev, hlast, hentries, P, hP, hlen⟩ := hreq
  have hia := h.tracks.inv hi
  rw [← current] at ldr hP ⊢
  have bound : req.prevLogIndex + req.entries.length ≤ L.length := by
    have := hentries.length_le
    rw [List.length_drop] at this
    omega
  obtain ⟨hok, hu, hsnap, hterm, b, hsteps, hstored, hldr, hagree⟩ :=
    h.storeEntries hi hr ldr current.symm reaches hentries hchain fun hlt =>
      h.node.rel.agree_prev hia h.tracks.clean.1.stored ldr hprev hlast hlt (hcheck hlt)
  simp only [Node.acceptEntries, hok]
  generalize (Node.storeEntries n.store req.entries).1 = s' at hu hsnap hterm hstored ⊢
  obtain ⟨-, he, -⟩ := hia.steps hsteps
  -- acknowledge, then move the commit index
  have hldrb : b.ldr s'.term = some (source, L) := by rw [hterm, hldr]; exact ldr
  obtain ⟨a', hack, hacked, hldr', hlog', hanswer⟩ := hstored.ack hi hu hldrb bound
    fun hlt => hagree (by rw [← hsnap]; exact hlt)
  obtain ⟨-, he', -⟩ := (hstored.tracks.inv hi).steps hack
  rw [hterm] at hanswer
  refine ⟨a', hsteps.trans hack, ?_, hanswer⟩
  simp only [Bool.not_true, Bool.false_eq_true, if_false]
  split
  swap
  · exact hacked
  next later =>
  have hldrs : a'.ldr s'.term = some (source, L) := by rw [hldr']; exact hldrb
  have hsettled : Settled a' s'.term P := by
    rw [hterm]
    exact (hP.mono he (Nat.le_refl _)).mono he' (Nat.le_refl _)
  refine hacked.followCommit hi hldrs (fun hlt => ?_) hsettled hlen later
  rw [hlog']
  exact hagree (by rw [← hsnap]; exact hlt)

theorem Simulates.handleAppendEntries (hi : GhostInv a₀) (h : Simulates q G peers a₀ a₀ i n)
    {source : Nat} {req : AppendEntriesRequest}
    (hreq : GhostRequest a₀ source i (.appendEntries req))
    (hchain : Chain req.prevLogIndex req.entries) :
    ∃ a, Simulates q G peers a₀ a i (n.handleAppendEntries req).1 ∧
      GhostReply a i (.appendEntries req) (.appendEntries (n.handleAppendEntries req).2) := by
  simp only [Node.handleAppendEntries]
  split
  · exact ⟨a₀, h, fun h => by cases h⟩
  next hle =>
  obtain ⟨hne, L, ldr, -⟩ := id hreq
  obtain ⟨a, hsteps, hf⟩ := h.follow hi ldr hne (Nat.le_of_not_lt hle) req.leaderId
  have hterm := Node.follow_term req.leaderId (Nat.le_of_not_lt hle)
  have hrole := (Node.follow_role (n := n) req.term req.leaderId).1
  generalize n.follow req.term req.leaderId = m at hterm hf hrole ⊢
  obtain ⟨-, he, -⟩ := hi.steps hsteps
  have hreq' := hreq.mono he
  have haccept : req.prevLogIndex ≤ m.store.lastIndex →
      (m.store.snapIndex < req.prevLogIndex →
        m.store.termAt req.prevLogIndex = some req.prevLogTerm) → ∀ resp,
      ∃ a, Simulates q G peers a₀ a i (m.acceptEntries req resp).1 ∧
        GhostReply a i (.appendEntries req) (.appendEntries (m.acceptEntries req resp).2) := by
    intro hreach hcheck resp
    obtain ⟨a', -, hs, hacked⟩ := hf.acceptEntries hi hrole hreq' hterm hreach hchain hcheck resp
    exact ⟨a', hs, fun _ => hacked⟩
  split
  · exact ⟨a, hf, fun h => by cases h⟩
  next hreach =>
  split
  · split
    · exact ⟨a, hf, fun h => by cases h⟩
    next t ht =>
    split
    · exact ⟨a, hf, fun h => by cases h⟩
    next heq =>
    refine haccept (Nat.le_of_not_lt hreach) (fun _ => ?_) _
    rw [ht, Decidable.not_not.mp heq]
  · next hbelow =>
    refine haccept (Nat.le_of_not_lt hreach) (fun hlt => absurd (.inl ?_) hbelow) _
    exact hlt

/-! ## `HandleInstallSnapshot` -/

/-- The node's log reaches beyond the snapshot only if it has the snapshot's last entry. -/
def DiskStorage.Fits (s : DiskStorage) (index term : Nat) : Prop :=
  index < s.lastIndex → s.termAt index = some term

theorem Clean.follow_fits (hc : Clean peers n.store) {index t : Nat} (h : n.store.Fits index t)
    (term leaderId : Nat) : (n.follow term leaderId).store.Fits index t := by
  rw [Node.follow_disk]
  split
  · rw [DiskStorage.setHardState_calm hc.calm]
    exact h
  · exact h

/-- A snapshot that fits stands for the front of the node's own log. -/
theorem DiskStorage.Fits.whole (hi : GhostInv a) (h : Rel q a i s.view) (hs : Stored s)
    {c : Nat} {L P : List Entry} (ldr : a.ldr s.term = some (c, L)) (hP : Settled a s.term P)
    (above : s.snapIndex < P.length) (hfit : s.Fits P.length (lastTerm Entry.term P))
    (hlt : P.length < (a.log i).length) : P <+: a.log i := by
  have hpre : P <+: L := settled_whole hi ldr hP
  have hlast : P.length < s.lastIndex := by
    rw [← (h.last_eq hs).1]
    exact hlt
  have htake : L.take P.length = P := by
    rw [← TermLog.take_eq_of_isPrefix hpre (Nat.le_refl _), List.take_length]
  have heq := h.agree_prev hi hs ldr hpre.length_le (by rw [htake]) above (hfit hlast)
  rw [htake] at heq
  rw [← heq]
  exact List.take_prefix _ _

theorem Simulates.handleInstallSnapshot (hi : GhostInv a₀) (h : Simulates q G peers a₀ a₀ i n)
    {source : Nat} {req : InstallSnapshotRequest}
    (hreq : GhostRequest a₀ source i (.installSnapshot req))
    (hproper : req.confState.Proper peers)
    (hfit : q → n.store.term ≤ req.term → n.store.snapIndex < req.lastIncludedIndex →
      n.store.Fits req.lastIncludedIndex req.lastIncludedTerm) :
    ∃ a, Simulates q G peers a₀ a i (n.handleInstallSnapshot req).1 := by
  simp only [Node.handleInstallSnapshot]
  split
  · exact ⟨a₀, h⟩
  next hle =>
  obtain ⟨hne, L, ldr, -⟩ := id hreq
  obtain ⟨a, hsteps, hf⟩ := h.follow hi ldr hne (Nat.le_of_not_lt hle) req.leaderId
  have hterm := Node.follow_term req.leaderId (Nat.le_of_not_lt hle)
  have hrole := (Node.follow_role (n := n) req.term req.leaderId).1
  have hsnap := Node.follow_snapIndex (n := n) req.term req.leaderId
  have hfit' : q → n.store.snapIndex < req.lastIncludedIndex →
      (n.follow req.term req.leaderId).store.Fits _ _ := fun hstrong hlt =>
    h.tracks.clean.1.follow_fits (hfit hstrong (Nat.le_of_not_lt hle) hlt) req.term req.leaderId
  generalize n.follow req.term req.leaderId = m at hterm hf hrole hsnap hfit' ⊢
  obtain ⟨hia, he, -⟩ := hi.steps hsteps
  obtain ⟨-, L, ldr, P, hP, hlen, hlast⟩ := hreq.mono he
  split
  · exact ⟨a, hf⟩
  next habove =>
  have hc := hf.tracks.clean.1
  have hu : m.store.disk.files.unsynced = [] := hf.node.quiet (by rw [hrole]; simp)
  have hlt : m.store.snapIndex < req.lastIncludedIndex := Nat.lt_of_not_le habove
  have hstep : StoreStep 0 req.confState (.handle (.installSnapshot req)) m.store _ :=
    .install req rfl hterm.symm
  have hclean := hstep.clean (fun r hr => by obtain rfl := NodeOp.handle.inj hr; exact hproper)
    hproper (by simp) hf.tracks.clean
  rw [← hterm] at ldr hP
  rw [← hsnap, ← hlen, ← hlast] at hfit'
  rw [← hlen] at hlt
  obtain ⟨b, hstepsb, hrel⟩ := hf.node.rel.install hia ldr hP hlt fun hstrong hlong =>
    (hfit' hstrong hlt).whole hia hf.node.rel hc.stored ldr hP hlt hlong
  obtain ⟨-, heb, -⟩ := hia.steps hstepsb
  rw [hlen] at hlt hrel
  rw [hlast] at hrel
  have hok : (m.store.saveSnapshot req.lastIncludedIndex req.lastIncludedTerm req.data
      req.confState).2 = true := by
    rw [DiskStorage.saveSnapshot_calm hc.calm hlt]
  have hview := hc.saveSnapshot_view hlt req.lastIncludedTerm req.data req.confState
  have huns := hc.saveSnapshot_unsynced hlt req.lastIncludedTerm req.data req.confState
  have htracks := hf.tracks.saveSnapshot hlt hclean
    (fun p hs hp => by
      -- with nothing unsynced the WAL is all there
      have hall : p = m.store.disk.files.records := by
        rw [Files.records, hu, List.append_nil] at hp ⊢
        exact (hs.eq_of_length_le hp.length_le).symm
      rw [hall, ← hc.stored.log]
      exact ⟨b, hstepsb, hrel⟩) hstepsb hrel
  simp only [hok, Bool.not_true, Bool.false_eq_true, if_false]
  refine ⟨b, htracks, NodeRel.synced htracks.rel hclean.1.stored ?_ (Nat.le_refl _) huns ?_ ?_ ?_⟩
  · show Committed b req.lastIncludedIndex (m.store.saveSnapshot _ _ _ _).1.view
    rw [hview]
    refine ⟨Nat.le_refl _, P, hP.mono heb (Nat.le_refl _), hlen, ?_⟩
    rw [List.drop_eq_nil_iff.mpr (Nat.le_of_eq hlen)]
    exact List.nil_prefix
  · intro hl
    rw [hrole] at hl
    cases hl
  · intro hl
    rw [hrole] at hl
    cases hl
  · intro hl
    rw [hrole] at hl
    cases hl

end Raft
end DistKV
