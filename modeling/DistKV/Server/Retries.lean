import DistKV.Server.KvSpec

/-!
# Retries of a client that waits for its answers

A client that sends one command after the other, each as often as it takes, has its commands in the log
in the order of their numbers, and copies of them anywhere behind. What the log does to the map is then
what the first occurrences do, without any table (`retries_transparent`), wherever snapshots move
the state to other replicas in between.

The table is at least the number of every command that was seen, and is itself the number of one of them
(`Kv.Seen`): so a copy is always a retry, and a first occurrence never is.
-/

namespace DistKV
namespace Server

open Storage

/-- Both are the same request of a named client. -/
def Command.sameRequest (c d : Command) : Bool :=
  decide (c.clientID ≠ [] ∧ d.clientID = c.clientID ∧ d.seq = c.seq)

/-- The commands so far, and one more unless its request is among them. -/
def addFirst (seen : List Command) (c : Command) : List Command :=
  if seen.any c.sameRequest then seen else seen ++ [c]

/-- The first occurrence of each request, and every command of an unnamed client. -/
def firsts (cs : List Command) : List Command := cs.foldl addFirst []

/-- The commands are those of clients that send one after the other. -/
structure Sequential (cs : List Command) : Prop where
  positive : ∀ c ∈ cs, c.clientID ≠ [] → 0 < c.seq
  copies : ∀ c ∈ cs, ∀ d ∈ cs, c.sameRequest d = true → d = c
  rising : (firsts cs).Pairwise fun c d => d.clientID ≠ [] → c.clientID = d.clientID → c.seq < d.seq

/-- The writes of the commands, one after the other, whatever their numbers. -/
def writeAll (cs : List Command) : Contents :=
  cs.foldl (fun m c => if c.op.known then Function.update m c.key c.entry.live else m) fun _ => none

/-! ## First occurrences -/

section Firsts

variable {cs : List Command} {c d : Command}

theorem firsts_concat (cs : List Command) (c : Command) :
    firsts (cs ++ [c]) = addFirst (firsts cs) c := by
  rw [firsts, List.foldl_append]
  rfl

theorem addFirst_seen {seen : List Command} (h : ∃ d ∈ seen, c.sameRequest d = true) :
    addFirst seen c = seen := by
  rw [addFirst, if_pos (List.any_eq_true.mpr h)]

theorem addFirst_new {seen : List Command} (h : ¬∃ d ∈ seen, c.sameRequest d = true) :
    addFirst seen c = seen ++ [c] := by
  rw [addFirst, if_neg fun hany => h (List.any_eq_true.mp hany)]

theorem mem_of_firsts (h : d ∈ firsts cs) : d ∈ cs := by
  induction cs using List.reverseRecOn with
  | nil => exact h
  | append_singleton cs c ih =>
    rw [firsts_concat] at h
    by_cases hseen : ∃ d ∈ firsts cs, c.sameRequest d = true
    · rw [addFirst_seen hseen] at h
      exact List.mem_append_left _ (ih h)
    · rw [addFirst_new hseen] at h
      rcases List.mem_append.mp h with h | h
      · exact List.mem_append_left _ (ih h)
      · exact List.mem_append_right _ h

theorem Sequential.init (h : Sequential (cs ++ [c])) : Sequential cs := by
  refine ⟨fun d hd => h.positive d (List.mem_append_left _ hd),
    fun d hd d' hd' => h.copies d (List.mem_append_left _ hd) d' (List.mem_append_left _ hd'), ?_⟩
  have hrising := h.rising
  rw [firsts_concat] at hrising
  by_cases hseen : ∃ d ∈ firsts cs, c.sameRequest d = true
  · rwa [addFirst_seen hseen] at hrising
  · rw [addFirst_new hseen] at hrising
    exact (List.pairwise_append.mp hrising).1

/-- A first occurrence has a higher number than all that its client sent before. -/
theorem Sequential.lt_last (h : Sequential (cs ++ [c]))
    (hnew : ¬∃ d ∈ firsts cs, c.sameRequest d = true) (hd : d ∈ firsts cs) (hname : c.clientID ≠ [])
    (hsame : d.clientID = c.clientID) : d.seq < c.seq := by
  have hrising := h.rising
  rw [firsts_concat, addFirst_new hnew] at hrising
  exact (List.pairwise_append.mp hrising).2.2 d hd c List.mem_cons_self hname hsame

/-- Commands without copies are all first occurrences. -/
theorem firsts_of_rising
    (h : cs.Pairwise fun c d => d.clientID ≠ [] → c.clientID = d.clientID → c.seq < d.seq) :
    firsts cs = cs := by
  induction cs using List.reverseRecOn with
  | nil => rfl
  | append_singleton cs c ih =>
    obtain ⟨hcs, -, hlast⟩ := List.pairwise_append.mp h
    have hnew : ¬∃ d ∈ cs, c.sameRequest d = true := by
      rintro ⟨d, hd, hsame⟩
      obtain ⟨hname, hclient, hseq⟩ := of_decide_eq_true hsame
      exact absurd hseq (Nat.ne_of_lt (hlast d hd c List.mem_cons_self hname hclient))
    rw [firsts_concat, ih hcs, addFirst_new hnew]

/-- The first occurrences by themselves are a sequence of the same kind. -/
theorem Sequential.onlyFirsts (h : Sequential cs) : Sequential (firsts cs) := by
  refine ⟨fun d hd => h.positive d (mem_of_firsts hd),
    fun d hd d' hd' => h.copies d (mem_of_firsts hd) d' (mem_of_firsts hd'), ?_⟩
  rw [firsts_of_rising h.rising]
  exact h.rising

end Firsts

/-! ## The table and the commands seen -/

/-- How the pair comes from the first occurrences. -/
structure Kv.Seen (seen : List Command) (s : Kv) : Prop where
  map : s.map = writeAll seen
  noted : ∀ c ∈ seen, c.clientID ≠ [] → c.op.known = true → c.seq ≤ s.last c.clientID
  source : ∀ id, s.last id = 0 ∨ ∃ c ∈ seen, c.clientID = id ∧ id ≠ [] ∧ c.seq = s.last id

section Seen

variable {cs seen : List Command} {c : Command} {s : Kv}

theorem writeAll_concat (cs : List Command) (c : Command) : writeAll (cs ++ [c]) =
    if c.op.known then Function.update (writeAll cs) c.key c.entry.live else writeAll cs := by
  rw [writeAll, List.foldl_append]
  rfl

/-- A copy of a command seen before. -/
theorem Kv.Seen.copy (h : s.Seen seen) (hmem : c ∈ seen) (hname : c.clientID ≠ [])
    (hpos : 0 < c.seq) : s.apply c = s := by
  apply Kv.apply_idle
  unfold Kv.carries
  cases hop : c.op.known with
  | false => exact Bool.and_false _
  | true =>
    have hretry : c.clientID ≠ [] ∧ c.seq > 0 ∧ s.last c.clientID ≥ c.seq :=
      ⟨hname, hpos, h.noted c hmem hname hop⟩
    rw [decide_eq_true hretry]
    rfl

theorem Kv.Seen.earlier (h : s.Seen seen) (c : Command) (id : Bytes) : s.last id = 0 ∨
    ∃ d ∈ seen ++ [c], d.clientID = id ∧ id ≠ [] ∧ d.seq = s.last id := by
  rcases h.source id with hzero | ⟨d, hd, hrest⟩
  · exact .inl hzero
  · exact .inr ⟨d, List.mem_append_left _ hd, hrest⟩

/-- One command more. -/
theorem Kv.Seen.extend (hmap : s.map = writeAll (seen ++ [c]))
    (hold : ∀ d ∈ seen, d.clientID ≠ [] → d.op.known = true → d.seq ≤ s.last d.clientID)
    (hnew : c.clientID ≠ [] → c.op.known = true → c.seq ≤ s.last c.clientID)
    (hsource : ∀ id, s.last id = 0 ∨
      ∃ d ∈ seen ++ [c], d.clientID = id ∧ id ≠ [] ∧ d.seq = s.last id) : s.Seen (seen ++ [c]) := by
  refine ⟨hmap, fun d hd hname hknown => ?_, hsource⟩
  rcases List.mem_append.mp hd with hd | hd
  · exact hold d hd hname hknown
  · rw [List.mem_singleton.mp hd] at hname hknown ⊢
    exact hnew hname hknown

/-- A command that comes for the first time. -/
theorem Kv.Seen.first (h : s.Seen seen)
    (habove : ∀ d ∈ seen, c.clientID ≠ [] → d.clientID = c.clientID → d.seq < c.seq) :
    (s.apply c).Seen (seen ++ [c]) := by
  have hnew : ¬(c.clientID ≠ [] ∧ c.seq > 0 ∧ s.last c.clientID ≥ c.seq) := by
    rintro ⟨hname, hpos, hle⟩
    rcases h.source c.clientID with hzero | ⟨d, hd, hclient, -, hseq⟩
    · omega
    · have := habove d hd hname hclient
      omega
  have hcarries : Kv.carries s.last c = c.op.known := by
    rw [Kv.carries, decide_eq_false hnew]
    rfl
  cases hop : c.op.known with
  | false =>
    -- an operation that is refused is neither written nor noted
    rw [hop] at hcarries
    rw [Kv.apply_idle hcarries]
    refine .extend ?_ h.noted (fun _ hknown => ?_) (h.earlier c)
    · rw [writeAll_concat, hop]
      exact h.map
    · rw [hop] at hknown
      cases hknown
  | true =>
    rw [hop] at hcarries
    have hmap : (s.apply c).map = writeAll (seen ++ [c]) := by
      rw [writeAll_concat, if_pos hop, ← h.map]
      simp only [Kv.apply, Kv.write?, hcarries, if_true, Overwrite.put]
    by_cases hname : c.clientID = []
    · have hlast : (s.apply c).last = s.last := by
        simp only [Kv.apply, Kv.note, hname, ne_eq, not_true_eq_false, and_false, if_false]
      refine .extend hmap ?_ (fun hno => absurd hname hno) ?_
      · rw [hlast]
        exact h.noted
      · rw [hlast]
        exact h.earlier c
    · have hlast : (s.apply c).last = Function.update s.last c.clientID c.seq := by
        simp only [Kv.apply, Kv.note, hcarries, ne_eq, hname, not_false_eq_true, and_self, if_true]
      refine .extend hmap (fun d hd hdname hknown => ?_) (fun _ _ => ?_) fun id => ?_
      · rw [hlast]
        by_cases hclient : d.clientID = c.clientID
        · rw [hclient, Function.update_self]
          exact Nat.le_of_lt (habove d hd hname hclient)
        · rw [Function.update_of_ne hclient]
          exact h.noted d hd hdname hknown
      · rw [hlast, Function.update_self]
      · rw [hlast]
        by_cases hid : id = c.clientID
        · subst hid
          refine .inr ⟨c, List.mem_append_right _ List.mem_cons_self, rfl, hname, ?_⟩
          rw [Function.update_self]
        · rw [Function.update_of_ne hid]
          exact h.earlier c id

/-- **The whole log.** -/
theorem Sequential.run_seen (h : Sequential cs) : (Kv.run {} cs).Seen (firsts cs) := by
  induction cs using List.reverseRecOn with
  | nil => exact ⟨rfl, fun _ hd => (by cases hd), fun _ => .inl rfl⟩
  | append_singleton cs c ih =>
    have hbefore := ih h.init
    have hrun : Kv.run {} (cs ++ [c]) = (Kv.run {} cs).apply c := by
      rw [Kv.run, List.foldl_append]
      rfl
    rw [hrun, firsts_concat]
    have hmem : c ∈ cs ++ [c] := List.mem_append_right _ List.mem_cons_self
    by_cases hseen : ∃ d ∈ firsts cs, c.sameRequest d = true
    · rw [addFirst_seen hseen]
      obtain ⟨d, hd, hsame⟩ := hseen
      have heq : d = c := h.copies c hmem d (List.mem_append_left _ (mem_of_firsts hd)) hsame
      have hname : c.clientID ≠ [] := (of_decide_eq_true hsame).1
      rw [heq] at hd
      rw [hbefore.copy hd hname (h.positive c hmem hname)]
      exact hbefore
    · rw [addFirst_new hseen]
      exact hbefore.first fun d hd hname hsame => h.lt_last hseen hd hname hsame

end Seen

/-! ## The result -/

section Transparent

variable {K : Finset Bytes} {events : List Event}

/-- **The log with its retries does what its first occurrences do**, which is to write them one after
    the other. -/
theorem retries_transparent (hroom : K.card < 2 ^ 30) (hfits : ∀ e ∈ events, e.Fits K)
    (hseq : Sequential (events.filterMap Event.command?)) (key : Bytes) :
    (StateMachine.run { engine := freshEngine } events).get key =
      (StateMachine.run { engine := freshEngine }
        ((firsts (events.filterMap Event.command?)).map .apply)).get key ∧
    (StateMachine.run { engine := freshEngine } events).get key =
      .ok (writeAll (firsts (events.filterMap Event.command?)) key) := by
  have hall := (StateMachine.Holds.fresh hroom).run hfits
  have hfirst : ∀ e ∈ (firsts (events.filterMap Event.command?)).map Event.apply, e.Fits K := by
    intro e he
    obtain ⟨c, hc, rfl⟩ := List.mem_map.mp he
    obtain ⟨e', he', hcommand⟩ := List.mem_filterMap.mp (mem_of_firsts hc)
    cases e' with
    | apply c' =>
      cases hcommand
      exact hfits _ he'
    | transfer target => cases hcommand
  have honce := (StateMachine.Holds.fresh hroom).run hfirst
  rw [filterMap_apply] at honce
  have hmap := hseq.run_seen.map
  have hmap' := hseq.onlyFirsts.run_seen.map
  rw [firsts_of_rising hseq.rising] at hmap'
  rw [hall.get, honce.get, hmap, hmap']
  exact ⟨rfl, rfl⟩

/-- The key of a command is overwritten by another client and the state moves to a new replica; then
    the copies come. -/
def lateCopy : List Event :=
  [.apply firstPut, .apply ⟨.put, [1], [30], [100], 1⟩, .apply ⟨.delete, [2], [], [], 0⟩,
    .transfer freshEngine, .apply firstPut, .apply secondPut, .apply firstPut]

theorem retries_transparent_lateCopy :
    (StateMachine.run { engine := freshEngine } lateCopy).get [1] = .ok (some [30]) := by
  have hroom : ({[1], [2]} : Finset Bytes).card < 2 ^ 30 := by decide
  have hfits : ∀ e ∈ lateCopy, e.Fits {[1], [2]} := by
    intro e he
    simp only [lateCopy, List.mem_cons, List.not_mem_nil, or_false] at he
    rcases he with rfl | rfl | rfl | rfl | rfl | rfl | rfl
    · exact ⟨by decide, by decide⟩
    · exact ⟨by decide, by decide⟩
    · exact ⟨by decide, by decide⟩
    · exact ⟨[], freshEngine_stores hroom⟩
    · exact ⟨by decide, by decide⟩
    · exact ⟨by decide, by decide⟩
    · exact ⟨by decide, by decide⟩
  have hseq : Sequential (lateCopy.filterMap Event.command?) :=
    ⟨by decide, by decide, by decide⟩
  exact (retries_transparent hroom hfits hseq [1]).2

end Transparent

/-! ## A value that does not fit -/

section Long

variable {filler : Bytes}

theorem sequential_put (value : Bytes) : Sequential [putCommand value] := by
  refine ⟨fun c hc hname => ?_, fun c hc d hd _ => ?_, List.pairwise_singleton _ _⟩
  · rw [List.mem_singleton.mp hc] at hname
    exact absurd rfl hname
  · rw [List.mem_singleton.mp hc, List.mem_singleton.mp hd]

theorem transferred_long {value : Bytes} (h : filler.length = 2 ^ 32 - 10)
    (hvalue : value = record (hiddenEntry filler)) :
    (StateMachine.run { engine := freshEngine }
      [.apply (putCommand value), .transfer freshEngine]).get [1] ≠
    (StateMachine.run { engine := freshEngine }
      ((firsts [putCommand value]).map .apply)).get [1] := by
  subst hvalue
  obtain ⟨e, hlong, happly⟩ := apply_long h
  obtain ⟨e', hrestore, hget⟩ := restore_long h
  have hsingle : ∀ c, firsts [c] = [c] := fun _ => rfl
  have hnone : StateMachine.get { engine := e } [1] = .ok none := hlong.get [1]
  have hsome : StateMachine.get { engine := e' } [1] = .ok (some []) := hget
  simp only [hsingle, List.map_cons, List.map_nil, StateMachine.run, List.foldl_cons,
    List.foldl_nil, StateMachine.step, happly, snapshot_long hlong, hrestore, hnone, hsome]
  intro heq
  cases heq

/-- **With a value of four gigabytes the snapshot shows.** There is no retry at all, and the replica
    that was restored answers what the one that applied the command does not. -/
theorem long_value_transferred : ∃ value : Bytes, Sequential [putCommand value] ∧
    (StateMachine.run { engine := freshEngine }
      [.apply (putCommand value), .transfer freshEngine]).get [1] ≠
    (StateMachine.run { engine := freshEngine }
      ((firsts [putCommand value]).map .apply)).get [1] := by
  have hlen : (List.replicate (2 ^ 32 - 10) (0 : UInt8)).length = 2 ^ 32 - 10 := List.length_replicate
  exact ⟨_, sequential_put _, transferred_long hlen rfl⟩

end Long

end Server
end DistKV
