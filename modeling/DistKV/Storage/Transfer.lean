import DistKV.Storage.EngineRuns
import DistKV.Storage.LongValue

/-!
# Moving the contents of an engine

`SnapshotEntries` merges the tables oldest first and the memtable last, with every version overwriting
the one before; `Get` asks the newest first and stops at the first answer. Both come to the same map,
and an engine that is `Reset` to this map answers as the first one does, also after it was closed and
opened again (`snapshot_transfers`). The pairs of a Go map are visited in any order, so `Reset` gets
them in any order.

The lengths in the files set the limits. A value of `2 ^ 32` bytes is read from its table as several
records, `SnapshotEntries` finds pairs there that `Get` does not (`snapshot_of_longValue`).
-/

namespace DistKV
namespace Storage

section Pairs

variable {A B : Type} [BEq A] [LawfulBEq A]

/-- With every key once a list of pairs is the graph of its lookup. -/
theorem lookup_eq_some_iff_mem {l : List (A × B)} (h : (l.map Prod.fst).Nodup) {a : A} {b : B} :
    l.lookup a = some b ↔ (a, b) ∈ l := by
  induction l with
  | nil => simp
  | cons p l ih =>
    obtain ⟨hp, hl⟩ := List.nodup_cons.mp h
    rw [List.lookup_cons, List.mem_cons]
    by_cases hkey : a = p.1
    · subst hkey
      have hout : (p.1, b) ∉ l := fun hmem => hp (List.mem_map.mpr ⟨_, hmem, rfl⟩)
      simp only [beq_self_eq_true, Option.some.injEq, hout, or_false, Prod.ext_iff, true_and]
      exact eq_comm
    · have hne : (a, b) ≠ p := fun heq => hkey (congrArg Prod.fst heq)
      simp only [beq_eq_false_iff_ne.mpr hkey, ih hl, hne, false_or]

theorem lookup_perm {l l' : List (A × B)} (hp : l.Perm l') (h : (l.map Prod.fst).Nodup) (a : A) :
    l.lookup a = l'.lookup a := by
  refine Option.ext fun b => ?_
  rw [lookup_eq_some_iff_mem h, lookup_eq_some_iff_mem ((hp.map Prod.fst).nodup_iff.mp h)]
  exact hp.mem_iff

end Pairs

/-- **`SnapshotEntries` of one engine, `Reset` of another.** Both engines are the result of any
    operations, with every record short enough for its length field and fewer than `2 ^ 30` keys. -/
theorem snapshot_transfers (opts opts' : EngineOptions) (ops ops' : List EngineOp)
    (hops : Bounded ops) (hops' : Bounded ops') :
    ∃ e e' entries, runEngine opts ops = .ok e ∧ runEngine opts' ops' = .ok e' ∧
      snapshotEntries.exec e = (.ok entries, e) ∧ (entries.map Prod.fst).Nodup ∧
      (∀ key value, (key, value) ∈ entries ↔ e.get key = .ok (some value)) ∧
      ∀ pairs : List (Bytes × Bytes), pairs.Perm entries →
        ∃ e₁, (reset pairs).result e' = .ok e₁ ∧ (∀ key, e₁.get key = e.get key) ∧
          ∀ opts'', ∃ e₂, (EngineOp.reopen opts'').run e₁ = .ok e₂ ∧
            ∀ key, e₂.get key = e.get key := by
  obtain ⟨e, levels, hrun, hs, -, -⟩ := runEngine_stores opts ops hops
  obtain ⟨e', levels', hrun', hs', -, -⟩ := runEngine_stores opts' ops' hops'
  obtain ⟨entries, hsnap, hunique, hsmall, hlookup⟩ := hs.snapshotEntries
  refine ⟨e, e', entries, hrun, hrun', hsnap, hunique, fun key value => ?_, fun pairs hpairs => ?_⟩
  · rw [← lookup_eq_some_iff_mem hunique, hlookup, hs.get, Except.ok.injEq]
  · have hpairsUnique := (hpairs.map Prod.fst).nodup_iff.mpr hunique
    obtain ⟨e₁, hreset, hs₁, hd₁, hv₁⟩ := hs'.replace hops.keys
      (fun p hp => hsmall p (hpairs.mem_iff.mp hp)) hpairsUnique
    have hview : view e₁.mem [] = view e.mem levels := by
      funext key
      rw [hv₁, ← hlookup key]
      exact lookup_perm hpairs hpairsUnique key
    refine ⟨e₁, result_ok hreset, fun key => ?_, fun opts'' => ?_⟩
    · rw [hs₁.get, hs.get, hview]
    · -- a reopening has nothing to write
      have hnothing : ∀ r ∈ (EngineOp.reopen opts'').writes, Small (writtenKeys ops) r :=
        List.forall_mem_nil _
      obtain ⟨e₂, levels₂, hreopen, hs₂, -, hv₂⟩ := hs₁.step hd₁ hnothing
      refine ⟨e₂, hreopen, fun key => ?_⟩
      rw [hs₂.get, hs.get, hv₂, ← hview]
      rfl

/-- A delete over a flushed value, moved to an engine that has another key. -/
theorem snapshot_transfers_deleted : ∃ e e' entries,
    runEngine { flushSize := 1 } [.put [1] [7], .put [2] [8], .delete [1]] = .ok e ∧
    runEngine {} [.put [3] [9]] = .ok e' ∧ snapshotEntries.exec e = (.ok entries, e) ∧
    ∃ e₁, (reset entries).result e' = .ok e₁ ∧ e₁.get [1] = e.get [1] ∧ e₁.get [3] = e.get [3] := by
  obtain ⟨e, e', entries, hrun, hrun', hsnap, -, -, htransfer⟩ := snapshot_transfers
    { flushSize := 1 } {} [.put [1] [7], .put [2] [8], .delete [1]] [.put [3] [9]]
    ⟨by decide, by decide⟩ ⟨by decide, by decide⟩
  obtain ⟨e₁, hreset, hget, -⟩ := htransfer entries (List.Perm.refl entries)
  exact ⟨e, e', entries, hrun, hrun', hsnap, e₁, hreset, hget [1], hget [3]⟩

/-- The first `Put` of an engine, with a long value. -/
theorem runEngine_longValue {filler : Bytes} (h : filler.length = 2 ^ 32 - 10) :
    ∃ e, runEngine { flushSize := 1, syncWAL := false } [.put [1] (record (hiddenEntry filler))] =
      .ok e ∧ LongValue filler e := by
  let e₀ : Engine := { dir := { wal := some (openWAL []) }, flushSize := 1, syncWAL := false }
  have hopen : openEngine { flushSize := 1, syncWAL := false } {} = .ok e₀ := rfl
  have hcalm : Calm e₀ (openWAL []) := ⟨rfl, rfl, rfl⟩
  obtain ⟨e, hput, hlong⟩ := put_longValue h hcalm rfl rfl rfl rfl (by decide)
  have hstep : (EngineOp.put [1] (record (hiddenEntry filler))).run e₀ = .ok e := result_ok hput
  refine ⟨e, ?_, hlong⟩
  rw [runEngine, hopen]
  show ((EngineOp.put [1] (record (hiddenEntry filler))).run e₀ >>= pure) = .ok e
  rw [hstep]
  rfl

/-- The table of a long value has two records for a snapshot and none for `Get`. -/
theorem snapshot_of_longValue : ∃ value : Bytes, ∃ e entries,
    runEngine { flushSize := 1, syncWAL := false } [.put [1] value] = .ok e ∧
      snapshotEntries.exec e = (.ok entries, e) ∧ ([1], []) ∈ entries ∧
      e.get [1] = .ok none := by
  have hlen : (List.replicate (2 ^ 32 - 10) (0 : UInt8)).length = 2 ^ 32 - 10 := List.length_replicate
  obtain ⟨e, hrun, hlong⟩ := runEngine_longValue hlen
  exact ⟨_, e, _, hrun, hlong.snapshotEntries, List.mem_cons_of_mem _ List.mem_cons_self,
    hlong.get [1]⟩

end Storage
end DistKV
