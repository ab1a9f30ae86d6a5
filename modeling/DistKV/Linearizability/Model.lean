import Mathlib.Data.List.Sort
import DistKV.Lib.Keyed
import DistKV.Storage.SSTable

/-!
# `linearizability/model.go` — the reference model of the checker

The checker does not look at the whole store. `partition` sorts a history into one group for each key,
and `step` is a register: a key is present with a value, or it is not. What is meant is the map from
keys to values that the clients of the server believe in, `Store`; a history is legal if every `get`
of it reports what the map has at that moment.

Checking the groups is checking the map (`per_key_check_exact`): the registers together are the map,
and a register does not notice the operations on other keys in between.
-/

namespace DistKV
namespace Linearizability

open Storage

/-- `KVInput.Op`; every text but three is refused. -/
inductive InputOp where
  | put
  | get
  | delete
  | unknown (name : String)
  deriving DecidableEq, Repr

structure KVInput where
  op : InputOp
  key : Bytes
  value : Bytes := []
  deriving DecidableEq, Repr

structure KVOutput where
  value : Bytes := []
  found : Bool := false
  deriving DecidableEq, Repr

/-- `porcupine.Operation`: an operation of a client, with the times of its call and its return. -/
structure Operation where
  clientId : Int
  input : KVInput
  call : Int
  output : KVOutput
  ret : Int
  deriving DecidableEq, Repr

def Operation.key (op : Operation) : Bytes := op.input.key

/-! ## `Partition` -/

/-- The map `m` of `Partition`: its keys, in the order of an iteration, and the operations at each. -/
structure Groups where
  keys : List Bytes := []
  ops : Bytes → List Operation := fun _ => []

/-- `m[key] = append(m[key], op)`. -/
def Groups.add (m : Groups) (op : Operation) : Groups :=
  { keys := m.keys.insert op.key
    ops := Function.update m.ops op.key (m.ops op.key ++ [op]) }

def partition (history : List Operation) : List (List Operation) :=
  let m := history.foldl Groups.add {}
  (m.keys.insertionSort (· ≤ ·)).map m.ops

/-! ## `Init` and `Step` -/

structure KeyState where
  present : Bool := false
  val : Bytes := []
  deriving DecidableEq, Repr

def init : KeyState := {}

def step (st : KeyState) (input : KVInput) (output : KVOutput) : Bool × KeyState :=
  match input.op with
  | .put => (true, { present := true, val := input.value })
  | .delete => (true, {})
  | .get =>
    if !st.present then (!output.found, st)
    else (output.found && decide (output.value = st.val), st)
  | .unknown _ => (false, st)

/-- Folding `Step` over the operations accepts every one of them. -/
def accepts (st : KeyState) (ops : List Operation) : Bool :=
  Keyed.accepts (fun st (op : Operation) => step st op.input op.output) st ops

/-! ## The map that is meant -/

abbrev Store := Bytes → Option Bytes

/-- A `get` reports the current value, or that there is none. -/
def reports (output : KVOutput) : Option Bytes → Bool
  | some v => output.found && decide (output.value = v)
  | none => !output.found

def Store.step (σ : Store) (op : Operation) : Bool × Store :=
  match op.input.op with
  | .put => (true, Function.update σ op.key (some op.input.value))
  | .delete => (true, Function.update σ op.key none)
  | .get => (reports op.output (σ op.key), σ)
  | .unknown _ => (false, σ)

/-- The outputs are those of a map that is empty at first. -/
def legal (history : List Operation) : Bool := Keyed.accepts Store.step (fun _ => none) history

/-! ## What `Partition` makes of a history -/

theorem Groups.fold_spec (history : List Operation) :
    (history.foldl Groups.add {}).keys.Nodup ∧
    (∀ op ∈ history, op.key ∈ (history.foldl Groups.add {}).keys) ∧
    ∀ k, (history.foldl Groups.add {}).ops k = Keyed.part Operation.key k history := by
  induction history using List.reverseRecOn with
  | nil => exact ⟨List.nodup_nil, List.forall_mem_nil _, fun _ => rfl⟩
  | append_singleton history op ih =>
    obtain ⟨hnodup, hkeys, hops⟩ := ih
    rw [List.foldl_append, List.foldl_cons, List.foldl_nil]
    refine ⟨hnodup.insert, fun x hx => ?_, fun k => ?_⟩
    · rcases List.mem_append.mp hx with hold | hnew
      · exact List.mem_insert_of_mem (hkeys x hold)
      · rw [List.mem_singleton.mp hnew]
        exact List.mem_insert_self
    · rw [Keyed.part_append]
      by_cases hk : op.key = k
      · subst hk
        show Function.update _ op.key _ op.key = _
        rw [Function.update_self, hops, Keyed.part_cons_self]
        rfl
      · show Function.update _ op.key _ k = _
        rw [Function.update_of_ne (Ne.symm hk), hops, Keyed.part_cons_other hk]
        exact (List.append_nil _).symm

/-- The groups are the operations of each key, in the order of the keys. -/
theorem partition_eq (history : List Operation) : ∃ keys : List Bytes, keys.Pairwise (· < ·) ∧
    (∀ op ∈ history, op.key ∈ keys) ∧
    partition history = keys.map fun k => Keyed.part Operation.key k history := by
  obtain ⟨hnodup, hkeys, hops⟩ := Groups.fold_spec history
  refine ⟨(history.foldl Groups.add {}).keys.insertionSort (· ≤ ·), ?_, fun op hop => ?_, ?_⟩
  · have hsorted := List.pairwise_insertionSort (· ≤ ·) (history.foldl Groups.add {}).keys
    have hdistinct := (List.perm_insertionSort (· ≤ ·) _).nodup_iff.mpr hnodup
    exact (hsorted.and hdistinct).imp fun h => lt_of_le_of_ne h.1 h.2
  · exact (List.mem_insertionSort _).mpr (hkeys op hop)
  · exact List.map_congr_left fun k _ => hops k

/-! ## The registers and the map -/

/-- What a register says of its key. -/
def KeyState.value (st : KeyState) : Option Bytes := if st.present then some st.val else none

/-- The map is what the registers say. -/
def Reads (τ : Bytes → KeyState) (σ : Store) : Prop := ∀ k, (τ k).value = σ k

/-- One operation on the registers is one on the map. -/
theorem Reads.step {τ : Bytes → KeyState} {σ : Store} (h : Reads τ σ) (op : Operation) :
    let r := Keyed.together Operation.key
      (fun st (op : Operation) => Linearizability.step st op.input op.output) τ op
    r.1 = (σ.step op).1 ∧ Reads r.2 (σ.step op).2 := by
  have hwrite : ∀ st : KeyState, Reads (Function.update τ op.key st)
      (Function.update σ op.key st.value) := by
    intro st k
    by_cases hk : k = op.key
    · subst hk
      rw [Function.update_self, Function.update_self]
    · rw [Function.update_of_ne hk, Function.update_of_ne hk]
      exact h k
  have hkeep : Function.update τ op.key (τ op.key) = τ := Function.update_eq_self _ _
  cases hop : op.input.op with
  | put =>
    simp only [Keyed.together, Linearizability.step, Store.step, hop]
    exact ⟨trivial, hwrite { present := true, val := op.input.value }⟩
  | delete =>
    simp only [Keyed.together, Linearizability.step, Store.step, hop]
    exact ⟨trivial, hwrite {}⟩
  | unknown name =>
    simp only [Keyed.together, Linearizability.step, Store.step, hop, hkeep]
    exact ⟨trivial, h⟩
  | get =>
    simp only [Keyed.together, Linearizability.step, Store.step, hop]
    rw [← h op.key, KeyState.value]
    cases hp : (τ op.key).present with
    | false =>
      simp only [Bool.not_false, if_true, Bool.false_eq_true, if_false, hkeep]
      exact ⟨rfl, h⟩
    | true =>
      simp only [Bool.not_true, if_true, Bool.false_eq_true, if_false, hkeep]
      exact ⟨rfl, h⟩

/-- A history is legal if every register takes the operations of its key. -/
theorem legal_iff (history : List Operation) :
    legal history = true ↔ ∀ k, accepts init (Keyed.part Operation.key k history) = true := by
  have hreads : Reads (fun _ => init) (fun _ => none) := fun _ => rfl
  rw [legal, ← Keyed.accepts_congr (R := Reads) (fun τ σ op h => h.step op) hreads history,
    Keyed.accepts_together]
  rfl

/-- **The groups of a history are accepted exactly if the history is legal for the whole map, and they
    are the history**: every operation is in them once, and each group keeps the order. -/
theorem per_key_check_exact (history : List Operation) :
    (legal history = true ↔ ∀ group ∈ partition history, accepts init group = true) ∧
    (partition history).flatten.Perm history ∧
    (∀ group ∈ partition history, group.Sublist history ∧
      ∃ k, ∀ op, op ∈ group ↔ op ∈ history ∧ op.key = k) := by
  obtain ⟨keys, hsorted, hkeys, hpart⟩ := partition_eq history
  have hmem : ∀ group, group ∈ partition history ↔
      ∃ k ∈ keys, Keyed.part Operation.key k history = group := by
    intro group
    rw [hpart, List.mem_map]
  refine ⟨?_, ?_, fun group hgroup => ?_⟩
  · rw [legal_iff]
    constructor
    · intro hall group hgroup
      obtain ⟨k, -, rfl⟩ := (hmem group).mp hgroup
      exact hall k
    · intro hall k
      by_cases hk : k ∈ keys
      · exact hall _ ((hmem _).mpr ⟨k, hk, rfl⟩)
      · -- a key of no operation has an empty part
        have hnone : Keyed.part Operation.key k history = [] :=
          List.filter_eq_nil_iff.mpr fun op hop => by
            rw [decide_eq_true_eq]
            exact fun heq => hk (heq ▸ hkeys op hop)
        rw [hnone]
        rfl
  · rw [hpart, ← List.flatMap_def]
    exact Keyed.flatMap_part_perm (hsorted.imp fun h => ne_of_lt h) hkeys
  · obtain ⟨k, -, rfl⟩ := (hmem group).mp hgroup
    refine ⟨List.filter_sublist, k, fun op => ?_⟩
    rw [Keyed.part, List.mem_filter, decide_eq_true_eq]

end Linearizability
end DistKV
