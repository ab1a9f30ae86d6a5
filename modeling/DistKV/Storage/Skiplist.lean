import DistKV.Storage.Engine

/-!
# `storage/memtable.go` — the skiplist

`Engine.lean` takes the memtable for a sorted run. Here it is what the source has: nodes in memory
with a slice of pointers each, one pointer for every level the node is on. A pointer is the position
of its node in `heap`, where the head is the first. What would be a panic of the source, an index
outside of a slice, is `none`, and so is a loop that needs more rounds than there are nodes.

`SkiplistRefines.lean` shows that it does what the sorted run does. The lemmas here say which links
an assignment changes.
-/

namespace DistKV
namespace Storage

def maxHeight : Nat := 12

/-! ## The data -/

structure SkipNode where
  key : Bytes := []
  value : Bytes := []
  tombstone : Bool := false
  /-- A pointer for each level, `none` for nil. -/
  next : List (Option Nat)
  deriving DecidableEq, Repr

def SkipNode.entry (n : SkipNode) : KvEntry :=
  { key := n.key, value := n.value, tombstone := n.tombstone }

structure Skiplist where
  heap : List SkipNode
  size : Int := 0
  count : Nat := 0
  deriving DecidableEq, Repr

def newMemtable : Skiplist := { heap := [{ next := List.replicate maxHeight none }] }

/-- What `randomHeight` can return. -/
def Height : Type := { h : Nat // 1 ≤ h ∧ h ≤ maxHeight }

/-- The loop of `randomHeight`, from `h` on: `intn` are the results of `rand.Intn(4)`. -/
def grow (intn : Nat → Nat) : Nat → Nat → Nat
  | 0, h => h
  | room + 1, h => if intn h = 0 then grow intn room (h + 1) else h

theorem grow_bounds (intn : Nat → Nat) (room h : Nat) :
    h ≤ grow intn room h ∧ grow intn room h ≤ h + room := by
  induction room generalizing h with
  | zero => exact ⟨Nat.le_refl _, Nat.le_refl _⟩
  | succ room ih =>
    rw [grow]
    split
    · obtain ⟨hlow, hhigh⟩ := ih (h + 1)
      omega
    · omega

def randomHeight (intn : Nat → Nat) : Height :=
  ⟨grow intn (maxHeight - 1) 1, grow_bounds intn (maxHeight - 1) 1⟩

namespace Skiplist

/-! ## Reading and writing through pointers -/

/-- `x.next[i]`. -/
def nextOf (heap : List SkipNode) (x i : Nat) : Option (Option Nat) :=
  (heap[x]?).bind fun n => n.next[i]?

/-- `x.next[i] = v`. -/
def setNext (heap : List SkipNode) (x i : Nat) (v : Option Nat) : Option (List SkipNode) :=
  (heap[x]?).bind fun n =>
    if i < n.next.length then some (heap.set x { n with next := n.next.set i v }) else none

/-! ## Searching -/

/-- The inner loop: along one level as long as the next key is smaller. -/
def walk (heap : List SkipNode) (key : Bytes) (i : Nat) : Nat → Nat → Option Nat
  | 0, _ => none
  | fuel + 1, x =>
    match nextOf heap x i with
    | none => none
    | some none => some x
    | some (some y) =>
      match heap[y]? with
      | none => none
      | some n => if n.key < key then walk heap key i fuel y else some x

/-- The outer loop, from level `i - 1` down; the result is `update`, with level 0 first. `get` runs
    the same loops and keeps only the node they end at. -/
def descend (heap : List SkipNode) (key : Bytes) : Nat → Nat → Option (List Nat)
  | 0, _ => some []
  | i + 1, x =>
    (walk heap key i heap.length x).bind fun x => (descend heap key i x).map fun update => update ++ [x]

/-- The node at `x.next[0]`, with its address, if it has the key. -/
def hit (heap : List SkipNode) (x : Nat) (key : Bytes) : Option (Option (Nat × SkipNode)) :=
  (nextOf heap x 0).bind fun next =>
    match next with
    | none => some none
    | some y => (heap[y]?).map fun n => if n.key = key then some (y, n) else none

/-- The entry with the key, tombstone or not. -/
def get (m : Skiplist) (key : Bytes) : Option (Option KvEntry) :=
  (descend m.heap key maxHeight 0).bind fun update =>
    (update[0]?).bind fun x =>
      (hit m.heap x key).map fun found => found.map fun q => q.2.entry

/-! ## Writing -/

/-- One round of the loop that links the new node in. -/
def spliceAt (n : Nat) (update : List Nat) (heap : List SkipNode) (i : Nat) :
    Option (List SkipNode) :=
  (update[i]?).bind fun u =>
    (nextOf heap u i).bind fun v =>
      (setNext heap n i v).bind fun heap => setNext heap u i (some n)

def put (m : Skiplist) (key value : Bytes) (tombstone : Bool) (h : Height) : Option Skiplist :=
  (descend m.heap key maxHeight 0).bind fun update =>
    (update[0]?).bind fun x =>
      (hit m.heap x key).bind fun found =>
        match found with
        | some (y, n) =>
          some { m with heap := m.heap.set y { n with value := value, tombstone := tombstone }
                        size := m.size + (value.length - n.value.length) }
        | none =>
          let n := { key, value, tombstone, next := List.replicate h.1 none }
          ((List.range h.1).foldlM (spliceAt m.heap.length update) (m.heap ++ [n])).map fun heap =>
            { heap, size := m.size + (key.length + value.length + 32), count := m.count + 1 }

/-! ## Listing -/

/-- The nodes from a pointer on, along one level. -/
def follow (heap : List SkipNode) (i : Nat) : Nat → Option Nat → Option (List (Nat × KvEntry))
  | _, none => some []
  | 0, some _ => none
  | fuel + 1, some x =>
    (heap[x]?).bind fun n =>
      (n.next[i]?).bind fun next =>
        (follow heap i fuel next).map fun rest => (x, n.entry) :: rest

/-- The nodes of a level, with their addresses. -/
def level (m : Skiplist) (i : Nat) : Option (List (Nat × KvEntry)) :=
  (nextOf m.heap 0 i).bind fun first => follow m.heap i m.heap.length first

/-- All entries in key order: the loop along the lowest level. -/
def entries (m : Skiplist) : Option (List KvEntry) := (m.level 0).map fun l => l.map Prod.snd

def approxSize (m : Skiplist) : Int := m.size

/-! ## Links that change and entries that do not -/

section Frame

variable {heap heap' : List SkipNode} {x y i j : Nat} {v : Option Nat}

theorem nextOf_eq_some :
    nextOf heap x i = some v ↔ ∃ n, heap[x]? = some n ∧ n.next[i]? = some v := Option.bind_eq_some_iff

/-- The same nodes with the same heights, on other links perhaps. -/
def Agrees (heap heap' : List SkipNode) : Prop :=
  heap'.length = heap.length ∧ ∀ (p : Nat) (n : SkipNode), heap[p]? = some n →
    ∃ n' : SkipNode, heap'[p]? = some n' ∧ n'.entry = n.entry ∧ n'.next.length = n.next.length

theorem Agrees.refl (heap : List SkipNode) : Agrees heap heap :=
  ⟨rfl, fun _ n hn => ⟨n, hn, rfl, rfl⟩⟩

theorem Agrees.trans {heap'' : List SkipNode} (h : Agrees heap heap') (h' : Agrees heap' heap'') :
    Agrees heap heap'' := by
  refine ⟨h'.1.trans h.1, fun p n hn => ?_⟩
  obtain ⟨n', hn', hentry, hheight⟩ := h.2 p n hn
  obtain ⟨n'', hn'', hentry', hheight'⟩ := h'.2 p n' hn'
  exact ⟨n'', hn'', hentry'.trans hentry, hheight'.trans hheight⟩

/-- An assignment to a link that is there changes this link and nothing else. -/
theorem setNext_spec {w : Option Nat} (h : nextOf heap x i = some w) (v : Option Nat) :
    ∃ heap', setNext heap x i v = some heap' ∧ Agrees heap heap' ∧ nextOf heap' x i = some v ∧
      ∀ y j, y ≠ x ∨ j ≠ i → nextOf heap' y j = nextOf heap y j := by
  obtain ⟨n, hn, hi⟩ := nextOf_eq_some.mp h
  have hlt : i < n.next.length := (List.getElem?_eq_some_iff.mp hi).1
  have hx : x < heap.length := (List.getElem?_eq_some_iff.mp hn).1
  have hset : (heap.set x { n with next := n.next.set i v })[x]? =
      some { n with next := n.next.set i v } := List.getElem?_set_self hx
  refine ⟨heap.set x { n with next := n.next.set i v }, ?_, ⟨List.length_set, ?_⟩, ?_, ?_⟩
  · rw [setNext, hn, Option.bind_some, if_pos hlt]
  · intro p q hq
    by_cases hp : p = x
    · subst hp
      rw [hn] at hq
      cases hq
      exact ⟨_, hset, rfl, List.length_set⟩
    · exact ⟨q, by rw [List.getElem?_set_ne (Ne.symm hp), hq], rfl, rfl⟩
  · rw [nextOf, hset, Option.bind_some]
    exact List.getElem?_set_self hlt
  · intro y j hother
    by_cases hy : y = x
    · subst hy
      have hj : j ≠ i := hother.resolve_left fun hne => hne rfl
      rw [nextOf, nextOf, hset, hn, Option.bind_some, Option.bind_some]
      exact List.getElem?_set_ne (Ne.symm hj)
    · rw [nextOf, nextOf, List.getElem?_set_ne (Ne.symm hy)]

/-- A round of the insertion, on a level where both nodes are. -/
theorem spliceAt_spec {n u : Nat} {update : List Nat} {w : Option Nat} (hu : update[i]? = some u)
    (hv : nextOf heap u i = some v) (hw : nextOf heap n i = some w) (hne : u ≠ n) :
    ∃ heap', spliceAt n update heap i = some heap' ∧ Agrees heap heap' ∧ nextOf heap' n i = some v ∧
      nextOf heap' u i = some (some n) ∧
      ∀ y j, (y ≠ u ∧ y ≠ n) ∨ j ≠ i → nextOf heap' y j = nextOf heap y j := by
  obtain ⟨heap₁, hset₁, hagree₁, hself₁, hother₁⟩ := setNext_spec hw v
  have hu₁ : nextOf heap₁ u i = some v := by rw [hother₁ u i (Or.inl hne), hv]
  obtain ⟨heap₂, hset₂, hagree₂, hself₂, hother₂⟩ := setNext_spec hu₁ (some n)
  refine ⟨heap₂, ?_, hagree₁.trans hagree₂, ?_, hself₂, fun y j hother => ?_⟩
  · rw [spliceAt, hu, Option.bind_some, hv, Option.bind_some, hset₁, Option.bind_some, hset₂]
  · rw [hother₂ n i (Or.inl (Ne.symm hne)), hself₁]
  · rw [hother₂ y j (hother.imp And.left id), hother₁ y j (hother.imp And.right id)]

end Frame

end Skiplist

end Storage
end DistKV
