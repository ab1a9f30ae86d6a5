import Mathlib.Algebra.Ring.Int.Defs
import DistKV.Lib.Links
import DistKV.Storage.EngineRefines
import DistKV.Storage.Skiplist

/-!
# The skiplist is a sorted run

A run of nodes in the order of their keys, each with its height, determines all the links: on a
level stand those that are high enough, in this order (`Holds`). Searching finds the same place in
this run on every level (`descend_spec`), and so `put` and `get` are those of the sorted run
(`put_refines`, `Refines.get`), whatever the heights are.
-/

namespace DistKV
namespace Storage

open Links SortedRun

/-! ## Towers -/

/-- A node as it stands in the list: its address, what it holds, and on how many levels it is. -/
structure Tower where
  ptr : Nat
  entry : KvEntry
  height : Nat

/-- The addresses of the nodes that reach a level. -/
def onLevel (i : Nat) (ts : List Tower) : List Nat :=
  (ts.filter fun t => decide (i < t.height)).map Tower.ptr

theorem onLevel_append (i : Nat) (as bs : List Tower) :
    onLevel i (as ++ bs) = onLevel i as ++ onLevel i bs := by
  rw [onLevel, List.filter_append, List.map_append]
  rfl

theorem onLevel_cons (i : Nat) (t : Tower) (ts : List Tower) :
    onLevel i (t :: ts) = if i < t.height then t.ptr :: onLevel i ts else onLevel i ts := by
  rw [onLevel, List.filter_cons]
  by_cases h : i < t.height
  · rw [if_pos (decide_eq_true h), if_pos h, List.map_cons]
    rfl
  · rw [if_neg (by rw [decide_eq_true_eq]; exact h), if_neg h]
    rfl

theorem mem_onLevel {i p : Nat} {ts : List Tower} :
    p ∈ onLevel i ts ↔ ∃ t ∈ ts, i < t.height ∧ t.ptr = p := by
  rw [onLevel, List.mem_map]
  constructor
  · rintro ⟨t, ht, hp⟩
    obtain ⟨hmem, hheight⟩ := List.mem_filter.mp ht
    exact ⟨t, hmem, decide_eq_true_eq.mp hheight, hp⟩
  · rintro ⟨t, hmem, hheight, hp⟩
    exact ⟨t, List.mem_filter.mpr ⟨hmem, decide_eq_true hheight⟩, hp⟩

/-- Who is on a level is on those below. -/
theorem onLevel_mono {i j p : Nat} {ts : List Tower} (hij : i ≤ j) (h : p ∈ onLevel j ts) :
    p ∈ onLevel i ts := by
  obtain ⟨t, ht, hheight, hp⟩ := mem_onLevel.mp h
  exact mem_onLevel.mpr ⟨t, ht, Nat.lt_of_le_of_lt hij hheight, hp⟩

/-- A node of the memory is the tower. -/
def Stands (heap : List SkipNode) (t : Tower) : Prop :=
  ∃ n, heap[t.ptr]? = some n ∧ n.entry = t.entry ∧ n.next.length = t.height

theorem Stands.key {heap : List SkipNode} {t : Tower} (h : Stands heap t) :
    ∃ n : SkipNode, heap[t.ptr]? = some n ∧ n.key = t.entry.key := by
  obtain ⟨n, hn, hentry, -⟩ := h
  exact ⟨n, hn, by rw [← hentry]; rfl⟩

/-- The memory holds these towers, in the order of their keys, linked on every level. -/
structure Holds (heap : List SkipNode) (ts : List Tower) : Prop where
  length : heap.length = ts.length + 1
  node : ∀ t ∈ ts, Stands heap t
  ptr : (0 :: ts.map Tower.ptr).Nodup
  height : ∀ t ∈ ts, 1 ≤ t.height ∧ t.height ≤ maxHeight
  sorted : Increasing (fun t => t.entry.key) ts
  links : ∀ i < maxHeight, Linked (fun x v => Skiplist.nextOf heap x i = some v) 0 (onLevel i ts)

/-! ## Searching -/

theorem getLastD_append_cons {α : Type} (z x : α) (as bs : List α) :
    (as ++ x :: bs).getLastD z = bs.getLastD x := by
  induction as generalizing z with
  | nil => rw [List.nil_append, List.getLastD_cons]
  | cons a as ih => rw [List.cons_append, List.getLastD_cons, ih]

section Search

variable {heap : List SkipNode} {key : Bytes}

/-- The inner loop goes to the last node in front of the key. -/
theorem walk_along {i x fuel : Nat} {as bs : List Nat}
    (hlinks : Linked (fun x v => Skiplist.nextOf heap x i = some v) x (as ++ bs))
    (hbelow : ∀ a ∈ as, ∃ n, heap[a]? = some n ∧ n.key < key)
    (habove : ∀ b, bs.head? = some b → ∃ n, heap[b]? = some n ∧ ¬n.key < key)
    (hfuel : as.length < fuel) : Skiplist.walk heap key i fuel x = some (as.getLastD x) := by
  induction as generalizing x fuel with
  | nil =>
    cases fuel with
    | zero => cases hfuel
    | succ fuel =>
      have hnext := hlinks.first
      rw [List.nil_append] at hnext
      rw [Skiplist.walk, hnext]
      cases bs with
      | nil => rfl
      | cons b bs =>
        obtain ⟨n, hn, hkey⟩ := habove b rfl
        simp only [List.head?_cons, hn, if_neg hkey]
        rfl
  | cons a as ih =>
    cases fuel with
    | zero => cases hfuel
    | succ fuel =>
      obtain ⟨n, hn, hkey⟩ := hbelow a List.mem_cons_self
      rw [Skiplist.walk, hlinks.1]
      simp only [hn, if_pos hkey]
      rw [List.getLastD_cons]
      exact ih hlinks.2 (fun b hb => hbelow b (List.mem_cons_of_mem _ hb))
        (Nat.lt_of_succ_lt_succ hfuel)

/-- It may start at any node in front of the key. -/
theorem walk_from {i x fuel : Nat} {as bs : List Nat}
    (hlinks : Linked (fun x v => Skiplist.nextOf heap x i = some v) 0 (as ++ bs))
    (hbelow : ∀ a ∈ as, ∃ n, heap[a]? = some n ∧ n.key < key)
    (habove : ∀ b, bs.head? = some b → ∃ n, heap[b]? = some n ∧ ¬n.key < key)
    (hfuel : as.length < fuel) (hx : x ∈ 0 :: as) :
    Skiplist.walk heap key i fuel x = some (as.getLastD 0) := by
  rcases List.mem_cons.mp hx with rfl | hx
  · exact walk_along hlinks hbelow habove hfuel
  · obtain ⟨front, rest, rfl⟩ := List.append_of_mem hx
    have hsplit : front ++ x :: rest ++ bs = (front ++ [x]) ++ (rest ++ bs) := by simp
    rw [hsplit] at hlinks
    have hback := hlinks.behind
    rw [getLastD_append_cons, List.getLastD_nil] at hback
    rw [getLastD_append_cons]
    refine walk_along hback (fun a ha => hbelow a ?_) habove ?_
    · exact List.mem_append_right _ (List.mem_cons_of_mem _ ha)
    · rw [List.length_append, List.length_cons] at hfuel
      omega

variable {as bs : List Tower}

/-- The node in front of the key on each level. -/
def preds (as : List Tower) (n : Nat) : List Nat :=
  (List.range n).map fun i => (onLevel i as).getLastD 0

/-- The outer loop finds the last node in front of the key on every level. -/
theorem descend_spec (h : Holds heap (as ++ bs)) (hbelow : ∀ a ∈ as, a.entry.key < key)
    (habove : ∀ b ∈ bs, ¬b.entry.key < key) {n : Nat} (hn : n ≤ maxHeight) {x : Nat}
    (hx : x = 0 ∨ ∃ j, n ≤ j ∧ x ∈ onLevel j as) :
    Skiplist.descend heap key n x = some (preds as n) := by
  induction n generalizing x with
  | zero => rfl
  | succ n ih =>
    have hlinks := h.links n hn
    rw [onLevel_append] at hlinks
    have hlow : ∀ p ∈ onLevel n as, ∃ q, heap[p]? = some q ∧ q.key < key := by
      intro p hp
      obtain ⟨t, ht, -, rfl⟩ := mem_onLevel.mp hp
      obtain ⟨q, hq, hkey⟩ := (h.node t (List.mem_append_left _ ht)).key
      exact ⟨q, hq, hkey ▸ hbelow t ht⟩
    have hhigh : ∀ p, (onLevel n bs).head? = some p → ∃ q, heap[p]? = some q ∧ ¬q.key < key := by
      intro p hp
      obtain ⟨t, ht, -, rfl⟩ := mem_onLevel.mp (List.mem_of_head? hp)
      obtain ⟨q, hq, hkey⟩ := (h.node t (List.mem_append_right _ ht)).key
      exact ⟨q, hq, hkey ▸ habove t ht⟩
    have hfuel : (onLevel n as).length < heap.length := by
      have hle : (onLevel n as).length ≤ as.length := by
        rw [onLevel, List.length_map]
        exact List.length_filter_le _ _
      rw [h.length, List.length_append]
      omega
    have hstart : x ∈ 0 :: onLevel n as := by
      rcases hx with rfl | ⟨j, hj, hx⟩
      · exact List.mem_cons_self
      · exact List.mem_cons_of_mem _ (onLevel_mono (Nat.le_of_succ_le hj) hx)
    have hnext : (onLevel n as).getLastD 0 = 0 ∨
        ∃ j, n ≤ j ∧ (onLevel n as).getLastD 0 ∈ onLevel j as := by
      rcases List.mem_cons.mp (getLastD_mem 0 (onLevel n as)) with hzero | hmem
      · exact .inl hzero
      · exact .inr ⟨n, Nat.le_refl n, hmem⟩
    rw [Skiplist.descend, walk_from hlinks hlow hhigh hfuel hstart, Option.bind_some,
      ih (Nat.le_of_succ_le hn) hnext, Option.map_some, preds, preds, List.range_succ,
      List.map_append]
    rfl

/-- Where the descent ends: the next node has the key, or all that follow have larger ones. -/
theorem hit_spec (h : Holds heap (as ++ bs)) (habove : ∀ b ∈ bs, ¬b.entry.key < key) :
    (∃ t rest n, bs = t :: rest ∧ t.entry.key = key ∧ heap[t.ptr]? = some n ∧ n.entry = t.entry ∧
      Skiplist.hit heap ((onLevel 0 as).getLastD 0) key = some (some (t.ptr, n))) ∨
    (∀ b ∈ bs, key < b.entry.key) ∧
      Skiplist.hit heap ((onLevel 0 as).getLastD 0) key = some none := by
  have hlinks := h.links 0 (by decide)
  rw [onLevel_append] at hlinks
  have hnext := hlinks.behind.first
  cases bs with
  | nil =>
    refine Or.inr ⟨List.forall_mem_nil _, ?_⟩
    rw [Skiplist.hit, hnext]
    rfl
  | cons t rest =>
    have hmem : t ∈ as ++ t :: rest := List.mem_append_right _ List.mem_cons_self
    have hheight : 0 < t.height := (h.height t hmem).1
    obtain ⟨n, hn, hentry, -⟩ := h.node t hmem
    have hkey : n.key = t.entry.key := by
      rw [← hentry]
      rfl
    rw [onLevel_cons, if_pos hheight, List.head?_cons] at hnext
    rw [Skiplist.hit, hnext, Option.bind_some]
    simp only [hn, Option.map_some, hkey]
    by_cases heq : t.entry.key = key
    · exact Or.inl ⟨t, rest, n, rfl, heq, hn, hentry, by rw [if_pos heq]⟩
    · refine Or.inr ⟨?_, by rw [if_neg heq]⟩
      have hlt : key < t.entry.key :=
        lt_of_le_of_ne (le_of_not_gt (habove t List.mem_cons_self)) (Ne.symm heq)
      have hsorted := (List.pairwise_append.mp h.sorted).2.1
      refine List.forall_mem_cons.mpr ⟨hlt, fun b hb => ?_⟩
      exact lt_trans hlt ((List.pairwise_cons.mp hsorted).1 b hb)

theorem preds_zero (as : List Tower) : (preds as maxHeight)[0]? = some ((onLevel 0 as).getLastD 0) := rfl

/-- A lookup answers as the run of the entries does. -/
theorem Holds.get {m : Skiplist} {ts : List Tower} (h : Holds m.heap ts) (key : Bytes) :
    m.get key = some (find KvEntry.key key (ts.map Tower.entry)) := by
  obtain ⟨as, bs, rfl, hbelow, habove⟩ := exists_split h.sorted key
  have hfront : ∀ e ∈ as.map Tower.entry, e.key < key := by
    intro e he
    obtain ⟨a, ha, rfl⟩ := List.mem_map.mp he
    exact hbelow a ha
  rw [Skiplist.get, descend_spec h hbelow habove (Nat.le_refl _) (Or.inl rfl), Option.bind_some,
    preds_zero, Option.bind_some, List.map_append, find_append hfront]
  rcases hit_spec h habove with ⟨t, rest, n, rfl, hkey, -, hentry, hhit⟩ | ⟨hlarger, hhit⟩
  · rw [hhit, List.map_cons, find, hkey, if_neg (lt_irrefl _), if_pos rfl, ← hentry]
    rfl
  · rw [hhit]
    cases bs with
    | nil => rfl
    | cons b bs =>
      have hb := hlarger b List.mem_cons_self
      rw [List.map_cons, find, if_neg (not_lt_of_gt hb), if_neg (ne_of_gt hb)]
      rfl

end Search

/-! ## Overwriting and inserting -/

section Put

variable {heap : List SkipNode} {as bs : List Tower} {t : Tower}

theorem Holds.ptr_lt {ts : List Tower} (h : Holds heap ts) {t : Tower} (ht : t ∈ ts) :
    t.ptr < heap.length := by
  obtain ⟨n, hn, -⟩ := h.node t ht
  exact (List.getElem?_eq_some_iff.mp hn).1

/-- A node that is written in place keeps its links. -/
theorem nextOf_set {n n' : SkipNode} {p : Nat} (hn : heap[p]? = some n) (hnext : n'.next = n.next)
    (x i : Nat) : Skiplist.nextOf (heap.set p n') x i = Skiplist.nextOf heap x i := by
  by_cases hx : x = p
  · subst hx
    rw [Skiplist.nextOf, Skiplist.nextOf, List.getElem?_set_self (List.getElem?_eq_some_iff.mp hn).1,
      hn, Option.bind_some, Option.bind_some, hnext]
  · rw [Skiplist.nextOf, Skiplist.nextOf, List.getElem?_set_ne (Ne.symm hx)]

/-- The same key with another value. -/
theorem Holds.overwrite (h : Holds heap (as ++ t :: bs)) {n : SkipNode}
    (hn : heap[t.ptr]? = some n) (n' : SkipNode) (hnext : n'.next = n.next) (hkey : n'.key = t.entry.key) :
    Holds (heap.set t.ptr n') (as ++ { t with entry := n'.entry } :: bs) := by
  have hptrs : (as ++ { t with entry := n'.entry } :: bs).map Tower.ptr =
      (as ++ t :: bs).map Tower.ptr := by
    rw [List.map_append, List.map_append, List.map_cons, List.map_cons]
  have hmem : t ∈ as ++ t :: bs := List.mem_append_right _ List.mem_cons_self
  have hlevels : ∀ i, onLevel i (as ++ { t with entry := n'.entry } :: bs) =
      onLevel i (as ++ t :: bs) := by
    intro i
    rw [onLevel_append, onLevel_append, onLevel_cons, onLevel_cons]
  have hothers : ∀ x ∈ as ++ bs, Stands (heap.set t.ptr n') x := by
    intro x hx
    have hnodup := (List.nodup_cons.mp h.ptr).2
    rw [List.map_append, List.map_cons, List.nodup_middle, List.nodup_cons, ← List.map_append] at hnodup
    have hne : x.ptr ≠ t.ptr := fun heq => hnodup.1 (heq ▸ List.mem_map_of_mem hx)
    have hold : x ∈ as ++ t :: bs := by
      rcases List.mem_append.mp hx with hx | hx
      · exact List.mem_append_left _ hx
      · exact List.mem_append_right _ (List.mem_cons_of_mem _ hx)
    obtain ⟨q, hq, hstands⟩ := h.node x hold
    exact ⟨q, by rw [List.getElem?_set_ne (Ne.symm hne), hq], hstands⟩
  refine ⟨?_, ?_, ?_, ?_, ?_, ?_⟩
  · rw [List.length_set, h.length, List.length_append, List.length_append, List.length_cons,
      List.length_cons]
  · intro x hx
    rcases List.mem_append.mp hx with hx | hx
    · exact hothers x (List.mem_append_left _ hx)
    rcases List.mem_cons.mp hx with rfl | hx
    · obtain ⟨q, hq, -, hheight⟩ := h.node t hmem
      rw [hn] at hq
      cases hq
      exact ⟨n', List.getElem?_set_self (h.ptr_lt hmem), rfl, by rw [hnext]; exact hheight⟩
    · exact hothers x (List.mem_append_right _ hx)
  · rw [hptrs]
    exact h.ptr
  · intro x hx
    rcases List.mem_append.mp hx with hx | hx
    · exact h.height x (List.mem_append_left _ hx)
    rcases List.mem_cons.mp hx with rfl | hx
    · exact h.height t hmem
    · exact h.height x (List.mem_append_right _ (List.mem_cons_of_mem _ hx))
  · have hkeys : (as ++ { t with entry := n'.entry } :: bs).map (fun x => x.entry.key) =
        (as ++ t :: bs).map fun x => x.entry.key := by
      rw [List.map_append, List.map_append, List.map_cons, List.map_cons]
      simp only [SkipNode.entry, hkey]
    have hsorted := List.pairwise_map.mpr h.sorted
    rw [← hkeys] at hsorted
    exact List.pairwise_map.mp hsorted
  · intro i hi
    rw [hlevels]
    refine (h.links i hi).mono fun y _ v hv => ?_
    rw [nextOf_set hn hnext, hv]

/-- The chain of one level, as `links` has it. -/
abbrev Chain (heap : List SkipNode) (i : Nat) (ps : List Nat) : Prop :=
  Linked (fun x v => Skiplist.nextOf heap x i = some v) 0 ps

theorem Chain.congr {heap heap' : List SkipNode} {i : Nat} {ps : List Nat} (h : Chain heap i ps)
    (hnext : ∀ y, Skiplist.nextOf heap' y i = Skiplist.nextOf heap y i) : Chain heap' i ps :=
  Linked.mono h fun y _ v hv => by rw [hnext, hv]

/-- The insertion after some rounds: below the level it has come to the new node is linked in. -/
structure Spliced (heap : List SkipNode) (n : Nat) (as bs : List Tower) (h j : Nat)
    (heap' : List SkipNode) : Prop where
  agrees : Skiplist.Agrees heap heap'
  done : ∀ i < j, Chain heap' i (onLevel i as ++ n :: onLevel i bs)
  left : ∀ i, j ≤ i → i < maxHeight → Chain heap' i (onLevel i as ++ onLevel i bs)
  loose : ∀ i, j ≤ i → i < h → Skiplist.nextOf heap' n i = some none

theorem onLevel_sublist (i : Nat) (ts : List Tower) : (onLevel i ts).Sublist (ts.map Tower.ptr) :=
  List.filter_sublist.map _

/-- The address of a new node is on no level. -/
theorem Holds.fresh {ts : List Tower} (h : Holds heap ts) (i : Nat) :
    heap.length ∉ 0 :: onLevel i ts := by
  intro hmem
  rcases List.mem_cons.mp hmem with hzero | hmem
  · have hlength := h.length
    omega
  · obtain ⟨t, ht, -, heq⟩ := mem_onLevel.mp hmem
    have hlt := h.ptr_lt ht
    omega

theorem spliceAt_round (h : Holds heap (as ++ bs)) {heap₀ heap₁ : List SkipNode} {height j : Nat}
    (hj : j < height) (hheight : height ≤ maxHeight)
    (hs : Spliced heap₀ heap.length as bs height j heap₁) :
    ∃ heap₂, Skiplist.spliceAt heap.length (preds as maxHeight) heap₁ j = some heap₂ ∧
      Spliced heap₀ heap.length as bs height (j + 1) heap₂ := by
  have hjmax : j < maxHeight := Nat.lt_of_lt_of_le hj hheight
  have hchain := hs.left j (Nat.le_refl j) hjmax
  have hfresh := h.fresh j
  rw [onLevel_append] at hfresh
  have hnodup : (0 :: (onLevel j as ++ onLevel j bs)).Nodup := by
    rw [← onLevel_append]
    exact h.ptr.sublist ((onLevel_sublist j _).cons_cons 0)
  have hu : (preds as maxHeight)[j]? = some ((onLevel j as).getLastD 0) := by
    rw [preds, List.getElem?_map, List.getElem?_range hjmax]
    rfl
  have hne : (onLevel j as).getLastD 0 ≠ heap.length := by
    intro heq
    have hlast := getLastD_mem 0 (onLevel j as)
    rw [heq] at hlast
    rw [← List.cons_append] at hfresh
    exact hfresh (List.mem_append_left _ hlast)
  obtain ⟨heap₂, hsplice, hagrees, hself, hback, hother⟩ :=
    Skiplist.spliceAt_spec hu hchain.behind.first (hs.loose j (Nat.le_refl j) hj) hne
  refine ⟨heap₂, hsplice, hs.agrees.trans hagrees, fun i hi => ?_, fun i hi himax => ?_,
    fun i hi hih => ?_⟩
  · rcases Nat.lt_succ_iff_lt_or_eq.mp hi with hlt | rfl
    · exact (hs.done i hlt).congr fun y => hother y i (Or.inr (Nat.ne_of_lt hlt))
    · refine hchain.splice hnodup hfresh (fun y hy hyn v hv => ?_) (fun v hv => ?_) hback
      · rw [hother y i (Or.inl ⟨hy, hyn⟩), hv]
      · have hfirst := hchain.behind.first
        rw [hv] at hfirst
        rw [hself, hfirst]
  · exact (hs.left i (Nat.le_of_succ_le hi) himax).congr fun y =>
      hother y i (Or.inr (Nat.ne_of_gt hi))
  · rw [hother _ i (Or.inr (Nat.ne_of_gt hi)), hs.loose i (Nat.le_of_succ_le hi) hih]

theorem splice_rounds (h : Holds heap (as ++ bs)) {heap₀ : List SkipNode} {height : Nat}
    (hheight : height ≤ maxHeight) (hs : Spliced heap₀ heap.length as bs height 0 heap₀) {j : Nat}
    (hj : j ≤ height) :
    ∃ heap₁, (List.range j).foldlM (Skiplist.spliceAt heap.length (preds as maxHeight)) heap₀ =
        some heap₁ ∧ Spliced heap₀ heap.length as bs height j heap₁ := by
  induction j with
  | zero => exact ⟨heap₀, rfl, hs⟩
  | succ j ih =>
    obtain ⟨heap₁, hrounds, hs₁⟩ := ih (Nat.le_of_succ_le hj)
    obtain ⟨heap₂, hround, hs₂⟩ := spliceAt_round h hj hheight hs₁
    refine ⟨heap₂, ?_, hs₂⟩
    rw [List.range_succ, List.foldlM_append, hrounds]
    simp only [Option.bind_eq_bind, Option.bind_some, List.foldlM_cons, List.foldlM_nil, hround]
    rfl

/-- A new node, on as many levels as it is high. -/
theorem Holds.insert (h : Holds heap (as ++ bs)) (node : SkipNode) (height : Height)
    (hnext : node.next = List.replicate height.1 none) (hbelow : ∀ a ∈ as, a.entry.key < node.key)
    (habove : ∀ b ∈ bs, node.key < b.entry.key) :
    ∃ heap', (List.range height.1).foldlM
        (Skiplist.spliceAt heap.length (preds as maxHeight)) (heap ++ [node]) = some heap' ∧
      Holds heap' (as ++ ⟨heap.length, node.entry, height.1⟩ :: bs) := by
  have hold : ∀ x i v, Skiplist.nextOf heap x i = some v →
      Skiplist.nextOf (heap ++ [node]) x i = some v := by
    intro x i v hv
    obtain ⟨q, hq, hi⟩ := Skiplist.nextOf_eq_some.mp hv
    refine Skiplist.nextOf_eq_some.mpr ⟨q, ?_, hi⟩
    rw [List.getElem?_append_left (List.getElem?_eq_some_iff.mp hq).1, hq]
  have hnew : (heap ++ [node])[heap.length]? = some node := by simp
  have hstart : Spliced (heap ++ [node]) heap.length as bs height.1 0 (heap ++ [node]) := by
    refine ⟨.refl _, fun i hi => absurd hi (Nat.not_lt_zero i), fun i _ hi => ?_, fun i _ hi => ?_⟩
    · rw [← onLevel_append]
      exact (h.links i hi).mono fun y _ v hv => hold y i v hv
    · refine Skiplist.nextOf_eq_some.mpr ⟨node, hnew, ?_⟩
      rw [hnext, List.getElem?_replicate_of_lt hi]
  obtain ⟨heap', hrounds, hs⟩ := splice_rounds h height.2.2 hstart (Nat.le_refl _)
  refine ⟨heap', hrounds, ?_, ?_, ?_, ?_, ?_, ?_⟩
  · rw [hs.agrees.1, List.length_append, h.length, List.length_append, List.length_append]
    rfl
  · -- every node is where it was, the new one behind them
    have hstands : ∀ x : Tower, Stands (heap ++ [node]) x → Stands heap' x := by
      rintro x ⟨q, hq, hentry, hheight⟩
      obtain ⟨q', hq', hentry', hheight'⟩ := hs.agrees.2 _ q hq
      exact ⟨q', hq', hentry'.trans hentry, hheight'.trans hheight⟩
    have hkept : ∀ x ∈ as ++ bs, Stands heap' x := by
      intro x hx
      obtain ⟨q, hq, hq'⟩ := h.node x hx
      refine hstands x ⟨q, ?_, hq'⟩
      rw [List.getElem?_append_left (h.ptr_lt hx), hq]
    intro x hx
    rcases List.mem_append.mp hx with hx | hx
    · exact hkept x (List.mem_append_left _ hx)
    rcases List.mem_cons.mp hx with rfl | hx
    · exact hstands _ ⟨node, hnew, rfl, by rw [hnext, List.length_replicate]⟩
    · exact hkept x (List.mem_append_right _ hx)
  · have hnodup := h.ptr
    rw [List.map_append, ← List.cons_append] at hnodup
    rw [List.map_append, List.map_cons, ← List.cons_append, List.nodup_middle, List.nodup_cons]
    refine ⟨?_, hnodup⟩
    rw [List.cons_append, ← List.map_append]
    intro hmem
    rcases List.mem_cons.mp hmem with hzero | hmem
    · exact h.fresh 0 (hzero ▸ List.mem_cons_self)
    · obtain ⟨x, hx, heq⟩ := List.mem_map.mp hmem
      exact absurd (h.ptr_lt hx) (by rw [heq]; exact Nat.lt_irrefl _)
  · intro x hx
    rcases List.mem_append.mp hx with hx | hx
    · exact h.height x (List.mem_append_left _ hx)
    rcases List.mem_cons.mp hx with rfl | hx
    · exact height.2
    · exact h.height x (List.mem_append_right _ hx)
  · obtain ⟨hfront, hback, hcross⟩ := List.pairwise_append.mp h.sorted
    refine List.pairwise_append.mpr ⟨hfront, List.pairwise_cons.mpr ⟨habove, hback⟩, fun a ha b hb => ?_⟩
    rcases List.mem_cons.mp hb with rfl | hb
    · exact hbelow a ha
    · exact hcross a ha b hb
  · intro i hi
    rw [onLevel_append, onLevel_cons]
    by_cases hlow : i < height.1
    · rw [if_pos hlow]
      exact hs.done i hlow
    · rw [if_neg hlow]
      exact hs.left i (Nat.le_of_not_lt hlow) hi

end Put

/-! ## The skiplist is the sorted run -/

/-- The skiplist holds the nodes of the memtable, with its counters. -/
def Refines (m : Skiplist) (mem : Memtable) : Prop :=
  ∃ ts, Holds m.heap ts ∧ mem.nodes = ts.map Tower.entry ∧ m.size = mem.size ∧ m.count = mem.count

theorem newMemtable_refines : Refines newMemtable {} := by
  refine ⟨[], ⟨rfl, List.forall_mem_nil _, by simp, List.forall_mem_nil _, List.Pairwise.nil, ?_⟩,
    rfl, rfl, rfl⟩
  intro i hi
  refine Skiplist.nextOf_eq_some.mpr ⟨{ next := List.replicate maxHeight none }, rfl, ?_⟩
  exact List.getElem?_replicate_of_lt hi

/-- **One `put`, for every height of the new node.** -/
theorem put_refines {m : Skiplist} {mem : Memtable} (h : Refines m mem) (key value : Bytes)
    (tombstone : Bool) (height : Height) :
    ∃ m', m.put key value tombstone height = some m' ∧ Refines m' (mem.put key value tombstone) := by
  obtain ⟨ts, hts, hnodes, hsize, hcount⟩ := h
  obtain ⟨as, bs, rfl, hbelow, habove⟩ := exists_split hts.sorted key
  have hfront : ∀ e ∈ as.map Tower.entry, e.key < key := by
    intro e he
    obtain ⟨a, ha, rfl⟩ := List.mem_map.mp he
    exact hbelow a ha
  rw [List.map_append] at hnodes
  rw [Skiplist.put, descend_spec hts hbelow habove (Nat.le_refl _) (Or.inl rfl), Option.bind_some,
    preds_zero, Option.bind_some]
  rcases hit_spec hts habove with ⟨t, rest, n, rfl, hkey, hn, hentry, hhit⟩ | ⟨hlarger, hhit⟩
  · -- the key is there
    have hget : mem.get key = some t.entry := by
      rw [Memtable.get, hnodes, find_append hfront, List.map_cons, find, hkey,
        if_neg (lt_irrefl _), if_pos rfl]
    have hnkey : n.key = key := by
      rw [← hkey, ← hentry]
      rfl
    have hvalue : n.value = t.entry.value := by
      rw [← hentry]
      rfl
    have hput : mem.put key value tombstone =
        { mem with nodes := insert KvEntry.key ⟨key, value, tombstone⟩ mem.nodes
                   size := mem.size + (value.length - t.entry.value.length) } := by
      rw [Memtable.put, hget]
    rw [hhit, Option.bind_some, hput]
    refine ⟨_, rfl, _, hts.overwrite hn { n with value := value, tombstone := tombstone } rfl
      (hnkey.trans hkey.symm), ?_, ?_, hcount⟩
    · simp only [hnodes, List.map_append, List.map_cons]
      rw [insert_append hfront, insert_same hkey]
      simp only [SkipNode.entry, hnkey]
    · simp only [hsize, hvalue]
  · -- a new node in front of the larger ones
    have hget : mem.get key = none := by
      rw [Memtable.get, hnodes, find_append hfront]
      cases bs with
      | nil => rfl
      | cons b bs =>
        have hb := hlarger b List.mem_cons_self
        rw [List.map_cons, find, if_neg (not_lt_of_gt hb), if_neg (ne_of_gt hb)]
    have hput : mem.put key value tombstone =
        { nodes := insert KvEntry.key ⟨key, value, tombstone⟩ mem.nodes
          size := mem.size + (key.length + value.length + 32), count := mem.count + 1 } := by
      rw [Memtable.put, hget]
    obtain ⟨heap', hrounds, hholds⟩ := hts.insert
      { key, value, tombstone, next := List.replicate height.1 none } height rfl hbelow hlarger
    rw [hhit, Option.bind_some, hput]
    simp only [hrounds, Option.map_some]
    refine ⟨_, rfl, _, hholds, ?_, ?_, ?_⟩
    · have hback : ∀ e ∈ bs.map Tower.entry, key < e.key := by
        intro e he
        obtain ⟨b, hb, rfl⟩ := List.mem_map.mp he
        exact hlarger b hb
      simp only [hnodes, List.map_append, List.map_cons]
      rw [insert_append hfront, insert_above hback]
      rfl
    · simp only [hsize]
    · simp only [hcount]

theorem Refines.get {m : Skiplist} {mem : Memtable} (h : Refines m mem) (key : Bytes) :
    m.get key = some (mem.get key) := by
  obtain ⟨ts, hts, hnodes, -⟩ := h
  rw [hts.get, Memtable.get, hnodes]

/-! ## What stands on the levels -/

section Levels

variable {heap : List SkipNode}

/-- The loop along a level visits the nodes of its chain. -/
theorem follow_spec {i x fuel : Nat} {ts : List Tower} (hstands : ∀ t ∈ ts, Stands heap t)
    (hlinks : Linked (fun x v => Skiplist.nextOf heap x i = some v) x (ts.map Tower.ptr))
    (hfuel : ts.length ≤ fuel) :
    Skiplist.follow heap i fuel (ts.map Tower.ptr).head? =
      some (ts.map fun t => (t.ptr, t.entry)) := by
  induction ts generalizing x fuel with
  | nil =>
    cases fuel with
    | zero => rfl
    | succ fuel => rfl
  | cons t ts ih =>
    obtain ⟨ht, hts⟩ := List.forall_mem_cons.mp hstands
    cases fuel with
    | zero => cases hfuel
    | succ fuel =>
      have hrest := hlinks.2
      obtain ⟨n, hn, hnext⟩ := Skiplist.nextOf_eq_some.mp hrest.first
      obtain ⟨q, hq, hentry, -⟩ := ht
      rw [hn] at hq
      cases hq
      rw [List.map_cons, List.head?_cons, Skiplist.follow, hn, Option.bind_some, hnext,
        Option.bind_some, ih hts hrest (Nat.le_of_succ_le_succ hfuel), hentry]
      rfl

theorem Holds.level {m : Skiplist} {ts : List Tower} (h : Holds m.heap ts) {i : Nat}
    (hi : i < maxHeight) :
    m.level i = some ((ts.filter fun t => decide (i < t.height)).map fun t => (t.ptr, t.entry)) := by
  have hlinks := h.links i hi
  have hfuel : (ts.filter fun t => decide (i < t.height)).length ≤ m.heap.length := by
    rw [h.length]
    exact Nat.le_succ_of_le (List.length_filter_le _ _)
  rw [Skiplist.level, hlinks.first, Option.bind_some]
  exact follow_spec (fun t ht => h.node t (List.mem_of_mem_filter ht)) hlinks hfuel

/-- Every node is on the lowest level. -/
theorem Holds.entries {m : Skiplist} {ts : List Tower} (h : Holds m.heap ts) :
    m.entries = some (ts.map Tower.entry) := by
  have hall : (ts.filter fun t => decide (0 < t.height)) = ts :=
    List.filter_eq_self.mpr fun t ht => decide_eq_true (h.height t ht).1
  rw [Skiplist.entries, h.level (by decide), hall, Option.map_some, List.map_map]
  rfl

/-- What the levels look like: sorted, and each within the one below. -/
theorem Holds.levels {m : Skiplist} {ts : List Tower} (h : Holds m.heap ts) :
    ∃ levels : Nat → List (Nat × KvEntry),
      (∀ i < maxHeight, m.level i = some (levels i) ∧
        (levels i).Pairwise fun a b => a.2.key < b.2.key) ∧
      ∀ i, i + 1 < maxHeight → (levels (i + 1)).Sublist (levels i) := by
  refine ⟨fun i => (ts.filter fun t => decide (i < t.height)).map fun t => (t.ptr, t.entry),
    fun i hi => ⟨h.level hi, ?_⟩, fun i hi => ?_⟩
  · exact List.pairwise_map.mpr (h.sorted.sublist List.filter_sublist)
  · refine (List.monotone_filter_right ts fun t ht => ?_).map _
    rw [decide_eq_true_eq] at ht ⊢
    omega

end Levels

/-! ## A sequence of calls -/

/-- A call of `put`, with the height the new node gets if there is one. -/
structure Put where
  key : Bytes
  value : Bytes
  tombstone : Bool
  height : Height

def Put.entry (p : Put) : KvEntry := { key := p.key, value := p.value, tombstone := p.tombstone }

/-- The calls one after the other, on a new memtable. -/
def Skiplist.run (ps : List Put) : Option Skiplist :=
  ps.foldlM (fun m p => m.put p.key p.value p.tombstone p.height) newMemtable

/-- What the last call with the key has put. -/
def lastPut (ps : List Put) (key : Bytes) : Option KvEntry :=
  (ps.reverse.find? fun p => decide (p.key = key)).map Put.entry

theorem run_refines (ps : List Put) : ∃ m, Skiplist.run ps = some m ∧
    Refines m ((ps.map Put.entry).foldl Memtable.putEntry {}) := by
  induction ps using List.reverseRecOn with
  | nil => exact ⟨newMemtable, rfl, newMemtable_refines⟩
  | append_singleton ps p ih =>
    obtain ⟨m, hrun, hm⟩ := ih
    obtain ⟨m', hput, hm'⟩ := put_refines hm p.key p.value p.tombstone p.height
    refine ⟨m', ?_, ?_⟩
    · rw [Skiplist.run] at hrun ⊢
      rw [List.foldlM_append, hrun]
      simp only [Option.bind_eq_bind, Option.bind_some, List.foldlM_cons, List.foldlM_nil, hput]
      rfl
    · rw [List.map_append, List.foldl_append]
      exact hm'

/-! ## What the sorted run holds after them -/

theorem lastPut_concat (ps : List Put) (p : Put) (key : Bytes) :
    lastPut (ps ++ [p]) key = if p.key = key then some p.entry else lastPut ps key := by
  rw [lastPut, List.reverse_append, List.reverse_singleton, List.singleton_append, List.find?_cons]
  by_cases h : p.key = key
  · rw [if_pos h, decide_eq_true h]
    rfl
  · rw [if_neg h, decide_eq_false h]
    rfl

/-- What a node adds to `size`. -/
def KvEntry.bytes (e : KvEntry) : Int := e.key.length + e.value.length + 32

/-- The nodes are in order, and the counters are theirs. -/
structure Memtable.Counts (m : Memtable) : Prop where
  sorted : Increasing KvEntry.key m.nodes
  count : m.count = m.nodes.length
  size : m.size = (m.nodes.map KvEntry.bytes).sum

theorem Memtable.Counts.put {m : Memtable} (h : m.Counts) (e : KvEntry) :
    (m.putEntry e).Counts := by
  have hnodes : (m.putEntry e).nodes = SortedRun.insert KvEntry.key e m.nodes :=
    Memtable.put_nodes m e.key e.value e.tombstone
  have hsorted : Increasing KvEntry.key (m.putEntry e).nodes := by
    rw [hnodes]
    exact h.sorted.insert e
  obtain ⟨as, bs, hsplit, hbelow, habove⟩ := exists_split h.sorted e.key
  have hget : m.get e.key = find KvEntry.key e.key bs := by
    rw [Memtable.get, hsplit, find_append hbelow]
  have hinsert : (m.putEntry e).nodes = as ++ SortedRun.insert KvEntry.key e bs := by
    rw [hnodes, hsplit, insert_append hbelow]
  have hcount := h.count
  have hsize := h.size
  rw [hsplit] at hcount hsize
  cases hfound : m.get e.key with
  | some n =>
    have hput : m.putEntry e = { m with nodes := (m.putEntry e).nodes
                                        size := m.size + (e.value.length - n.value.length) } := by
      rw [hnodes, Memtable.putEntry, Memtable.put, hfound]
    cases bs with
    | nil =>
      rw [hget] at hfound
      cases hfound
    | cons b bs =>
      -- what is found is the first of the larger part
      rw [hget, find, if_neg (habove b List.mem_cons_self)] at hfound
      split at hfound
      · next hkey =>
        cases hfound
        rw [insert_same hkey] at hinsert
        refine ⟨hsorted, ?_, ?_⟩
        · rw [hput, hinsert]
          simpa using hcount
        · rw [hput, hinsert]
          simp only [hsize, List.map_append, List.map_cons, List.sum_append, List.sum_cons,
            KvEntry.bytes, hkey]
          omega
      · cases hfound
  | none =>
    have hput : m.putEntry e =
        { nodes := (m.putEntry e).nodes, size := m.size + (e.key.length + e.value.length + 32),
          count := m.count + 1 } := by
      rw [hnodes, Memtable.putEntry, Memtable.put, hfound]
    have hlarger : ∀ b ∈ bs, e.key < b.key := by
      intro b hb
      have hsub := (List.pairwise_append.mp (hsplit ▸ h.sorted)).2.1
      rw [hget] at hfound
      have hne := (SortedRun.find_eq_none hsub).mp hfound b hb
      exact lt_of_le_of_ne (le_of_not_gt (habove b hb)) (Ne.symm hne)
    rw [insert_above hlarger] at hinsert
    refine ⟨hsorted, ?_, ?_⟩
    · rw [hput, hinsert]
      simp only [hcount, List.length_append, List.length_cons]
      omega
    · rw [hput, hinsert]
      simp only [hsize, List.map_append, List.map_cons, List.sum_append, List.sum_cons,
        KvEntry.bytes]
      omega

/-- The memtable after the calls. -/
theorem puts_spec (ps : List Put) :
    ((ps.map Put.entry).foldl Memtable.putEntry {}).Counts ∧
      ∀ key, ((ps.map Put.entry).foldl Memtable.putEntry {}).get key = lastPut ps key := by
  induction ps using List.reverseRecOn with
  | nil => exact ⟨⟨List.Pairwise.nil, rfl, rfl⟩, fun key => rfl⟩
  | append_singleton ps p ih =>
    obtain ⟨hcounts, hget⟩ := ih
    rw [List.map_append, List.foldl_append]
    refine ⟨hcounts.put p.entry, fun key => ?_⟩
    rw [lastPut_concat, ← hget key, Memtable.get, Memtable.get, List.map_singleton, List.foldl_cons,
      List.foldl_nil, Memtable.putEntry, Memtable.put_nodes, find_insert hcounts.sorted]
    by_cases hkey : p.key = key
    · rw [if_pos hkey]
      exact if_pos hkey
    · rw [if_neg hkey]
      exact if_neg hkey

theorem lastPut_key {ps : List Put} {key : Bytes} {e : KvEntry} (h : lastPut ps key = some e) :
    e.key = key ∧ key ∈ ps.map Put.key := by
  obtain ⟨p, hp, rfl⟩ := Option.map_eq_some_iff.mp h
  have hkey := List.find?_some hp
  have hmem := List.mem_reverse.mp (List.mem_of_find?_eq_some hp)
  rw [decide_eq_true_eq] at hkey
  exact ⟨hkey, hkey ▸ List.mem_map_of_mem hmem⟩

theorem lastPut_isSome {ps : List Put} {key : Bytes} (h : key ∈ ps.map Put.key) :
    ∃ e, lastPut ps key = some e := by
  obtain ⟨p, hp, rfl⟩ := List.mem_map.mp h
  have hfound : (ps.reverse.find? fun q => decide (q.key = p.key)).isSome := by
    rw [List.find?_isSome]
    exact ⟨p, List.mem_reverse.mpr hp, decide_eq_true rfl⟩
  obtain ⟨q, hq⟩ := Option.isSome_iff_exists.mp hfound
  exact ⟨q.entry, by rw [lastPut, hq]; rfl⟩

/-- **The skiplist is a sorted map, whatever the heights are.** -/
theorem skiplist_sorted_map (ps : List Put) : ∃ m, Skiplist.run ps = some m ∧
    (∃ levels : Nat → List (Nat × KvEntry),
      (∀ i < maxHeight, m.level i = some (levels i) ∧
        (levels i).Pairwise fun a b => a.2.key < b.2.key) ∧
      ∀ i, i + 1 < maxHeight → (levels (i + 1)).Sublist (levels i)) ∧
    (∀ key, m.get key = some (lastPut ps key)) ∧
    ∃ es, m.entries = some es ∧ (es.Pairwise fun a b => a.key < b.key) ∧
      (∀ e, e ∈ es ↔ lastPut ps e.key = some e) ∧
      m.count = (ps.map Put.key).toFinset.card ∧
      m.size = (es.map fun e => (e.key.length + e.value.length + 32 : Int)).sum := by
  obtain ⟨m, hrun, hm⟩ := run_refines ps
  obtain ⟨hcounts, hget⟩ := puts_spec ps
  obtain ⟨ts, hts, hnodes, hsize, hcount⟩ := id hm
  have hmem : ∀ e, e ∈ ts.map Tower.entry ↔ lastPut ps e.key = some e := by
    intro e
    rw [← hget, Memtable.get, SortedRun.find_eq_some hcounts.sorted, hnodes]
    exact ⟨fun he => ⟨he, rfl⟩, fun he => he.1⟩
  have hsorted := hcounts.sorted
  rw [hnodes] at hsorted
  refine ⟨m, hrun, hts.levels, fun key => by rw [hm.get, hget], ts.map Tower.entry, hts.entries,
    hsorted, hmem, ?_, ?_⟩
  · -- the keys of the nodes are the keys of the calls, without repetition
    have hkeys : ((ts.map Tower.entry).map KvEntry.key).toFinset = (ps.map Put.key).toFinset := by
      ext key
      rw [List.mem_toFinset, List.mem_toFinset, List.mem_map]
      constructor
      · rintro ⟨e, he, rfl⟩
        exact (lastPut_key ((hmem e).mp he)).2
      · intro hkey
        obtain ⟨e, he⟩ := lastPut_isSome hkey
        obtain ⟨rfl, -⟩ := lastPut_key he
        exact ⟨e, (hmem e).mpr he, rfl⟩
    have hnodup : ((ts.map Tower.entry).map KvEntry.key).Nodup :=
      (List.pairwise_map.mpr hsorted).imp fun hlt => ne_of_lt hlt
    rw [hcount, hcounts.count, hnodes, ← hkeys, List.toFinset_card_of_nodup hnodup, List.length_map,
      List.length_map, List.length_map]
  · rw [hsize, hcounts.size, hnodes]
    rfl

end Storage
end DistKV
