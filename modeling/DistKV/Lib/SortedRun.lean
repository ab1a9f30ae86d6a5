import Mathlib.Order.Lattice
import Mathlib.Data.List.Basic

/-!
# Sorted runs

A run is a list whose keys strictly increase. Runs are searched by walking past the smaller keys,
and extended one entry at a time with the new entry replacing an old one of the same key. Several
runs are searched newest first: the first one that has the key answers (`first`). Merging them,
oldest first, into one run changes no answer (`find_merge`).

Some entries may be marked dead. A dead answer is no answer, but it still hides the older ones, so
dead entries may be dropped from a run only if no older run is left behind it.
-/

namespace SortedRun

variable {K E : Type} [LinearOrder K] (key : E → K)

def Increasing (l : List E) : Prop := l.Pairwise fun a b => key a < key b

/-- The entry with the key `k`. -/
def find (k : K) : List E → Option E
  | [] => none
  | e :: l => if key e < k then find k l else if key e = k then some e else none

def insert (e : E) : List E → List E
  | [] => [e]
  | x :: l =>
    if key x < key e then x :: insert e l
    else if key x = key e then e :: l
    else e :: x :: l

/-- All entries of a list, one after the other. -/
def insertAll (es acc : List E) : List E := es.foldl (fun acc e => insert key e acc) acc

variable {key} {k : K} {e x : E} {l es acc : List E}

/-! ## Searching -/

theorem mem_of_find (h : find key k l = some e) : e ∈ l ∧ key e = k := by
  induction l with
  | nil => cases h
  | cons x l ih =>
    rw [find] at h
    split at h
    · obtain ⟨hmem, hkey⟩ := ih h
      exact ⟨List.mem_cons_of_mem _ hmem, hkey⟩
    split at h
    · next hkey =>
      cases h
      exact ⟨List.mem_cons_self, hkey⟩
    · cases h

theorem find_of_mem (hl : Increasing key l) (he : e ∈ l) (hk : key e = k) :
    find key k l = some e := by
  induction l with
  | nil => cases he
  | cons x l ih =>
    obtain ⟨hx, hl⟩ := List.pairwise_cons.mp hl
    rw [find]
    rcases List.mem_cons.mp he with rfl | hmem
    · rw [if_neg (by rw [hk]; exact lt_irrefl k), if_pos hk]
    · rw [if_pos (by rw [← hk]; exact hx e hmem)]
      exact ih hl hmem

theorem find_eq_some (hl : Increasing key l) : find key k l = some e ↔ e ∈ l ∧ key e = k :=
  ⟨mem_of_find, fun h => find_of_mem hl h.1 h.2⟩

theorem find_eq_none (hl : Increasing key l) : find key k l = none ↔ ∀ e ∈ l, key e ≠ k := by
  rw [Option.eq_none_iff_forall_not_mem]
  refine ⟨fun h e he hk => h e (find_of_mem hl he hk), fun h e he => ?_⟩
  obtain ⟨hmem, hkey⟩ := mem_of_find he
  exact h e hmem hkey

theorem Increasing.filter (p : E → Bool) (hl : Increasing key l) : Increasing key (l.filter p) :=
  List.Pairwise.filter p hl

theorem find_filter (p : E → Bool) (hl : Increasing key l) :
    find key k (l.filter p) = (find key k l).filter p := by
  refine Option.ext fun e => ?_
  rw [find_eq_some (hl.filter p), List.mem_filter, Option.filter_eq_some_iff, find_eq_some hl]
  exact and_right_comm

/-- The search may start at any entry whose key is not above `k`. -/
theorem find_drop (hl : Increasing key l) {j : Nat} (hj : l[j]? = some x) (hx : key x ≤ k) :
    find key k (l.drop j) = find key k l := by
  induction l generalizing j with
  | nil => cases hj
  | cons a l ih =>
    cases j with
    | zero => rfl
    | succ j =>
      obtain ⟨ha, hl⟩ := List.pairwise_cons.mp hl
      have hmem : x ∈ l := List.mem_of_getElem? hj
      rw [List.drop_succ_cons, ih hl hj, find, if_pos (lt_of_lt_of_le (ha x hmem) hx)]

/-- A run has a place for every key. -/
theorem exists_split (hl : Increasing key l) (k : K) :
    ∃ as bs, l = as ++ bs ∧ (∀ a ∈ as, key a < k) ∧ ∀ b ∈ bs, ¬key b < k := by
  induction l with
  | nil => exact ⟨[], [], rfl, List.forall_mem_nil _, List.forall_mem_nil _⟩
  | cons a l ih =>
    obtain ⟨ha, hl⟩ := List.pairwise_cons.mp hl
    by_cases hlt : key a < k
    · obtain ⟨as, bs, rfl, has, hbs⟩ := ih hl
      exact ⟨a :: as, bs, rfl, List.forall_mem_cons.mpr ⟨hlt, has⟩, hbs⟩
    · refine ⟨[], a :: l, rfl, List.forall_mem_nil _, List.forall_mem_cons.mpr ⟨hlt, fun b hb => ?_⟩⟩
      exact fun hbk => hlt (lt_trans (ha b hb) hbk)

theorem find_append {as bs : List E} (h : ∀ a ∈ as, key a < k) :
    find key k (as ++ bs) = find key k bs := by
  induction as with
  | nil => rfl
  | cons a as ih =>
    obtain ⟨ha, has⟩ := List.forall_mem_cons.mp h
    rw [List.cons_append, find, if_pos ha, ih has]

/-! ## Inserting -/

theorem insert_append {as bs : List E} (h : ∀ a ∈ as, key a < key e) :
    insert key e (as ++ bs) = as ++ insert key e bs := by
  induction as with
  | nil => rfl
  | cons a as ih =>
    obtain ⟨ha, has⟩ := List.forall_mem_cons.mp h
    rw [List.cons_append, insert, if_pos ha, ih has, List.cons_append]

theorem insert_same (h : key x = key e) : insert key e (x :: l) = e :: l := by
  rw [insert, if_neg (by rw [h]; exact lt_irrefl _), if_pos h]

theorem insert_above (h : ∀ b ∈ l, key e < key b) : insert key e l = e :: l := by
  cases l with
  | nil => rfl
  | cons b l =>
    have hb := h b List.mem_cons_self
    rw [insert, if_neg (not_lt_of_gt hb), if_neg (ne_of_gt hb)]

theorem mem_insert (h : x ∈ insert key e l) : x = e ∨ x ∈ l := by
  induction l with
  | nil => exact .inl (List.mem_singleton.mp h)
  | cons a l ih =>
    rw [insert] at h
    split at h
    · rcases List.mem_cons.mp h with rfl | h
      · exact .inr List.mem_cons_self
      · exact (ih h).imp id fun hmem => List.mem_cons_of_mem _ hmem
    split at h
    · rcases List.mem_cons.mp h with rfl | h
      · exact .inl rfl
      · exact .inr (List.mem_cons_of_mem _ h)
    · rcases List.mem_cons.mp h with rfl | h
      · exact .inl rfl
      · exact .inr h

theorem Increasing.insert (hl : Increasing key l) (e : E) :
    Increasing key (SortedRun.insert key e l) := by
  induction l with
  | nil => exact List.pairwise_singleton _ _
  | cons a l ih =>
    obtain ⟨ha, hl⟩ := List.pairwise_cons.mp hl
    rw [SortedRun.insert]
    split
    · next hlt =>
      refine List.pairwise_cons.mpr ⟨fun x hx => ?_, ih hl⟩
      rcases mem_insert hx with rfl | hx
      · exact hlt
      · exact ha x hx
    split
    · next heq =>
      refine List.pairwise_cons.mpr ⟨fun x hx => ?_, hl⟩
      rw [← heq]
      exact ha x hx
    · next hge hne =>
      have hlt : key e < key a := lt_of_le_of_ne (le_of_not_gt hge) (Ne.symm hne)
      refine List.pairwise_cons.mpr ⟨fun x hx => ?_, List.pairwise_cons.mpr ⟨ha, hl⟩⟩
      rcases List.mem_cons.mp hx with rfl | hx
      · exact hlt
      · exact lt_trans hlt (ha x hx)

theorem find_insert (hl : Increasing key l) :
    find key k (insert key e l) = if key e = k then some e else find key k l := by
  induction l with
  | nil =>
    rw [insert]
    by_cases hlt : key e < k
    · simp only [find, if_pos hlt, if_neg (ne_of_lt hlt)]
    · simp only [find, if_neg hlt]
  | cons a l ih =>
    obtain ⟨ha, hl⟩ := List.pairwise_cons.mp hl
    rw [insert]
    split
    · next hlt =>
      rw [find, ih hl, find]
      by_cases hka : key a < k
      · simp only [if_pos hka]
      · -- `k` is at or below `a`, so it is not the key of `e`
        have hne : key e ≠ k := fun heq => hka (by rw [← heq]; exact hlt)
        simp only [if_neg hka, if_neg hne]
    split
    · next heq =>
      rw [find, find, heq]
      split
      · next hlt => rw [if_neg (ne_of_lt hlt)]
      split
      · rfl
      · rfl
    · next hge hne =>
      have hlt : key e < key a := lt_of_le_of_ne (le_of_not_gt hge) (Ne.symm hne)
      rw [find]
      split
      · next hek => rw [if_neg (ne_of_lt hek)]
      next hke =>
      split
      · rfl
      next hne =>
      -- `k` is below `e`, and so below everything
      have hkl : k < key e := lt_of_le_of_ne (le_of_not_gt hke) (Ne.symm hne)
      have hka : k < key a := lt_trans hkl hlt
      rw [find, if_neg (not_lt_of_gt hka), if_neg (ne_of_gt hka)]

theorem Increasing.insertAll (hacc : Increasing key acc) (es : List E) :
    Increasing key (SortedRun.insertAll key es acc) := by
  induction es generalizing acc with
  | nil => exact hacc
  | cons e es ih => exact ih (hacc.insert e)

theorem mem_insertAll (h : x ∈ insertAll key es acc) : x ∈ es ∨ x ∈ acc := by
  induction es generalizing acc with
  | nil => exact .inr h
  | cons e es ih =>
    rcases ih h with hmem | hmem
    · exact .inl (List.mem_cons_of_mem _ hmem)
    · rcases mem_insert hmem with rfl | hmem
      · exact .inl List.mem_cons_self
      · exact .inr hmem

/-- Inserting a run puts its answers before the others. -/
theorem find_insertAll (hes : Increasing key es) (hacc : Increasing key acc) :
    find key k (insertAll key es acc) = (find key k es).or (find key k acc) := by
  induction es generalizing acc with
  | nil => rfl
  | cons e es ih =>
    obtain ⟨he, hes⟩ := List.pairwise_cons.mp hes
    rw [insertAll, List.foldl_cons, ← insertAll, ih hes (hacc.insert e), find_insert hacc, find]
    rcases lt_trichotomy (key e) k with hlt | heq | hgt
    · rw [if_pos hlt, if_neg (ne_of_lt hlt)]
    · have hnone : find key k es = none := by
        refine (find_eq_none hes).mpr fun x hx hk => ?_
        exact absurd (he x hx) (by rw [hk, heq]; exact lt_irrefl k)
      rw [hnone, heq, if_neg (lt_irrefl k), if_pos rfl, if_pos rfl]
      rfl
    · have hnone : find key k es = none := by
        refine (find_eq_none hes).mpr fun x hx hk => ?_
        exact absurd (lt_trans hgt (he x hx)) (by rw [hk]; exact lt_irrefl k)
      rw [hnone, if_neg (ne_of_gt hgt), if_neg (not_lt_of_gt hgt), if_neg (ne_of_gt hgt)]

/-! ## Several runs -/

variable (key)

/-- The answer of the first run that has the key; the newest run comes first. -/
def first (k : K) (runs : List (List E)) : Option E := runs.findSome? (find key k)

/-- All runs in one; a newer entry replaces an older one. -/
def merge (runs : List (List E)) : List E := runs.foldr (insertAll key) []

variable {key} {runs : List (List E)}

theorem first_cons (run : List E) :
    first key k (run :: runs) = (find key k run).or (first key k runs) := by
  rw [first, List.findSome?_cons]
  cases find key k run with
  | none => rfl
  | some e => rfl

theorem Increasing.merge (h : ∀ run ∈ runs, Increasing key run) :
    Increasing key (SortedRun.merge key runs) := by
  induction runs with
  | nil => exact List.Pairwise.nil
  | cons run runs ih =>
    exact (ih fun r hr => h r (List.mem_cons_of_mem _ hr)).insertAll run

theorem mem_merge (h : x ∈ merge key runs) : ∃ run ∈ runs, x ∈ run := by
  induction runs with
  | nil => cases h
  | cons run runs ih =>
    rcases mem_insertAll h with hmem | hmem
    · exact ⟨run, List.mem_cons_self, hmem⟩
    · obtain ⟨r, hr, hx⟩ := ih hmem
      exact ⟨r, List.mem_cons_of_mem _ hr, hx⟩

/-- **Merging changes no answer.** -/
theorem find_merge (h : ∀ run ∈ runs, Increasing key run) :
    find key k (merge key runs) = first key k runs := by
  induction runs with
  | nil => rfl
  | cons run runs ih =>
    have hrest : ∀ r ∈ runs, Increasing key r := fun r hr => h r (List.mem_cons_of_mem _ hr)
    rw [merge, List.foldr_cons, ← merge, find_insertAll (h run List.mem_cons_self) (.merge hrest),
      ih hrest, first_cons]

/-! ## Dead entries -/

variable (dead : E → Bool)

/-- The merge of all runs without the dead entries. -/
def compact (key : E → K) (runs : List (List E)) : List E :=
  (merge key runs).filter fun e => !dead e

theorem find_compact (h : ∀ run ∈ runs, Increasing key run) :
    find key k (compact dead key runs) = (first key k runs).filter fun e => !dead e := by
  rw [compact, find_filter _ (.merge h), find_merge h]

/-- Once the old runs are gone, the live answers are those of before. -/
theorem first_compact (h : ∀ run ∈ runs, Increasing key run) (mem : List E) :
    (first key k [mem, compact dead key runs]).filter (fun e => !dead e) =
      (first key k (mem :: runs)).filter fun e => !dead e := by
  rw [first_cons, first_cons, first_cons, find_compact dead h]
  cases find key k mem with
  | some e => rfl
  | none =>
    show ((first key k runs).filter _ |>.or none).filter _ = _
    rw [Option.or_none, Option.filter_filter]
    simp only [Bool.and_self, Option.none_or]

end SortedRun
