import Mathlib.Data.List.DropRight
import Mathlib.Data.List.Sort
import Mathlib.Order.MinMax

/-!
# A list kept in order by insertion from its rear

* `insert key x l`        `x` moves from the rear past all elements with a greater key;
* `map_insert`            the keys move in the same way;
* `insert_perm`           nothing is lost;
* `sublist_insert`        and what was there keeps its order;
* `insert_cons`           a first element that is not greater stays first;
* `insert_append`         a front part without greater elements stays as it is;
* `filter_insert`         equal elements stand in the order of their insertion;
* `sorted_insert`         the list stays in order;
* `rtakeWhile_tail`       what stands behind the last stop does not grow from the front.
-/

namespace SortedQueue

variable {α κ : Type*} [LinearOrder κ]

/-- the new element is compared from the rear -/
def insert (key : α → κ) (x : α) (l : List α) : List α :=
  l.rdropWhile (key x < key ·) ++ x :: l.rtakeWhile (key x < key ·)

section general
variable {key : α → κ} {x : α}

@[simp] theorem insert_nil : insert key x [] = [x] := rfl

theorem insert_snoc_lt {a : α} {l : List α} (h : key x < key a) :
    insert key x (l ++ [a]) = insert key x l ++ [a] := by
  unfold insert
  rw [List.rdropWhile_concat_pos _ _ _ (by simpa using h),
    List.rtakeWhile_concat_pos _ _ _ (by simpa using h), List.append_assoc, List.cons_append]

theorem insert_snoc_le {a : α} {l : List α} (h : key a ≤ key x) :
    insert key x (l ++ [a]) = l ++ [a] ++ [x] := by
  unfold insert
  rw [List.rdropWhile_concat_neg _ _ _ (by simpa using h),
    List.rtakeWhile_concat_neg _ _ _ (by simpa using h)]

theorem map_insert (l : List α) : (insert key x l).map key = insert id (key x) (l.map key) := by
  induction l using List.reverseRecOn with
  | nil => rfl
  | append_singleton l a ih =>
    rw [List.map_append, List.map_singleton]
    by_cases h : key x < key a
    · rw [insert_snoc_lt h, insert_snoc_lt (show id (key x) < id (key a) from h), List.map_append,
        ih, List.map_singleton]
    · have h' := not_lt.mp h
      rw [insert_snoc_le h', insert_snoc_le (show id (key a) ≤ id (key x) from h')]
      simp

theorem insert_perm (l : List α) : (insert key x l).Perm (x :: l) := by
  unfold insert
  refine List.perm_middle.trans ?_
  rw [List.rdropWhile_append_rtakeWhile]

theorem sublist_insert (l : List α) : l.Sublist (insert key x l) := by
  have h : (l.rdropWhile (key x < key ·) ++ l.rtakeWhile (key x < key ·)).Sublist
      (insert key x l) := (List.sublist_cons_self x _).append_left _
  rwa [List.rdropWhile_append_rtakeWhile] at h

theorem mem_insert {a : α} {l : List α} : a ∈ insert key x l ↔ a = x ∨ a ∈ l := by
  rw [(insert_perm l).mem_iff, List.mem_cons]

/-- **A front part without greater elements** stays as it is. -/
theorem insert_append {l m : List α} (h : ∀ a ∈ l, key a ≤ key x) :
    insert key x (l ++ m) = l ++ insert key x m := by
  induction m using List.reverseRecOn with
  | nil =>
    rw [List.append_nil, insert_nil]
    cases l using List.reverseRecOn with
    | nil => rfl
    | append_singleton l a => exact insert_snoc_le (h a (by simp))
  | append_singleton m a ih =>
    rw [← List.append_assoc]
    by_cases ha : key x < key a
    · rw [insert_snoc_lt ha, insert_snoc_lt ha, ih, List.append_assoc]
    · rw [insert_snoc_le (not_lt.mp ha), insert_snoc_le (not_lt.mp ha)]
      simp

theorem insert_cons {a : α} {l : List α} (h : key a ≤ key x) :
    insert key x (a :: l) = a :: insert key x l :=
  insert_append (l := [a]) fun b hb => by rwa [List.mem_singleton.mp hb]

/-- **Equal elements stand in the order of their insertion.** -/
theorem filter_insert (k : κ) (l : List α) : (insert key x l).filter (key · = k)
    = l.filter (key · = k) ++ if key x = k then [x] else [] := by
  induction l using List.reverseRecOn with
  | nil => rw [insert_nil, List.filter_nil, List.nil_append, List.filter_singleton]; simp
  | append_singleton l a ih =>
    by_cases h : key x < key a
    · rw [insert_snoc_lt h, List.filter_append, ih, List.filter_append]
      by_cases hk : key x = k
      · have ha : key a ≠ k := by rw [← hk]; exact h.ne'
        simp [ha, hk]
      · simp [hk]
    · rw [insert_snoc_le (not_lt.mp h), List.filter_append, List.filter_singleton]
      simp

end general

theorem sorted_insert (x : κ) {l : List κ} (h : l.Pairwise (· ≤ ·)) :
    (insert id x l).Pairwise (· ≤ ·) := by
  induction l with
  | nil => exact List.pairwise_singleton _ _
  | cons a l ih =>
    obtain ⟨ha, hl⟩ := List.pairwise_cons.mp h
    by_cases hx : a ≤ x
    · rw [insert_cons (show id a ≤ id x from hx), List.pairwise_cons]
      refine ⟨fun b hb => ?_, ih hl⟩
      rcases mem_insert.mp hb with rfl | hb
      · exact hx
      · exact ha b hb
    · -- all elements are greater
      have hlt : ∀ b ∈ a :: l, x < b := by
        intro b hb
        rcases List.mem_cons.mp hb with rfl | hb
        · exact not_le.mp hx
        · exact (not_le.mp hx).trans_le (ha b hb)
      have hins : insert id x (a :: l) = x :: a :: l := by
        unfold insert
        rw [List.rdropWhile_eq_nil_iff.mpr (by simpa using hlt),
          List.rtakeWhile_eq_self_iff.mpr (by simpa using hlt), List.nil_append]
      rw [hins]
      exact List.pairwise_cons.mpr ⟨fun b hb => (hlt b hb).le, h⟩

theorem head_insert {x a : κ} {l : List κ} (hl : l.head? = some a) (h : a ≤ x) :
    (insert id x l).head? = some a := by
  cases l with
  | nil => cases hl
  | cons b l =>
    cases hl
    rw [insert_cons (show id a ≤ id x from h)]
    rfl

theorem count_insert [BEq κ] [LawfulBEq κ] (x a : κ) (l : List κ) :
    (insert id x l).count a = l.count a + if x = a then 1 else 0 := by
  rw [(insert_perm l).count_eq, List.count_cons]
  simp

/-- what stands behind the last element that stops the search -/
theorem rtakeWhile_tail {p : α → Bool} {a b : α} {l : List α} (h : b ∈ l.rtakeWhile p) :
    b ∈ (a :: l).rtakeWhile p := by
  induction l using List.reverseRecOn with
  | nil => simp at h
  | append_singleton l c ih =>
    by_cases hc : p c
    · rw [List.rtakeWhile_concat_pos _ _ _ hc] at h
      rw [← List.cons_append, List.rtakeWhile_concat_pos _ _ _ hc]
      rcases List.mem_append.mp h with h | h
      · exact List.mem_append_left _ (ih h)
      · exact List.mem_append_right _ h
    · rw [List.rtakeWhile_concat_neg _ _ _ hc] at h
      simp at h

end SortedQueue
