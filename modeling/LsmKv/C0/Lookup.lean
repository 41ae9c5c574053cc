import LsmKv.C0.Avl

/-!
# `Get` and `Update` below the root (`c0.c`)

The recursive calls of both functions drop their result.

* `GetExact`          what a lookup in a search tree returns;
* `getExact_iff`      `Get` returns it exactly for the key of the root and for absent keys;
* `skeleton`          keys, shape and heights of a tree;
* `entries_update`    what `Update` writes: one entry, at any depth;
* `updateKeeps_iff`   the node it returns is the root of the tree exactly for the key of the root.
-/

namespace LsmKv

namespace C0Node

open KeySorted

/-! ## `Get` -/

/-- a lookup that returns the node of its key, and NULL exactly if there is none -/
structure GetExact (T : C0Node) (key : CStr) : Prop where
  found : ∀ e ∈ T.entries, e.key = key → get T key = some e
  absent : get T key = none ↔ ∀ e ∈ T.entries, e.key ≠ key

theorem mem_keys {T : C0Node} {k : CStr} : k ∈ keys T ↔ ∃ e ∈ T.entries, e.key = k := by
  rw [keys, List.mem_map]

/-- `Get` finds exactly the key of the root -/
theorem get_ne_none_iff (T : C0Node) (key : CStr) :
    get T key ≠ none ↔ T ≠ null ∧ T.keyOf = key := by
  cases T with
  | null => simp [get]
  | node k v l r ht f =>
    simp only [get, keyOf, strcmp_zero, ne_eq, reduceCtorEq, not_false_eq_true, true_and]
    split_ifs with h
    · simp [h]
    · simpa using Ne.symm h

/-- **When `Get` is exact**: the key is that of the root, or no node carries it. -/
theorem getExact_iff (T : C0Node) (h : Bst T) (key : CStr) :
    GetExact T key ↔ (key ∈ keys T → T.keyOf = key) := by
  constructor
  · intro hx hk
    obtain ⟨e, he, hek⟩ := mem_keys.mp hk
    obtain ⟨l, r, ht, rfl, -⟩ := get_eq_some (hx.found e he hek)
    rfl
  · intro hroot
    have hget : ∀ e ∈ T.entries, e.key = key → get T key = some e := by
      intro e he hek
      have hne : T ≠ null := by
        rintro rfl
        cases he
      have hk := hroot (mem_keys.mpr ⟨e, he, hek⟩)
      obtain ⟨e', he'⟩ := Option.ne_none_iff_exists'.mp ((get_ne_none_iff T key).mpr ⟨hne, hk⟩)
      obtain ⟨hm, hk'⟩ := get_mem he'
      rw [he', h.eq_of_key hm he (hk'.trans hek.symm)]
    refine ⟨hget, ?_, ?_⟩
    · intro hnone e he hek
      rw [hget e he hek] at hnone
      cases hnone
    · intro hno
      cases hg : get T key with
      | none => rfl
      | some e =>
        obtain ⟨hm, hk⟩ := get_mem hg
        exact absurd hk (hno e hm)

/-- the tree after a PUT of `b` and a PUT of `a` -/
def twoKeys : C0Node :=
  insert (insert null ['b'] ['1'] 0) ['a'] ['2'] 0

theorem bst_twoKeys : Bst twoKeys := (bst_null.insert _ _ _).insert _ _ _

/-- The key of the root is found. -/
theorem getExact_root : GetExact twoKeys ['b'] :=
  (getExact_iff twoKeys bst_twoKeys ['b']).mpr fun _ => by decide

/-- The key of the left child is not. -/
theorem get_misses_child : Bst twoKeys ∧ ['a'] ∈ keys twoKeys ∧ get twoKeys ['a'] = none ∧
    ¬ GetExact twoKeys ['a'] := by
  refine ⟨bst_twoKeys, by decide, by decide, ?_⟩
  rw [getExact_iff twoKeys bst_twoKeys]
  decide

/-! ## `Update` -/

/-- the tree without its values and flags -/
def skeleton : C0Node → C0Node
  | null => null
  | node k _ l r ht _ => node k ⟨[], false⟩ (skeleton l) (skeleton r) ht 0

/-- **`Update` keeps keys, shape and heights.** -/
theorem skeleton_update (T : C0Node) (key : CStr) (value : CPtr) (flag : Int) :
    skeleton (update T key value flag).2 = skeleton T := by
  induction T with
  | null => rfl
  | node k v l r ht f ihl ihr =>
    unfold update
    split_ifs
    · rfl
    · simp only [skeleton, ihl]
    · simp only [skeleton, ihr]

/-- an entry as `Update` leaves it -/
def overwrite (key : CStr) (value : CPtr) (flag : Int) (e : Entry) : Entry :=
  if e.key = key then ⟨key, value, flag⟩ else e

@[simp] theorem key_overwrite (key : CStr) (value : CPtr) (flag : Int) (e : Entry) :
    (overwrite key value flag e).key = e.key := by
  unfold overwrite
  split_ifs with h
  · exact h.symm
  · rfl

theorem map_overwrite_of_ne {key : CStr} {l : List Entry} (h : ∀ e ∈ l, e.key ≠ key)
    (value : CPtr) (flag : Int) : l.map (overwrite key value flag) = l := by
  have hid : l.map (overwrite key value flag) = l.map id :=
    List.map_congr_left fun e he => if_neg (h e he)
  rw [hid, List.map_id]

/-- **`Update` writes the entry of its key**, at any depth, and no other. -/
theorem entries_update {T : C0Node} (h : Bst T) (key : CStr) (value : CPtr) (flag : Int) :
    (update T key value flag).2.entries = T.entries.map (overwrite key value flag) := by
  induction T with
  | null => rfl
  | node k v l r ht f ihl ihr =>
    obtain ⟨-, hs, hlt⟩ := sorted_append.mp (show Sorted Entry.key (_ ++ _ :: _) from h)
    have hl : ∀ e ∈ l.entries, e.key < k := fun e he => hlt e he _ (List.mem_cons_self ..)
    have hr : ∀ e ∈ r.entries, k < e.key := (sorted_cons.mp hs).1
    rw [entries_node, List.map_append, List.map_cons]
    unfold update
    split_ifs with h1 h2
    · have he : key = k := (strcmp_zero key k).mp h1
      rw [map_overwrite_of_ne (fun e hm => by rw [he]; exact (hl e hm).ne),
        map_overwrite_of_ne (fun e hm => by rw [he]; exact (hr e hm).ne'), entries_node,
        overwrite, if_pos he.symm, he]
    · have hk : key < k := (strcmp_neg key k).mp h2
      rw [map_overwrite_of_ne (l := r.entries) (fun e hm => (hk.trans (hr e hm)).ne'),
        entries_node, ihl h.left, overwrite, if_neg hk.ne']
    · have hk : k < key := by
        rw [← strcmp_pos]
        omega
      rw [map_overwrite_of_ne (l := l.entries) (fun e hm => ((hl e hm).trans hk).ne),
        entries_node, ihr h.right, overwrite, if_neg hk.ne]

/-- an update that changes the entry of its key, keeps the rest and returns the root -/
structure UpdateKeeps (T : C0Node) (key : CStr) (value : CPtr) (flag : Int) : Prop where
  entry : find (update T key value flag).2 key = some ⟨key, value, flag⟩
  others : ∀ k, k ≠ key → find (update T key value flag).2 k = find T k
  shape : skeleton (update T key value flag).2 = skeleton T
  root : (update T key value flag).1 = (update T key value flag).2

/-- the node `Update` returns -/
theorem update_fst (T : C0Node) (key : CStr) (value : CPtr) (flag : Int) :
    (update T key value flag).1
      = if T.keyOf = key then (update T key value flag).2 else null := by
  cases T with
  | null => split_ifs <;> rfl
  | node k v l r ht f =>
    simp only [update, keyOf, strcmp_zero]
    by_cases hk : key = k
    · rw [if_pos hk, if_pos hk.symm]
    · rw [if_neg hk, if_neg (Ne.symm hk)]
      split_ifs <;> rfl

/-- **When `Update` keeps the tree**: in place it always does, and it returns the root exactly for
the key of the root. -/
theorem updateKeeps_iff (T : C0Node) (h : Bst T) (key : CStr) (hk : key ∈ keys T) (value : CPtr)
    (flag : Int) : UpdateKeeps T key value flag ↔ T.keyOf = key := by
  have hfind : ∀ k, find (update T key value flag).2 k
      = (find T k).map (overwrite key value flag) := by
    intro k
    unfold find
    rw [entries_update h, lookup_map fun e => key_overwrite key value flag e]
  constructor
  · intro hx
    by_contra hne
    have hnull : (update T key value flag).2 = null := by
      rw [← hx.root, update_fst, if_neg hne]
    have hfound := hx.entry
    rw [hnull] at hfound
    cases hfound
  · intro hroot
    refine ⟨?_, ?_, skeleton_update T key value flag, by rw [update_fst, if_pos hroot]⟩
    · obtain ⟨e, he, rfl⟩ := mem_keys.mp hk
      rw [hfind, find, h.lookup_mem he]
      exact congrArg some (if_pos rfl)
    · intro k hne
      rw [hfind]
      cases hf : find T k with
      | none => rfl
      | some e =>
        obtain ⟨-, rfl⟩ := lookup_some hf
        exact congrArg some (if_neg hne)

/-- A new value for the key of the root. -/
theorem updateKeeps_root : UpdateKeeps twoKeys ['b'] ⟨['3'], true⟩ 0 :=
  (updateKeeps_iff twoKeys bst_twoKeys ['b'] (by decide) _ _).mpr (by decide)

/-- `_T = Update(_T, ..)` for the key of the left child would empty the table. -/
theorem update_returns_null : Bst twoKeys ∧ ['a'] ∈ keys twoKeys ∧
    (update twoKeys ['a'] ⟨['3'], true⟩ 0).1 = null ∧
    ¬ UpdateKeeps twoKeys ['a'] ⟨['3'], true⟩ 0 := by
  refine ⟨bst_twoKeys, by decide, by decide, ?_⟩
  rw [updateKeeps_iff twoKeys bst_twoKeys ['a'] (by decide)]
  decide

end C0Node

end LsmKv
