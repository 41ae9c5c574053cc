import LsmKv.C0.Lookup

/-!
# The flags after `Delete` (`c0.c`)

`Delete` copies the successor's key and value into the node that loses its key, and not the
successor's flag.

* `subtree`          the node of a key, with all below it;
* `FlagsMatch`       the keys that move up have the flag of the node they move into;
* `entries_delete_leftmost`   the successor removed: its right child, in an AVL tree a leaf at
                     most, takes its place and its flag;
* `delete_keeps_iff` `Delete` keeps every other entry exactly if the flags match.
-/

namespace LsmKv

namespace C0Node

open KeySorted

/-- `p->flag` -/
def flagOf : C0Node → Int
  | null => 0
  | node _ _ _ _ _ f => f

/-- `p->right` -/
def rightOf : C0Node → C0Node
  | null => null
  | node _ _ _ r _ _ => r

/-- the node that carries `key`, NULL if there is none -/
def subtree : C0Node → CStr → C0Node
  | null, _ => null
  | node k v l r ht f, key =>
    if strcmp key k > 0 then subtree r key
    else if strcmp key k < 0 then subtree l key
    else node k v l r ht f

/-- Each key that moves up when this node is deleted has the flag of the node it moves into: the
successor that of this node, the successor's right child that of the successor. -/
def MovesMatch : C0Node → Prop
  | null => True
  | node _ _ _ r _ f => r ≠ null → r.leftmost.flagOf = f ∧
      (r.leftmost.rightOf ≠ null → r.leftmost.rightOf.flagOf = f)

instance : ∀ T : C0Node, Decidable (MovesMatch T)
  | null => isTrue trivial
  | node _ _ _ r _ f => inferInstanceAs (Decidable (r ≠ null → r.leftmost.flagOf = f ∧
      (r.leftmost.rightOf ≠ null → r.leftmost.rightOf.flagOf = f)))

/-- the flags match where `Delete(T, key)` moves keys up -/
def FlagsMatch (T : C0Node) (key : CStr) : Prop := MovesMatch (subtree T key)

instance (T : C0Node) (key : CStr) : Decidable (FlagsMatch T key) :=
  inferInstanceAs (Decidable (MovesMatch _))

theorem flagsMatch_gt {k key : CStr} {v : CPtr} {l r : C0Node} {ht f : Int} (h : k < key) :
    FlagsMatch (node k v l r ht f) key ↔ FlagsMatch r key := by
  have hs : subtree (node k v l r ht f) key = subtree r key := if_pos ((strcmp_pos key k).mpr h)
  rw [FlagsMatch, hs, FlagsMatch]

theorem flagsMatch_lt {k key : CStr} {v : CPtr} {l r : C0Node} {ht f : Int} (h : key < k) :
    FlagsMatch (node k v l r ht f) key ↔ FlagsMatch l key := by
  have hneg := (strcmp_neg key k).mpr h
  have hs : subtree (node k v l r ht f) key = subtree l key := by
    rw [subtree, if_neg (not_lt.mpr hneg.le), if_pos hneg]
  rw [FlagsMatch, hs, FlagsMatch]

theorem flagsMatch_self {k : CStr} {v : CPtr} {l r : C0Node} {ht f : Int} :
    FlagsMatch (node k v l r ht f) k ↔ (r ≠ null → r.leftmost.flagOf = f ∧
      (r.leftmost.rightOf ≠ null → r.leftmost.rightOf.flagOf = f)) := by
  have h0 := (strcmp_zero k k).mpr rfl
  have hs : subtree (node k v l r ht f) k = node k v l r ht f := by
    rw [subtree, if_neg (by rw [h0]; exact lt_irrefl 0), if_neg (by rw [h0]; exact lt_irrefl 0)]
  rw [FlagsMatch, hs, MovesMatch]

/-- a node without a left child has at most a leaf on its right -/
theorem Avl.right_leaf {k : CStr} {v : CPtr} {r : C0Node} {ht f : Int}
    (h : Avl (node k v null r ht f)) :
    r = null ∨ ∃ rk rv rh rf, r = node rk rv null null rh rf := by
  obtain ⟨-, -, -, -, h2⟩ := avl_node.mp h
  rw [trueHeight_null] at h2
  cases r with
  | null => exact Or.inl rfl
  | node rk rv rl rr rh rf =>
    rw [trueHeight_node] at h2
    cases rl with
    | null =>
      cases rr with
      | null => exact Or.inr ⟨rk, rv, rh, rf, rfl⟩
      | node k' v' l' r' ht' f' =>
        have := trueHeight_ge l'
        rw [trueHeight_node k'] at h2
        omega
    | node k' v' l' r' ht' f' =>
      have := trueHeight_ge l'
      rw [trueHeight_node k'] at h2
      omega

/-- **The successor removed from the right subtree.** -/
theorem entries_delete_leftmost {r : C0Node} (hb : Bst r) (ha : Avl r) (hr : r ≠ null) :
    ∃ rest, r.entries = ⟨r.leftmost.keyOf, r.leftmost.valueOf, r.leftmost.flagOf⟩
        :: (r.leftmost.rightOf.entries ++ rest) ∧
      (delete r r.leftmost.keyOf).entries
        = r.leftmost.rightOf.entries.map (fun e => { e with flag := r.leftmost.flagOf }) ++ rest ∧
      (r.leftmost.rightOf = null ∨ ∃ k v ht f, r.leftmost.rightOf = node k v null null ht f) := by
  induction r with
  | null => exact absurd rfl hr
  | node k v l r ht f ihl ihr =>
    cases l with
    | null =>
      refine ⟨[], by simp [leftmost, keyOf, valueOf, flagOf, rightOf], ?_, ha.right_leaf⟩
      show (delete (node k v null r ht f) k).entries = r.entries.map _ ++ []
      rcases ha.right_leaf with rfl | ⟨rk, rv, rh, rf, rfl⟩
      · rw [delete_self_null]
        rfl
      · rw [entries_delete_self (by simp)]
        show _ ++ _ :: (delete (node rk rv null null rh rf) rk).entries = _
        rw [delete_self_null]
        rfl
    | node lk lv ll lr lh lf =>
      obtain ⟨rest, he, hd, hq⟩ := ihl hb.left (avl_node.mp ha).1 (by simp)
      have hlt : (node lk lv ll lr lh lf).leftmost.keyOf < k := by
        have h := (sorted_append.mp (show Sorted Entry.key (_ ++ _ :: _) from hb)).2.2
        exact h _ (by rw [he]; exact List.mem_cons_self ..) ⟨k, v, f⟩ (List.mem_cons_self ..)
      refine ⟨rest ++ ⟨k, v, f⟩ :: r.entries, ?_, ?_, hq⟩
      · rw [entries_node, he]
        simp [leftmost]
      · show (delete (node k v (node lk lv ll lr lh lf) r ht f)
          (node lk lv ll lr lh lf).leftmost.keyOf).entries = _
        rw [entries_delete_lt hlt, hd]
        simp [leftmost]

/-- The entries after `Delete` are the other entries exactly if the flags match. -/
theorem entries_delete_iff {T : C0Node} (hb : Bst T) (ha : Avl T) (key : CStr) :
    (delete T key).entries = erase Entry.key key T.entries ↔ FlagsMatch T key := by
  induction T with
  | null => exact iff_of_true rfl trivial
  | node k v l r ht f ihl ihr =>
    obtain ⟨hl, hr, -⟩ := avl_node.mp ha
    have hs : Sorted Entry.key (l.entries ++ ⟨k, v, f⟩ :: r.entries) := hb
    rw [entries_node]
    rcases lt_trichotomy k key with hlt | rfl | hlt
    · rw [entries_delete_gt hlt, erase_append_right hs hlt, flagsMatch_gt hlt, ← ihr hb.right hr]
      simp
    · have herase : erase Entry.key k (l.entries ++ ⟨k, v, f⟩ :: r.entries)
          = l.entries ++ r.entries := erase_append_self hs
      rw [herase, flagsMatch_self]
      by_cases hne : r = null
      · subst hne
        simp [delete_self_null]
      · obtain ⟨rest, he, hd, hq⟩ := entries_delete_leftmost hb.right hr hne
        rw [entries_delete_self hne, hd, he]
        rcases hq with hq | ⟨qk, qv, qh, qf, hq⟩
        · simp [hq, hne, eq_comm]
        · simp only [hq, entries_node, entries_null, List.nil_append, List.map_cons, List.map_nil,
            List.append_cancel_left_eq, List.cons_append, List.cons.injEq, Entry.mk.injEq, true_and,
            and_true, flagOf]
          constructor
          · rintro ⟨rfl, h2⟩ -
            exact ⟨rfl, fun _ => h2.symm⟩
          · intro h
            obtain ⟨h1, h2⟩ := h hne
            exact ⟨h1.symm, h1.trans (h2 (by simp)).symm⟩
    · rw [entries_delete_lt hlt, erase_append_left hs hlt, flagsMatch_lt hlt, ← ihl hb.left hl]
      simp

/-- `Delete` keeps value and flag of every other key of `T` -/
def DeleteKeeps (T : C0Node) (key : CStr) : Prop :=
  ∀ k ∈ keys T, k ≠ key → find (delete T key) k = find T k

theorem deleteKeeps_iff_entries {T : C0Node} (hb : Bst T) (key : CStr) :
    DeleteKeeps T key ↔ (delete T key).entries = erase Entry.key key T.entries := by
  have hkeys : (erase Entry.key key T.entries).map Entry.key = keys (delete T key) := by
    rw [keys_eq, pairs_delete hb, pairs, erase, erase, List.filter_map, List.map_map]
    rfl
  constructor
  · intro h
    refine (Sorted.eq_of_mem (Sorted.erase hb key) (hb.delete key) hkeys ?_).symm
    intro e he
    obtain ⟨hm, hne⟩ := mem_erase.mp he
    have hf := h e.key (mem_keys.mpr ⟨e, hm, rfl⟩) hne
    rw [find, find, hb.lookup_mem hm] at hf
    exact (lookup_some hf).1
  · intro h k hk hne
    obtain ⟨e, he, rfl⟩ := mem_keys.mp hk
    rw [find, find, h, hb.lookup_mem he]
    exact Sorted.lookup_mem (Sorted.erase hb key) (mem_erase.mpr ⟨he, hne⟩)

/-- the tree that `Insert` calls build from NULL -/
def inserted (es : List (CStr × CStr × Int)) : C0Node :=
  calls (es.map fun e => Call.insert e.1 e.2.1 e.2.2)

/-- **When `Delete` keeps the other entries**: exactly if each key that moves up has the flag of
the node it moves into. -/
theorem deleteKeeps_iff (es : List (CStr × CStr × Int)) (key : CStr) :
    DeleteKeeps (inserted es) key ↔ FlagsMatch (inserted es) key := by
  obtain ⟨hb, hh, hbal, -⟩ := avl_run (es.map fun e => Call.insert e.1 e.2.1 e.2.2)
  exact (deleteKeeps_iff_entries hb key).trans (entries_delete_iff hb ⟨hh, hbal⟩ key)

/-- A tombstone that moves up becomes a valid entry. -/
theorem delete_revives :
    find (inserted [(['b'], ['1'], 0), (['c'], ['2'], 1)]) ['c'] = some ⟨['c'], ⟨['2'], false⟩, 1⟩ ∧
    find (delete (inserted [(['b'], ['1'], 0), (['c'], ['2'], 1)]) ['b']) ['c']
      = some ⟨['c'], ⟨['2'], false⟩, 0⟩ ∧
    ¬ DeleteKeeps (inserted [(['b'], ['1'], 0), (['c'], ['2'], 1)]) ['b'] := by
  refine ⟨by decide, by decide, ?_⟩
  rw [deleteKeeps_iff]
  decide

end C0Node

end LsmKv
