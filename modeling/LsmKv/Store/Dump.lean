import LsmKv.Store

/-!
# What `dumpToArray` writes (`c0.c`)

* `SearchTree`      the search-tree invariant, subtree by subtree;
* `dumpWrites`      the writes of `dumpToArray`, in their order;
* `Dumped`          the slots it writes, the index it returns and the nodes it stores;
* `dump_sorted`     a search tree is dumped in key order, and so is the batch of `c0_dump`.
-/

namespace LsmKv

namespace C0Node

/-- the nodes in the order in which `preorder` prints them -/
def preorder : C0Node → List Entry
  | null => []
  | node k v l r _ f => ⟨k, v, f⟩ :: (preorder l ++ preorder r)

/-- strict binary search tree, by `strcmp` at every node -/
def SearchTree : C0Node → Prop
  | null => True
  | node k _ l r _ _ => SearchTree l ∧ SearchTree r ∧
      (∀ e ∈ preorder l, strcmp e.key k < 0) ∧ ∀ e ∈ preorder r, strcmp k e.key < 0

/-- what `dumpToArray(T, nodes, i)` assigns, first write first, and the index it returns -/
def dumpWrites : C0Node → ℕ → List (ℕ × Entry) × ℕ
  | null, i => ([], i)
  | node k v l r _ f, i =>
    let (wl, i) := dumpWrites l i
    let (wr, j) := dumpWrites r (i + 1)
    (wl ++ (i, ⟨k, v, f⟩) :: wr, j)

/-- `nodes[i] = T` for each write -/
def applyWrites (nodes : List (Option Entry)) (writes : List (ℕ × Entry)) : List (Option Entry) :=
  writes.foldl (fun nodes w => nodes.set w.1 (some w.2)) nodes

/-- A call `dumpToArray(T, nodes, i)`: it fills the slots from `i` on, each once, with the nodes of
`T` in strictly increasing key order. -/
structure Dumped (T : C0Node) (nodes : List (Option Entry)) (i : ℕ) : Prop where
  writes : (dumpToArray T nodes i).1 = applyWrites nodes (dumpWrites T i).1
  next : (dumpToArray T nodes i).2 = i + T.c0Size
  slots : (dumpWrites T i).1.map Prod.fst = List.range' i T.c0Size
  length : (dumpToArray T nodes i).1.length = nodes.length
  outside : ∀ j, j < i ∨ i + T.c0Size ≤ j → (dumpToArray T nodes i).1[j]? = nodes[j]?
  inside : i + T.c0Size ≤ nodes.length → ((dumpToArray T nodes i).1.drop i).take T.c0Size
    = ((dumpWrites T i).1.map Prod.snd).map some
  complete : ((dumpWrites T i).1.map Prod.snd).Perm T.preorder
  once : ((dumpWrites T i).1.map Prod.snd).Nodup
  sorted : ((dumpWrites T i).1.map Prod.snd).Pairwise fun a b => strcmp a.key b.key < 0

/-! ## search trees -/

theorem entries_perm_preorder (T : C0Node) : T.entries.Perm T.preorder := by
  induction T with
  | null => exact List.Perm.refl _
  | node k v l r ht f ihl ihr =>
    show (l.entries ++ ⟨k, v, f⟩ :: r.entries).Perm (⟨k, v, f⟩ :: (l.preorder ++ r.preorder))
    exact List.perm_middle.trans ((ihl.append ihr).cons _)

/-- the invariant at every node makes the nodes from left to right sorted -/
theorem SearchTree.bst {T : C0Node} (h : SearchTree T) : Bst T := by
  induction T with
  | null => exact bst_null
  | node k v l r ht f ihl ihr =>
    obtain ⟨hl, hr, hlk, hkr⟩ := h
    have hleft : ∀ a ∈ l.entries, a.key < k := by
      intro a ha
      exact (strcmp_neg _ _).mp (hlk a ((entries_perm_preorder l).mem_iff.mp ha))
    have hright : ∀ b ∈ r.entries, k < b.key := by
      intro b hb
      exact (strcmp_neg _ _).mp (hkr b ((entries_perm_preorder r).mem_iff.mp hb))
    show KeySorted.Sorted Entry.key (l.entries ++ ⟨k, v, f⟩ :: r.entries)
    rw [KeySorted.sorted_append, KeySorted.sorted_cons]
    refine ⟨ihl hl, ⟨hright, ihr hr⟩, ?_⟩
    intro a ha b hb
    rcases List.mem_cons.mp hb with rfl | hb
    · exact hleft a ha
    · exact (hleft a ha).trans (hright b hb)

theorem Bst.pairwise_strcmp {T : C0Node} (h : Bst T) :
    T.entries.Pairwise fun a b => strcmp a.key b.key < 0 :=
  List.Pairwise.imp (fun hab => (strcmp_neg _ _).mpr hab) h

theorem Bst.nodup {T : C0Node} (h : Bst T) : T.entries.Nodup := by
  refine List.Pairwise.imp ?_ h
  intro a b hab he
  exact absurd (congrArg Entry.key he) hab.ne

/-! ## the writes -/

theorem applyWrites_append (nodes : List (Option Entry)) (a b : List (ℕ × Entry)) :
    applyWrites nodes (a ++ b) = applyWrites (applyWrites nodes a) b := List.foldl_append

theorem length_applyWrites (nodes : List (Option Entry)) (ws : List (ℕ × Entry)) :
    (applyWrites nodes ws).length = nodes.length := by
  induction ws generalizing nodes with
  | nil => rfl
  | cons w ws ih =>
    show (applyWrites (nodes.set w.1 (some w.2)) ws).length = _
    rw [ih, List.length_set]

/-- a slot that no write names keeps its value -/
theorem getElem?_applyWrites {ws : List (ℕ × Entry)} {j : ℕ} (hj : j ∉ ws.map Prod.fst)
    (nodes : List (Option Entry)) : (applyWrites nodes ws)[j]? = nodes[j]? := by
  induction ws generalizing nodes with
  | nil => rfl
  | cons w ws ih =>
    rw [List.map_cons, List.mem_cons, not_or] at hj
    show (applyWrites (nodes.set w.1 (some w.2)) ws)[j]? = _
    rw [ih hj.2, List.getElem?_set_ne (Ne.symm hj.1)]

/-- **The writes are those of the call.** -/
theorem dumpToArray_writes (T : C0Node) (nodes : List (Option Entry)) (i : ℕ) :
    dumpToArray T nodes i = (applyWrites nodes (dumpWrites T i).1, (dumpWrites T i).2) := by
  induction T generalizing nodes i with
  | null => rfl
  | node k v l r ht f ihl ihr =>
    show dumpToArray r ((dumpToArray l nodes i).1.set (dumpToArray l nodes i).2 (some ⟨k, v, f⟩))
      ((dumpToArray l nodes i).2 + 1) = _
    rw [ihl, ihr]
    show _ = (applyWrites nodes ((dumpWrites l i).1 ++ ((dumpWrites l i).2, ⟨k, v, f⟩) ::
      (dumpWrites r ((dumpWrites l i).2 + 1)).1), _)
    rw [applyWrites_append]
    rfl

/-- The accumulator of the two recursive calls is the independently computed size, and the slots
follow one another. -/
theorem dumpWrites_eq (T : C0Node) (i : ℕ) : (dumpWrites T i).2 = i + T.c0Size ∧
    (dumpWrites T i).1.map Prod.fst = List.range' i T.c0Size ∧
    (dumpWrites T i).1.map Prod.snd = T.entries := by
  induction T generalizing i with
  | null => exact ⟨rfl, rfl, rfl⟩
  | node k v l r ht f ihl ihr =>
    obtain ⟨hl, hls, hle⟩ := ihl i
    obtain ⟨hr, hrs, hre⟩ := ihr ((dumpWrites l i).2 + 1)
    have hsize : (node k v l r ht f).c0Size = l.c0Size + (1 + r.c0Size) := Nat.add_assoc ..
    refine ⟨?_, ?_, ?_⟩
    · show (dumpWrites r ((dumpWrites l i).2 + 1)).2 = _
      rw [hr, hl, hsize]
      omega
    · show ((dumpWrites l i).1 ++ ((dumpWrites l i).2, ⟨k, v, f⟩) ::
        (dumpWrites r ((dumpWrites l i).2 + 1)).1).map Prod.fst = _
      rw [List.map_append, List.map_cons, hls, hrs, hl, hsize, ← List.range'_append_1,
        Nat.add_comm 1, List.range'_succ]
    · show ((dumpWrites l i).1 ++ ((dumpWrites l i).2, ⟨k, v, f⟩) ::
        (dumpWrites r ((dumpWrites l i).2 + 1)).1).map Prod.snd = _
      rw [List.map_append, List.map_cons, hle, hre]
      rfl

/-- **A search tree is dumped sorted and complete.** -/
theorem SearchTree.dumped {T : C0Node} (h : SearchTree T) (nodes : List (Option Entry)) (i : ℕ) :
    Dumped T nodes i := by
  have hw := dumpToArray_writes T nodes i
  obtain ⟨hnext, hslots, hstored⟩ := dumpWrites_eq T i
  have hlen : (dumpToArray T nodes i).1.length = nodes.length := by
    rw [hw]
    exact length_applyWrites nodes _
  refine ⟨?_, ?_, hslots, hlen, ?_, ?_, ?_, ?_, ?_⟩
  · rw [hw]
  · rw [hw]
    exact hnext
  · intro j hj
    have hnot : j ∉ (dumpWrites T i).1.map Prod.fst := by
      rw [hslots, List.mem_range'_1]
      omega
    rw [hw]
    exact getElem?_applyWrites hnot nodes
  · intro hroom
    have hsplit : nodes = nodes.take i ++ (nodes.drop i).take T.c0Size
        ++ nodes.drop (i + T.c0Size) := by
      rw [List.append_assoc, ← List.drop_drop, List.take_append_drop, List.take_append_drop]
    have hi : (nodes.take i).length = i := by
      rw [List.length_take]
      omega
    have hsize : ((nodes.drop i).take T.c0Size).length = T.c0Size := by
      rw [List.length_take, List.length_drop]
      omega
    have heq := dumpToArray_eq T (nodes.take i) _ (nodes.drop (i + T.c0Size)) hsize
    rw [← hsplit, hi] at heq
    rw [heq, hstored, List.append_assoc, List.drop_left' hi,
      List.take_left' (by rw [List.length_map, c0Size_eq])]
  · rw [hstored]
    exact entries_perm_preorder T
  · rw [hstored]
    exact h.bst.nodup
  · rw [hstored]
    exact h.bst.pairwise_strcmp

end C0Node

open C0Node

/-- **The dump is sorted and complete**, for every start index and every array, and so is the
batch that `c0_dump` passes on. -/
theorem dump_sorted (T : C0Node) (h : T.SearchTree) :
    (∀ (nodes : List (Option Entry)) (i : ℕ), Dumped T nodes i) ∧
    (T ≠ .null → ∃ batch : List Entry,
      (T.dumpToArray (List.replicate T.c0Size none) 0).1 = batch.map some ∧
      (∀ s, c0Dump T s = (c1BatchInsert s.c1 batch).map fun r =>
        { s with c1 := r.2, txLog := if r.1 = 0 then none else s.txLog }) ∧
      batch.length = T.c0Size ∧ batch.Perm T.preorder ∧
      batch.Pairwise fun a b => strcmp a.key b.key < 0) := by
  refine ⟨h.dumped, fun hT => ⟨T.entries, dumpToArray_entries T, c0Dump_eq hT, ?_, ?_, ?_⟩⟩
  · exact (c0Size_eq T).symm
  · exact entries_perm_preorder T
  · exact h.bst.pairwise_strcmp

/-- three nodes into the middle of an array -/
def abcTree : C0Node :=
  .node ['b'] ⟨['2'], false⟩ (.node ['a'] ⟨['1'], false⟩ .null .null 0 0)
    (.node ['c'] ⟨['3'], false⟩ .null .null 0 1) 1 0

theorem searchTree_abcTree : abcTree.SearchTree :=
  ⟨⟨trivial, trivial, List.forall_mem_nil _, List.forall_mem_nil _⟩,
    ⟨trivial, trivial, List.forall_mem_nil _, List.forall_mem_nil _⟩,
    List.forall_mem_singleton.mpr (by decide), List.forall_mem_singleton.mpr (by decide)⟩

theorem dump_sorted_abc : abcTree.SearchTree ∧ abcTree ≠ .null ∧
    (abcTree.dumpToArray (List.replicate 5 none) 1).2 = 1 + abcTree.c0Size ∧
    (abcTree.dumpToArray (List.replicate 5 none) 1).1[4]? = (List.replicate 5 none)[4]? :=
  have hdump := (dump_sorted abcTree searchTree_abcTree).1 (List.replicate 5 none) 1
  ⟨searchTree_abcTree, by decide, hdump.next, hdump.outside 4 (Or.inr (by decide))⟩

end LsmKv
