import LsmKv.C0.Avl
import LsmKv.Store.Bound
import Mathlib.Data.Nat.Fib.Basic

/-!
# How deep the table is

`Insert`, `Get`, `c0_size` and `dumpToArray` call themselves once for each level.

* `depth`          the levels of a tree;
* `fib_depth`      an AVL tree has at least `fib (depth + 2) - 1` entries;
* `insert_held`    an insertion of a key that is there changes nothing;
* `avl_tableAfter` no request takes the table out of the AVL invariant;
* `table_depth`    how deep `_T` is in the states of a run.
-/

namespace LsmKv

open Run

namespace C0Node

/-- the levels of a tree: none for NULL -/
def depth : C0Node → ℕ
  | null => 0
  | node _ _ l r _ _ => 1 + max (depth l) (depth r)

theorem trueHeight_eq (T : C0Node) : trueHeight T = depth T - 1 := by
  induction T with
  | null => rfl
  | node k v l r ht f ihl ihr =>
    rw [trueHeight_node, ihl, ihr, depth]
    omega

/-- **A tree of so many levels has that many entries.** -/
theorem fib_depth {T : C0Node} (h : Avl T) : Nat.fib (depth T + 2) ≤ T.c0Size + 1 := by
  induction T with
  | null => decide
  | node k v l r ht f ihl ihr =>
    obtain ⟨hl, hr, -, h1, h2⟩ := avl_node.mp h
    have hsize : c0Size (node k v l r ht f) = c0Size l + 1 + c0Size r := rfl
    rw [trueHeight_eq, trueHeight_eq] at h1 h2
    have ihl' := ihl hl
    have ihr' := ihr hr
    rw [depth, hsize]
    -- the other subtree is lower by one level at most
    rcases le_total (depth l) (depth r) with hle | hle
    · have hother : Nat.fib (depth r + 1) ≤ Nat.fib (depth l + 2) := Nat.fib_mono (by omega)
      have hfib : Nat.fib (depth r + 1 + 2) = Nat.fib (depth r + 1) + Nat.fib (depth r + 2) :=
        Nat.fib_add_two
      rw [max_eq_right hle, Nat.add_comm 1]
      omega
    · have hother : Nat.fib (depth l + 1) ≤ Nat.fib (depth r + 2) := Nat.fib_mono (by omega)
      have hfib : Nat.fib (depth l + 1 + 2) = Nat.fib (depth l + 1) + Nat.fib (depth l + 2) :=
        Nat.fib_add_two
      rw [max_eq_left hle, Nat.add_comm 1]
      omega

/-- `Update` leaves the shape alone -/
theorem avl_update {T : C0Node} (h : Avl T) {key : CStr} {e : Entry} (hg : T.get key = some e)
    (value : CPtr) (flag : Int) : Avl (T.update key value flag).2 := by
  obtain ⟨l, r, ht, rfl, hk⟩ := get_eq_some hg
  have hroot : ((node key e.value l r ht e.flag).update key value flag).2
      = node key value l r ht flag := by simp [update, (strcmp_zero key key).mpr]
  rw [hroot]
  exact h

/-- **`Insert` of a key that is there leaves an AVL tree as it is.** -/
theorem insert_held {T : C0Node} (hb : Bst T) (ha : Avl T) {key : CStr} (hk : key ∈ keys T)
    (value : CStr) (flag : Int) : T.insert key value flag = T := by
  induction T with
  | null => cases hk
  | node k v l r ht f ihl ihr =>
    have hsame : setHt (node k v l r ht f) = node k v l r ht f := setHt_of_htOk ha.1
    obtain ⟨hal, har, -, h1, h2⟩ := avl_node.mp ha
    have hbf : BF (node k v l r ht f) = trueHeight l - trueHeight r := BF_node hal.1 har.1
    obtain ⟨e, he, rfl⟩ := mem_keys.mp hk
    unfold Bst at hb
    rw [entries_node, KeySorted.sorted_append, KeySorted.sorted_cons] at hb
    obtain ⟨hbl, ⟨hkr, hbr⟩, hlk⟩ := hb
    rw [entries_node] at he
    unfold insert
    rcases List.mem_append.mp he with hl | hr
    · have hlt : e.key < k := hlk e hl ⟨k, v, f⟩ List.mem_cons_self
      have hneg := (strcmp_neg e.key k).mpr hlt
      rw [if_neg (by omega), if_pos hneg, ihl hbl hal (mem_keys.mpr ⟨e, hl, rfl⟩)]
      dsimp only
      rw [if_neg (by omega), hsame]
    · rcases List.mem_cons.mp hr with rfl | hr
      · have hzero : strcmp (⟨k, v, f⟩ : Entry).key k = 0 := (strcmp_zero k k).mpr rfl
        rw [if_neg (by omega), if_neg (by omega), hsame]
      · have hlt : k < e.key := hkr e hr
        have hpos := (strcmp_pos e.key k).mpr hlt
        rw [if_pos (by omega), ihr hbr har (mem_keys.mpr ⟨e, hr, rfl⟩)]
        dsimp only
        rw [if_neg (by omega), hsame]

end C0Node

open C0Node

theorem avl_grown {T : C0Node} (h : Avl T) (key value : CStr) : Avl (grown T key value) := by
  unfold grown
  split_ifs
  · exact avl_null
  · exact (avl_insert h key value 0).1

theorem avl_tombstoned {T : C0Node} (h : Avl T) (key : CStr) : Avl (tombstoned T key) := by
  cases hg : T.get key with
  | none =>
    rw [tombstoned_insert hg]
    exact (avl_insert h _ _ _).1
  | some e =>
    rw [tombstoned_root hg]
    exact avl_update h hg _ _

theorem avl_tableAfter {s : Store} (h : Avl s.T) (r : Req) : Avl (tableAfter s r) := by
  cases r with
  | put key value =>
    show Avl (if _ then _ else _)
    cases hg : s.T.get key with
    | none =>
      rw [if_neg (not_not.mpr rfl)]
      exact avl_grown h key value
    | some e =>
      rw [if_pos (by simp)]
      exact avl_update h hg _ _
  | insert key value =>
    show Avl (if _ then _ else _)
    split_ifs
    · exact h
    · exact avl_grown h key value
  | delete key => exact avl_tombstoned h key
  | get key => exact h
  | timer => exact avl_null

/-- **The table of a server is an AVL tree** after any run of requests and flushes, so that its
depth stays logarithmic in its size: at most 9 levels as long as it has at most `MAX_C0_SIZE`
entries. -/
theorem table_depth (rs : List Req) (s : Store) (hr : run Store.step Store.empty rs = some s) :
    Avl s.T ∧ Nat.fib (depth s.T + 2) ≤ s.T.c0Size + 1 ∧
      (s.T.c0Size ≤ maxC0Size → depth s.T ≤ 9) := by
  have hstep : ∀ (s : Store) (r : Req) (s' : Store), Avl s.T → True → s.step r = some s' →
      Avl s'.T := fun s r s' hi _ hs => step_table hs ▸ avl_tableAfter hi r
  have h : Avl s.T := inv_of_guarded hstep avl_null (guarded_of_forall fun _ _ _ => trivial) hr
  have hfib := fib_depth h
  refine ⟨h, hfib, fun hsize => ?_⟩
  by_contra hdeep
  have h12 : Nat.fib 12 ≤ Nat.fib (depth s.T + 2) := Nat.fib_mono (by omega)
  have h144 : Nat.fib 12 = 144 := by decide
  have h100 : maxC0Size = 100 := rfl
  omega

theorem table_depth_puts : ∃ s,
    run Store.step Store.empty [.put ['a'] ['1'], .put ['b'] ['2'], .put ['c'] ['3']] = some s ∧
      s.T.c0Size = 3 ∧ depth s.T ≤ 9 := by
  have hsize : (run Store.step Store.empty
      [.put ['a'] ['1'], .put ['b'] ['2'], .put ['c'] ['3']]).map (fun s => s.T.c0Size)
      = some 3 := by decide +kernel
  obtain ⟨s, hr, hs⟩ := Option.map_eq_some_iff.mp hsize
  obtain ⟨-, -, hdepth⟩ := table_depth _ s hr
  exact ⟨s, hr, hs, hdepth (by rw [hs]; decide)⟩

end LsmKv
