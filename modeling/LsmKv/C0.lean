import LsmKv.Text
import LsmKv.Lib.KeySorted

/-!
# The memory table c0 (`c0.c`)

* `C0Node`                      the AVL tree with its stored heights;
* `insert`, `get`, `update`     as the source computes them: `get` and the value `update`
                                returns drop the result of their recursive calls;
* `dumpToArray`, `c0Size`       the batch handed to c1;
* `entries`                     the nodes in key order;
* `entries_insert`, `entries_update`   what the operations do to them.
-/

set_option linter.unusedVariables false

namespace LsmKv

def maxC0Size : Nat := 100

/-- A `char *`: the string it points to, and whether that string lies in the caller's request
buffer (`Insert` stores a copy, `Update` the pointer it is given). -/
structure CPtr where
  chars : CStr
  lent : Bool
  deriving DecidableEq, Repr

/-- what can be read there once the request buffer is freed -/
def CPtr.read (p : CPtr) : Option CStr := if p.lent then none else some p.chars

/-- the fields of a `c0_node` that its readers use -/
structure Entry where
  key : CStr
  value : CPtr
  flag : Int
  deriving DecidableEq, Repr

/-- `c0_node *`; `flag` is 0 for a valid entry and 1 for a deleted one -/
inductive C0Node where
  | null
  | node (key : CStr) (value : CPtr) (left right : C0Node) (ht flag : Int)
  deriving DecidableEq, Repr

namespace C0Node

/-- `1 + ht` of a child, 0 for NULL: the `lh` and `rh` of `height` and `BF` -/
def lh : C0Node → Int
  | null => 0
  | node _ _ _ _ ht _ => 1 + ht

def height : C0Node → Int
  | null => 0
  | node _ _ l r _ _ => if lh l > lh r then lh l else lh r

def BF : C0Node → Int
  | null => 0
  | node _ _ l r _ _ => lh l - lh r

/-- `T->ht = height(T)` -/
def setHt : C0Node → C0Node
  | null => null
  | node k v l r ht f => node k v l r (height (node k v l r ht f)) f

/-- `T->key` -/
def keyOf : C0Node → CStr
  | null => []
  | node k _ _ _ _ _ => k

-- A rotation is called on nodes that have the child it moves up.
def rotateright : C0Node → C0Node
  | node xk xv (node yk yv yl yr yh yf) xr xh xf =>
    setHt (node yk yv yl (setHt (node xk xv yr xr xh xf)) yh yf)
  | T => T

def rotateleft : C0Node → C0Node
  | node xk xv xl (node yk yv yl yr yh yf) xh xf =>
    setHt (node yk yv (setHt (node xk xv xl yl xh xf)) yr yh yf)
  | T => T

def RR (T : C0Node) : C0Node := rotateleft T

def LL (T : C0Node) : C0Node := rotateright T

def LR : C0Node → C0Node
  | node k v l r ht f => rotateright (node k v (rotateleft l) r ht f)
  | null => null

def RL : C0Node → C0Node
  | node k v l r ht f => rotateleft (node k v l (rotateright r) ht f)
  | null => null

def insert : C0Node → CStr → CStr → Int → C0Node
  | null, key, value, flag => setHt (node key ⟨value, false⟩ null null 0 flag)
  | node k v l r ht f, key, value, flag =>
    if strcmp key k > 0 then
      let r := insert r key value flag
      let T := node k v l r ht f
      setHt (if BF T = -2 then if strcmp key r.keyOf > 0 then RR T else RL T else T)
    else if strcmp key k < 0 then
      let l := insert l key value flag
      let T := node k v l r ht f
      setHt (if BF T = 2 then if strcmp key l.keyOf ≤ 0 then LL T else LR T else T)
    else setHt (node k v l r ht f)

/-- `Get`: the recursive calls have no `return`, so control falls through to `return NULL`
unless the key is at the root. -/
def get : C0Node → CStr → Option Entry
  | null, _ => none
  | node k v l r ht f, key => if strcmp key k = 0 then some ⟨k, v, f⟩ else none

/-- `Update`: the value returned and the tree after the call.  The node is changed in place
wherever it is, but only the root is returned. -/
def update : C0Node → CStr → CPtr → Int → C0Node × C0Node
  | null, _, _, _ => (null, null)
  | node k v l r ht f, key, value, flag =>
    if strcmp key k = 0 then (node k value l r ht flag, node k value l r ht flag)
    else if strcmp key k < 0 then (null, node k v (update l key value flag).2 r ht f)
    else (null, node k v l (update r key value flag).2 ht f)

/-- the array after the call (unwritten slots are `none`) and the next free index -/
def dumpToArray : C0Node → List (Option Entry) → Nat → List (Option Entry) × Nat
  | null, nodes, i => (nodes, i)
  | node k v l r _ f, nodes, i =>
    let (nodes, i) := dumpToArray l nodes i
    dumpToArray r (nodes.set i (some ⟨k, v, f⟩)) (i + 1)

def c0Size : C0Node → Nat
  | null => 0
  | node _ _ l r _ _ => c0Size l + 1 + c0Size r

/-! ## the entries of a tree -/

/-- the nodes from left to right -/
def entries : C0Node → List Entry
  | null => []
  | node k v l r _ f => entries l ++ ⟨k, v, f⟩ :: entries r

/-- strict binary search tree -/
def Bst (T : C0Node) : Prop := KeySorted.Sorted Entry.key T.entries

/-- the node with key `k`, at any depth -/
def find (T : C0Node) (k : CStr) : Option Entry := KeySorted.lookup Entry.key k T.entries

@[simp] theorem entries_null : entries null = [] := rfl

@[simp] theorem entries_node (k : CStr) (v : CPtr) (l r : C0Node) (ht f : Int) :
    entries (node k v l r ht f) = entries l ++ ⟨k, v, f⟩ :: entries r := rfl

@[simp] theorem entries_setHt (T : C0Node) : (setHt T).entries = T.entries := by
  cases T <;> rfl

@[simp] theorem entries_rotateright (T : C0Node) : (rotateright T).entries = T.entries := by
  unfold rotateright
  split <;> simp

@[simp] theorem entries_rotateleft (T : C0Node) : (rotateleft T).entries = T.entries := by
  unfold rotateleft
  split <;> simp

@[simp] theorem entries_RR (T : C0Node) : (RR T).entries = T.entries := entries_rotateleft T

@[simp] theorem entries_LL (T : C0Node) : (LL T).entries = T.entries := entries_rotateright T

@[simp] theorem entries_LR (T : C0Node) : (LR T).entries = T.entries := by
  cases T <;> simp [LR]

@[simp] theorem entries_RL (T : C0Node) : (RL T).entries = T.entries := by
  cases T <;> simp [RL]

theorem Bst.left {k : CStr} {v : CPtr} {l r : C0Node} {ht f : Int}
    (h : Bst (node k v l r ht f)) : Bst l := (KeySorted.sorted_append.mp h).1

theorem Bst.right {k : CStr} {v : CPtr} {l r : C0Node} {ht f : Int}
    (h : Bst (node k v l r ht f)) : Bst r :=
  ((KeySorted.sorted_append.mp h).2.1).tail

/-- **`Insert` adds its entry in key order**, and nothing if the key is there: no rotation
changes the entries. -/
theorem entries_insert {T : C0Node} (h : Bst T) (key value : CStr) (flag : Int) :
    (insert T key value flag).entries
      = KeySorted.insertNew Entry.key ⟨key, ⟨value, false⟩, flag⟩ T.entries := by
  induction T with
  | null => simp [insert, KeySorted.insertNew]
  | node k v l r ht f ihl ihr =>
    unfold insert
    split_ifs with h1 h2
    · have hlt : k < key := (strcmp_pos key k).mp h1
      rw [entries_node, KeySorted.insertNew_append_right h hlt, ← ihr h.right]
      simp only [entries_setHt]
      split_ifs <;> simp
    · have hlt : key < k := (strcmp_neg key k).mp h2
      rw [entries_node, KeySorted.insertNew_append_left hlt, ← ihl h.left]
      simp only [entries_setHt]
      split_ifs <;> simp
    · have he : key = k := (strcmp_zero key k).mp (by omega)
      rw [entries_setHt, entries_node, KeySorted.insertNew_append_self h he.symm]

theorem Bst.insert {T : C0Node} (h : Bst T) (key value : CStr) (flag : Int) :
    Bst (insert T key value flag) := by
  unfold Bst
  rw [entries_insert h]
  exact KeySorted.sorted_insertNew _ h

theorem bst_null : Bst null := KeySorted.sorted_nil

/-- what `Get` finds is the root -/
theorem get_eq_some {T : C0Node} {key : CStr} {e : Entry} (h : get T key = some e) :
    ∃ l r ht, T = node key e.value l r ht e.flag ∧ e.key = key := by
  cases T with
  | null => cases h
  | node k v l r ht f =>
    simp only [get] at h
    split_ifs at h with hk
    have hk' : key = k := (strcmp_zero key k).mp hk
    subst hk'
    cases h
    exact ⟨l, r, ht, rfl, rfl⟩

theorem get_mem {T : C0Node} {key : CStr} {e : Entry} (h : get T key = some e) :
    e ∈ T.entries ∧ e.key = key := by
  obtain ⟨l, r, ht, rfl, hk⟩ := get_eq_some h
  exact ⟨by simp [← hk], hk⟩

theorem get_find {T : C0Node} (hb : Bst T) {key : CStr} {e : Entry} (h : get T key = some e) :
    find T key = some e := by
  obtain ⟨hm, hk⟩ := get_mem h
  rw [← hk]
  exact hb.lookup_mem hm

/-- **`Update` at the root** changes the value and the flag of that entry and no other. -/
theorem update_root {T : C0Node} {key : CStr} {e : Entry} (h : get T key = some e) (value : CPtr)
    (flag : Int) : ∃ a b, T.entries = a ++ e :: b ∧
      (update T key value flag).1 = (update T key value flag).2 ∧
      (update T key value flag).2.entries = a ++ ⟨key, value, flag⟩ :: b := by
  obtain ⟨l, r, ht, rfl, hk⟩ := get_eq_some h
  refine ⟨l.entries, r.entries, ?_, ?_, ?_⟩
  · simp [← hk]
  · simp [update, (strcmp_zero key key).mpr]
  · simp [update, (strcmp_zero key key).mpr]

theorem Bst.update {T : C0Node} (hb : Bst T) {key : CStr} {e : Entry} (h : get T key = some e)
    (value : CPtr) (flag : Int) : Bst (update T key value flag).2 := by
  obtain ⟨a, b, h1, -, h2⟩ := update_root h value flag
  have hk := (get_mem h).2
  unfold Bst at hb ⊢
  rw [h1, KeySorted.sorted_append, KeySorted.sorted_cons] at hb
  rw [h2, KeySorted.sorted_append, KeySorted.sorted_cons]
  obtain ⟨ha, ⟨hb1, hb2⟩, hab⟩ := hb
  refine ⟨ha, ⟨fun x hx => hk ▸ hb1 x hx, hb2⟩, fun x hx y hy => ?_⟩
  rcases List.mem_cons.mp hy with rfl | hy'
  · exact hk ▸ hab x hx e (by simp)
  · exact hab x hx y (List.mem_cons_of_mem _ hy')

theorem mem_update {T : C0Node} (hb : Bst T) {key : CStr} {e : Entry} (h : get T key = some e)
    (value : CPtr) (flag : Int) (x : Entry) : x ∈ (update T key value flag).2.entries ↔
      x = ⟨key, value, flag⟩ ∨ x.key ≠ key ∧ x ∈ T.entries := by
  obtain ⟨a, b, h1, -, h2⟩ := update_root h value flag
  have hk := (get_mem h).2
  unfold Bst at hb
  rw [h1, KeySorted.sorted_append, KeySorted.sorted_cons] at hb
  obtain ⟨-, ⟨hb1, -⟩, hab⟩ := hb
  have hne : ∀ y, y ∈ a ∨ y ∈ b → y.key ≠ key := by
    rintro y (hy | hy)
    · exact hk ▸ (hab y hy e (by simp)).ne
    · exact hk ▸ (hb1 y hy).ne'
  rw [h1, h2]
  simp only [List.mem_append, List.mem_cons]
  constructor
  · rintro (hx | rfl | hx)
    · exact Or.inr ⟨hne x (Or.inl hx), Or.inl hx⟩
    · exact Or.inl rfl
    · exact Or.inr ⟨hne x (Or.inr hx), Or.inr (Or.inr hx)⟩
  · rintro (rfl | ⟨hxk, hx | rfl | hx⟩)
    · exact Or.inr (Or.inl rfl)
    · exact Or.inl hx
    · exact absurd hk hxk
    · exact Or.inr (Or.inr hx)

theorem find_insert {T : C0Node} (hb : Bst T) (key value : CStr) (flag : Int) (k : CStr) :
    find (insert T key value flag) k
      = if k = key then (find T k).or (some ⟨key, ⟨value, false⟩, flag⟩) else find T k := by
  unfold find
  rw [entries_insert hb]
  have h := KeySorted.lookup_insertNew (⟨key, ⟨value, false⟩, flag⟩ : Entry) hb k
  by_cases hk : k = key
  · rw [if_pos hk]
    exact h.trans (if_pos hk)
  · rw [if_neg hk]
    exact h.trans (if_neg hk)

theorem find_update {T : C0Node} (hb : Bst T) {key : CStr} {e : Entry} (h : get T key = some e)
    (value : CPtr) (flag : Int) (k : CStr) : find (update T key value flag).2 k
      = if k = key then some ⟨key, value, flag⟩ else find T k := by
  have hb' : Bst (update T key value flag).2 := hb.update h value flag
  have hmem := mem_update hb h value flag
  split_ifs with hk
  · subst hk
    exact hb'.lookup_mem ((hmem _).mpr (Or.inl rfl))
  · cases hf : find T k with
    | none =>
      refine KeySorted.lookup_none.mpr fun x hx => ?_
      rcases (hmem x).mp hx with rfl | ⟨-, hx'⟩
      · exact Ne.symm hk
      · exact KeySorted.lookup_none.mp hf x hx'
    | some x =>
      obtain ⟨hx, rfl⟩ := KeySorted.lookup_some hf
      exact hb'.lookup_mem ((hmem x).mpr (Or.inr ⟨hk, hx⟩))

theorem get_none_of_find {T : C0Node} (hb : Bst T) {key : CStr} (h : find T key = none) :
    get T key = none := by
  cases hg : get T key with
  | none => rfl
  | some e => rw [get_find hb hg] at h; cases h

/-! ## the batch -/

theorem c0Size_eq (T : C0Node) : T.c0Size = T.entries.length := by
  induction T with
  | null => rfl
  | node k v l r ht f ihl ihr => simp [c0Size, ihl, ihr]; omega

theorem dumpToArray_eq (T : C0Node) : ∀ a b c : List (Option Entry), b.length = T.c0Size →
    dumpToArray T (a ++ b ++ c) a.length
      = (a ++ T.entries.map some ++ c, a.length + T.c0Size) := by
  induction T with
  | null =>
    intro a b c hb
    have : b = [] := List.length_eq_zero_iff.mp hb
    simp [dumpToArray, this, c0Size]
  | node k v l r ht f ihl ihr =>
    intro a b c hb
    have hb' : b.length = l.c0Size + 1 + r.c0Size := hb
    obtain ⟨b1, b2, rfl, h1⟩ : ∃ b1 b2, b = b1 ++ b2 ∧ b1.length = l.c0Size :=
      ⟨b.take l.c0Size, b.drop l.c0Size, (List.take_append_drop _ _).symm,
        by rw [List.length_take]; omega⟩
    have h2 : b2.length = 1 + r.c0Size := by rw [List.length_append] at hb'; omega
    cases b2 with
    | nil => simp at h2; omega
    | cons x b2 =>
      have h3 : b2.length = r.c0Size := by simp only [List.length_cons] at h2; omega
      have e1 : a ++ (b1 ++ x :: b2) ++ c = a ++ b1 ++ (x :: (b2 ++ c)) := by simp
      have e2 : (a ++ l.entries.map some ++ x :: (b2 ++ c)).set (a.length + l.c0Size)
          (some ⟨k, v, f⟩)
          = (a ++ l.entries.map some ++ [some ⟨k, v, f⟩]) ++ b2 ++ c := by
        rw [List.set_append_right _ _ (by simp [c0Size_eq])]
        simp [c0Size_eq]
      have hr := ihr (a ++ l.entries.map some ++ [some ⟨k, v, f⟩]) b2 c h3
      have elen : (a ++ l.entries.map some ++ [some (⟨k, v, f⟩ : Entry)]).length
          = a.length + l.c0Size + 1 := by simp [c0Size_eq]; omega
      rw [elen] at hr
      simp only [dumpToArray]
      rw [e1, ihl a b1 _ h1]
      simp only
      rw [e2, hr]
      simp [c0Size]
      omega

/-- **The array of `c0_dump` holds the entries in key order.** -/
theorem dumpToArray_entries (T : C0Node) :
    (dumpToArray T (List.replicate T.c0Size none) 0).1 = T.entries.map some := by
  have h := dumpToArray_eq T [] (List.replicate T.c0Size none) [] (by simp)
  simp only [List.nil_append, List.append_nil, List.length_nil] at h
  rw [h]

/-- no slot of the array is left empty -/
theorem dumpToArray_mapM (T : C0Node) :
    (dumpToArray T (List.replicate T.c0Size none) 0).1.mapM id = some T.entries := by
  rw [dumpToArray_entries]
  induction T.entries with
  | nil => rfl
  | cons e l ih => simp [ih]

end C0Node

end LsmKv
