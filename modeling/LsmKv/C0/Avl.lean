import LsmKv.C0

/-!
# c0 as an AVL tree (`c0.c`)

* `delete`                   successor replacement, rebalanced by the child's balance factor;
* `trueHeight`               what a stored `ht` should be: 0 at a leaf, -1 at NULL;
* `HtOk`, `Balanced`, `Avl`  the invariant, node by node;
* `avl_insert`, `avl_delete` one call keeps it and moves the height by at most one;
* `avl_run`                  any sequence of calls from NULL: search tree, heights, balance, keys.
-/

namespace LsmKv

namespace C0Node

/-- `while (p->left != NULL) p = p->left` -/
def leftmost : C0Node → C0Node
  | null => null
  | node k v null r ht f => node k v null r ht f
  | node _ _ (node lk lv ll lr lh lf) _ _ _ => leftmost (node lk lv ll lr lh lf)

/-- `p->value` -/
def valueOf : C0Node → CPtr
  | null => ⟨[], false⟩
  | node _ v _ _ _ _ => v

/-- `Delete`: the successor's key and value move up, the flag of the node stays. -/
def delete : C0Node → CStr → C0Node
  | null, _ => null
  | node k v l r ht f, key =>
    if strcmp key k > 0 then
      let T := node k v l (delete r key) ht f
      setHt (if BF T = 2 then if BF l ≥ 0 then LL T else LR T else T)
    else if strcmp key k < 0 then
      let T := node k v (delete l key) r ht f
      setHt (if BF T = -2 then if BF r ≤ 0 then RR T else RL T else T)
    else if r ≠ null then
      let p := leftmost r
      let T := node p.keyOf p.valueOf l (delete r p.keyOf) ht f
      setHt (if BF T = 2 then if BF l ≥ 0 then LL T else LR T else T)
    else l

/-! ## heights and balance -/

/-- the height of a subtree: 0 at a leaf, -1 at NULL -/
def trueHeight : C0Node → Int
  | null => -1
  | node _ _ l r _ _ => 1 + max (trueHeight l) (trueHeight r)

/-- every stored `ht` is the height of its subtree -/
def HtOk : C0Node → Prop
  | null => True
  | node k v l r ht f => ht = trueHeight (node k v l r ht f) ∧ HtOk l ∧ HtOk r

/-- every node's `BF` is -1, 0 or 1 -/
def Balanced : C0Node → Prop
  | null => True
  | node k v l r ht f =>
    (BF (node k v l r ht f) = -1 ∨ BF (node k v l r ht f) = 0 ∨ BF (node k v l r ht f) = 1) ∧
      Balanced l ∧ Balanced r

def Avl (T : C0Node) : Prop := HtOk T ∧ Balanced T

@[simp] theorem trueHeight_null : trueHeight null = -1 := rfl

@[simp] theorem trueHeight_node (k : CStr) (v : CPtr) (l r : C0Node) (ht f : Int) :
    trueHeight (node k v l r ht f) = 1 + max (trueHeight l) (trueHeight r) := rfl

theorem trueHeight_ge (T : C0Node) : -1 ≤ trueHeight T := by
  induction T with
  | null => simp
  | node k v l r ht f ihl ihr => rw [trueHeight_node]; omega

@[simp] theorem trueHeight_setHt (T : C0Node) : trueHeight (setHt T) = trueHeight T := by
  cases T <;> rfl

theorem lh_eq {T : C0Node} (h : HtOk T) : lh T = 1 + trueHeight T := by
  cases T with
  | null => rfl
  | node k v l r ht f =>
    show 1 + ht = _
    exact congrArg (1 + ·) h.1

theorem BF_node {k : CStr} {v : CPtr} {l r : C0Node} {ht f : Int} (hl : HtOk l) (hr : HtOk r) :
    BF (node k v l r ht f) = trueHeight l - trueHeight r := by
  show lh l - lh r = _
  rw [lh_eq hl, lh_eq hr]
  omega

theorem height_node {k : CStr} {v : CPtr} {l r : C0Node} {ht f : Int} (hl : HtOk l)
    (hr : HtOk r) : height (node k v l r ht f) = trueHeight (node k v l r ht f) := by
  show (if lh l > lh r then lh l else lh r) = _
  rw [lh_eq hl, lh_eq hr, trueHeight_node]
  split_ifs <;> omega

theorem setHt_of_htOk {T : C0Node} (h : HtOk T) : setHt T = T := by
  cases T with
  | null => rfl
  | node k v l r ht f =>
    show node k v l r (height (node k v l r ht f)) f = _
    rw [height_node h.2.1 h.2.2, ← h.1]

theorem avl_null : Avl null := ⟨trivial, trivial⟩

theorem avl_node {k : CStr} {v : CPtr} {l r : C0Node} {ht f : Int} :
    Avl (node k v l r ht f) ↔ Avl l ∧ Avl r ∧ ht = 1 + max (trueHeight l) (trueHeight r) ∧
      trueHeight l ≤ trueHeight r + 1 ∧ trueHeight r ≤ trueHeight l + 1 := by
  constructor
  · rintro ⟨⟨hh, hhl, hhr⟩, hb, hbl, hbr⟩
    rw [BF_node hhl hhr] at hb
    exact ⟨⟨hhl, hbl⟩, ⟨hhr, hbr⟩, hh, by omega, by omega⟩
  · rintro ⟨⟨hhl, hbl⟩, ⟨hhr, hbr⟩, hh, h1, h2⟩
    refine ⟨⟨hh, hhl, hhr⟩, ?_, hbl, hbr⟩
    rw [BF_node hhl hhr]
    omega

/-- a node with balanced children is put right by `T->ht = height(T)` -/
theorem avl_setHt {k : CStr} {v : CPtr} {l r : C0Node} {ht f : Int} (hl : Avl l) (hr : Avl r)
    (h1 : trueHeight l ≤ trueHeight r + 1) (h2 : trueHeight r ≤ trueHeight l + 1) :
    Avl (setHt (node k v l r ht f)) := by
  apply avl_node.mpr
  exact ⟨hl, hr, height_node hl.1 hr.1, h1, h2⟩

/-! ## the four rotations

Each is called where one side is two higher than the other; `BF` of the higher child decides. -/

section rotations
variable {k : CStr} {v : CPtr} {l r : C0Node} {ht f : Int} (hl : Avl l) (hr : Avl r)
include hl hr

theorem avl_RR (h : trueHeight r = trueHeight l + 2) (hb : BF r ≤ 0) :
    Avl (RR (node k v l r ht f)) ∧
      trueHeight (RR (node k v l r ht f)) = trueHeight r + (if BF r = 0 then 1 else 0) := by
  cases r with
  | null =>
    have := trueHeight_ge l
    rw [trueHeight_null] at h
    omega
  | node yk yv yl yr yh yf =>
    obtain ⟨hyl, hyr, -, h1, h2⟩ := avl_node.mp hr
    rw [trueHeight_node] at h
    rw [BF_node hyl.1 hyr.1] at hb ⊢
    have hin : Avl (setHt (node k v l yl ht f)) := avl_setHt hl hyl (by omega) (by omega)
    show Avl (setHt (node yk yv (setHt (node k v l yl ht f)) yr yh yf)) ∧
      trueHeight (setHt (node yk yv (setHt (node k v l yl ht f)) yr yh yf)) = _
    refine ⟨avl_setHt hin hyr ?_ ?_, ?_⟩
    · rw [trueHeight_setHt, trueHeight_node]; omega
    · rw [trueHeight_setHt, trueHeight_node]; omega
    · rw [trueHeight_setHt, trueHeight_node, trueHeight_setHt, trueHeight_node, trueHeight_node]
      split_ifs <;> omega

theorem avl_LL (h : trueHeight l = trueHeight r + 2) (hb : 0 ≤ BF l) :
    Avl (LL (node k v l r ht f)) ∧
      trueHeight (LL (node k v l r ht f)) = trueHeight l + (if BF l = 0 then 1 else 0) := by
  cases l with
  | null =>
    have := trueHeight_ge r
    rw [trueHeight_null] at h
    omega
  | node yk yv yl yr yh yf =>
    obtain ⟨hyl, hyr, -, h1, h2⟩ := avl_node.mp hl
    rw [trueHeight_node] at h
    rw [BF_node hyl.1 hyr.1] at hb ⊢
    have hin : Avl (setHt (node k v yr r ht f)) := avl_setHt hyr hr (by omega) (by omega)
    show Avl (setHt (node yk yv yl (setHt (node k v yr r ht f)) yh yf)) ∧
      trueHeight (setHt (node yk yv yl (setHt (node k v yr r ht f)) yh yf)) = _
    refine ⟨avl_setHt hyl hin ?_ ?_, ?_⟩
    · rw [trueHeight_setHt, trueHeight_node]; omega
    · rw [trueHeight_setHt, trueHeight_node]; omega
    · rw [trueHeight_setHt, trueHeight_node, trueHeight_setHt, trueHeight_node, trueHeight_node]
      split_ifs <;> omega

theorem avl_RL (h : trueHeight r = trueHeight l + 2) (hb : 0 < BF r) :
    Avl (RL (node k v l r ht f)) ∧ trueHeight (RL (node k v l r ht f)) = trueHeight r := by
  cases r with
  | null => exact absurd hb (by simp [BF])
  | node yk yv yl yr yh yf =>
    obtain ⟨hyl, hyr, -, h1, h2⟩ := avl_node.mp hr
    rw [BF_node hyl.1 hyr.1] at hb
    cases yl with
    | null =>
      have := trueHeight_ge yr
      rw [trueHeight_null] at hb
      omega
    | node zk zv zl zr zh zf =>
      obtain ⟨hzl, hzr, -, h3, h4⟩ := avl_node.mp hyl
      simp only [trueHeight_node] at h h1 h2 hb ⊢
      have hinl : Avl (setHt (node k v l zl ht f)) := avl_setHt hl hzl (by omega) (by omega)
      have hinr : Avl (setHt (node yk yv zr yr yh yf)) := avl_setHt hzr hyr (by omega) (by omega)
      show Avl (setHt (node zk zv (setHt (node k v l zl ht f))
          (setHt (node yk yv zr yr yh yf)) _ zf)) ∧
        trueHeight (setHt (node zk zv (setHt (node k v l zl ht f))
          (setHt (node yk yv zr yr yh yf)) _ zf)) = _
      refine ⟨avl_setHt hinl hinr ?_ ?_, ?_⟩
      all_goals simp only [trueHeight_setHt, trueHeight_node]
      all_goals omega

theorem avl_LR (h : trueHeight l = trueHeight r + 2) (hb : BF l < 0) :
    Avl (LR (node k v l r ht f)) ∧ trueHeight (LR (node k v l r ht f)) = trueHeight l := by
  cases l with
  | null => exact absurd hb (by simp [BF])
  | node yk yv yl yr yh yf =>
    obtain ⟨hyl, hyr, -, h1, h2⟩ := avl_node.mp hl
    rw [BF_node hyl.1 hyr.1] at hb
    cases yr with
    | null =>
      have := trueHeight_ge yl
      rw [trueHeight_null] at hb
      omega
    | node zk zv zl zr zh zf =>
      obtain ⟨hzl, hzr, -, h3, h4⟩ := avl_node.mp hyr
      simp only [trueHeight_node] at h h1 h2 hb ⊢
      have hinl : Avl (setHt (node yk yv yl zl yh yf)) := avl_setHt hyl hzl (by omega) (by omega)
      have hinr : Avl (setHt (node k v zr r ht f)) := avl_setHt hzr hr (by omega) (by omega)
      show Avl (setHt (node zk zv (setHt (node yk yv yl zl yh yf))
          (setHt (node k v zr r ht f)) _ zf)) ∧
        trueHeight (setHt (node zk zv (setHt (node yk yv yl zl yh yf))
          (setHt (node k v zr r ht f)) _ zf)) = _
      refine ⟨avl_setHt hinl hinr ?_ ?_, ?_⟩
      all_goals simp only [trueHeight_setHt, trueHeight_node]
      all_goals omega

end rotations

/-! ## one call -/

/-- `if (BF(T) == -2)`, the choice between `RR` and `RL` by the right child's balance factor, and
`T->ht = height(T)`: one lower than `T` where a rotation met a leaning child -/
theorem avl_rebalance_right {k : CStr} {v : CPtr} {l r : C0Node} {ht f : Int} (hl : Avl l)
    (hr : Avl r) (h1 : trueHeight l ≤ trueHeight r + 1) (h2 : trueHeight r ≤ trueHeight l + 2) :
    let T := node k v l r ht f
    let T' := setHt (if BF T = -2 then if BF r ≤ 0 then RR T else RL T else T)
    Avl T' ∧ trueHeight T' = trueHeight T - if BF T = -2 ∧ BF r ≠ 0 then 1 else 0 := by
  intro T T'
  have hbf : BF T = trueHeight l - trueHeight r := BF_node hl.1 hr.1
  have hT : trueHeight T = 1 + max (trueHeight l) (trueHeight r) := rfl
  by_cases hb : BF T = -2
  · by_cases hbr : BF r ≤ 0
    · obtain ⟨ha, hh⟩ : Avl (RR T) ∧ trueHeight (RR T) = trueHeight r + _ :=
        avl_RR hl hr (by omega) hbr
      have hT' : T' = RR T := by
        simp only [T', if_pos hb, if_pos hbr]
        exact setHt_of_htOk ha.1
      rw [hT', hh, hT]
      refine ⟨ha, ?_⟩
      split_ifs <;> omega
    · obtain ⟨ha, hh⟩ : Avl (RL T) ∧ trueHeight (RL T) = trueHeight r :=
        avl_RL hl hr (by omega) (by omega)
      have hT' : T' = RL T := by
        simp only [T', if_pos hb, if_neg hbr]
        exact setHt_of_htOk ha.1
      rw [hT', hh, hT, if_pos ⟨hb, by omega⟩]
      exact ⟨ha, by omega⟩
  · have hT' : T' = setHt T := by simp only [T', if_neg hb]
    rw [hT', trueHeight_setHt, if_neg fun h => hb h.1]
    exact ⟨avl_setHt hl hr h1 (by omega), by omega⟩

/-- the same for `if (BF(T) == 2)` -/
theorem avl_rebalance_left {k : CStr} {v : CPtr} {l r : C0Node} {ht f : Int} (hl : Avl l)
    (hr : Avl r) (h1 : trueHeight r ≤ trueHeight l + 1) (h2 : trueHeight l ≤ trueHeight r + 2) :
    let T := node k v l r ht f
    let T' := setHt (if BF T = 2 then if BF l ≥ 0 then LL T else LR T else T)
    Avl T' ∧ trueHeight T' = trueHeight T - if BF T = 2 ∧ BF l ≠ 0 then 1 else 0 := by
  intro T T'
  have hbf : BF T = trueHeight l - trueHeight r := BF_node hl.1 hr.1
  have hT : trueHeight T = 1 + max (trueHeight l) (trueHeight r) := rfl
  by_cases hb : BF T = 2
  · by_cases hbl : BF l ≥ 0
    · obtain ⟨ha, hh⟩ : Avl (LL T) ∧ trueHeight (LL T) = trueHeight l + _ :=
        avl_LL hl hr (by omega) hbl
      have hT' : T' = LL T := by
        simp only [T', if_pos hb, if_pos hbl]
        exact setHt_of_htOk ha.1
      rw [hT', hh, hT]
      refine ⟨ha, ?_⟩
      split_ifs <;> omega
    · obtain ⟨ha, hh⟩ : Avl (LR T) ∧ trueHeight (LR T) = trueHeight l :=
        avl_LR hl hr (by omega) (by omega)
      have hT' : T' = LR T := by
        simp only [T', if_pos hb, if_neg hbl]
        exact setHt_of_htOk ha.1
      rw [hT', hh, hT, if_pos ⟨hb, by omega⟩]
      exact ⟨ha, by omega⟩
  · have hT' : T' = setHt T := by simp only [T', if_neg hb]
    rw [hT', trueHeight_setHt, if_neg fun h => hb h.1]
    exact ⟨avl_setHt hl hr (by omega) h1, by omega⟩

/-- A tree that an `Insert` made higher leans to the side of the key: the comparison by which
`Insert` picks its rotation then agrees with the balance factor. -/
def LeansTo (key : CStr) (T : C0Node) : Prop :=
  (0 < strcmp key T.keyOf ∧ BF T = -1) ∨ (strcmp key T.keyOf < 0 ∧ BF T = 1)

/-- the step of `Insert` into the right subtree, once that subtree is known -/
theorem avl_insert_right {k key : CStr} {v : CPtr} {l r r' : C0Node} {ht f : Int} (hl : Avl l)
    (hr' : Avl r') (h1 : trueHeight l ≤ trueHeight r + 1) (h2 : trueHeight r ≤ trueHeight l + 1)
    (hkey : 0 < strcmp key k) (hg : trueHeight r' = trueHeight r ∨
      trueHeight r' = trueHeight r + 1 ∧ (r ≠ null → LeansTo key r')) :
    let T := node k v l r' ht f
    let T' := setHt (if BF T = -2 then if strcmp key r'.keyOf > 0 then RR T else RL T else T)
    Avl T' ∧ (trueHeight T' = trueHeight (node k v l r ht f) ∨
      trueHeight T' = trueHeight (node k v l r ht f) + 1 ∧ LeansTo key T') := by
  intro T T'
  have hbf : BF T = trueHeight l - trueHeight r' := BF_node hl.1 hr'.1
  have hT : trueHeight T = 1 + max (trueHeight l) (trueHeight r') := rfl
  rw [trueHeight_node]
  have hge := trueHeight_ge l
  by_cases hb : BF T = -2
  · have hne : r ≠ null := by
      rintro rfl
      rw [trueHeight_null] at hg h1
      omega
    -- the right subtree grew, so the key is on the side it leans to
    have hlean : LeansTo key r' := by
      rcases hg with hg | ⟨-, hg⟩
      · omega
      · exact hg hne
    have htest : (strcmp key r'.keyOf > 0) = (BF r' ≤ 0) := by
      apply propext
      rcases hlean with ⟨h3, h4⟩ | ⟨h3, h4⟩ <;> constructor <;> intro <;> omega
    have hleans : BF r' ≠ 0 := by rcases hlean with ⟨-, h4⟩ | ⟨-, h4⟩ <;> omega
    obtain ⟨ha, hh⟩ : Avl T' ∧ trueHeight T' = trueHeight T - 1 := by
      have h : Avl (setHt (if BF T = -2 then if BF r' ≤ 0 then RR T else RL T else T)) ∧
          trueHeight (setHt (if BF T = -2 then if BF r' ≤ 0 then RR T else RL T else T))
            = trueHeight T - if BF T = -2 ∧ BF r' ≠ 0 then 1 else 0 :=
        avl_rebalance_right hl hr' (by omega) (by omega)
      have hone : (if BF T = -2 ∧ BF r' ≠ 0 then (1 : Int) else 0) = 1 := if_pos ⟨hb, hleans⟩
      rw [hone] at h
      simp only [T', htest]
      exact h
    exact ⟨ha, Or.inl (by omega)⟩
  · have hT' : T' = setHt T := by simp only [T', if_neg hb]
    rw [hT', trueHeight_setHt]
    refine ⟨avl_setHt hl hr' (by omega) (by omega), ?_⟩
    by_cases hh : trueHeight T = 1 + max (trueHeight l) (trueHeight r)
    · exact Or.inl hh
    · exact Or.inr ⟨by omega, Or.inl ⟨hkey, show BF T = -1 by omega⟩⟩

/-- the step of `Insert` into the left subtree, once that subtree is known -/
theorem avl_insert_left {k key : CStr} {v : CPtr} {l r l' : C0Node} {ht f : Int} (hr : Avl r)
    (hl' : Avl l') (h1 : trueHeight l ≤ trueHeight r + 1) (h2 : trueHeight r ≤ trueHeight l + 1)
    (hkey : strcmp key k < 0) (hg : trueHeight l' = trueHeight l ∨
      trueHeight l' = trueHeight l + 1 ∧ (l ≠ null → LeansTo key l')) :
    let T := node k v l' r ht f
    let T' := setHt (if BF T = 2 then if strcmp key l'.keyOf ≤ 0 then LL T else LR T else T)
    Avl T' ∧ (trueHeight T' = trueHeight (node k v l r ht f) ∨
      trueHeight T' = trueHeight (node k v l r ht f) + 1 ∧ LeansTo key T') := by
  intro T T'
  have hbf : BF T = trueHeight l' - trueHeight r := BF_node hl'.1 hr.1
  have hT : trueHeight T = 1 + max (trueHeight l') (trueHeight r) := rfl
  rw [trueHeight_node]
  have hge := trueHeight_ge r
  by_cases hb : BF T = 2
  · have hne : l ≠ null := by
      rintro rfl
      rw [trueHeight_null] at hg h2
      omega
    have hlean : LeansTo key l' := by
      rcases hg with hg | ⟨-, hg⟩
      · omega
      · exact hg hne
    have htest : (strcmp key l'.keyOf ≤ 0) = (BF l' ≥ 0) := by
      apply propext
      rcases hlean with ⟨h3, h4⟩ | ⟨h3, h4⟩ <;> constructor <;> intro <;> omega
    have hleans : BF l' ≠ 0 := by rcases hlean with ⟨-, h4⟩ | ⟨-, h4⟩ <;> omega
    obtain ⟨ha, hh⟩ : Avl T' ∧ trueHeight T' = trueHeight T - 1 := by
      have h : Avl (setHt (if BF T = 2 then if BF l' ≥ 0 then LL T else LR T else T)) ∧
          trueHeight (setHt (if BF T = 2 then if BF l' ≥ 0 then LL T else LR T else T))
            = trueHeight T - if BF T = 2 ∧ BF l' ≠ 0 then 1 else 0 :=
        avl_rebalance_left hl' hr (by omega) (by omega)
      have hone : (if BF T = 2 ∧ BF l' ≠ 0 then (1 : Int) else 0) = 1 := if_pos ⟨hb, hleans⟩
      rw [hone] at h
      simp only [T', htest]
      exact h
    exact ⟨ha, Or.inl (by omega)⟩
  · have hT' : T' = setHt T := by simp only [T', if_neg hb]
    rw [hT', trueHeight_setHt]
    refine ⟨avl_setHt hl' hr (by omega) (by omega), ?_⟩
    by_cases hh : trueHeight T = 1 + max (trueHeight l) (trueHeight r)
    · exact Or.inl hh
    · exact Or.inr ⟨by omega, Or.inr ⟨hkey, show BF T = 1 by omega⟩⟩

/-- **`Insert` keeps the AVL invariant** and makes the tree higher by at most one. -/
theorem avl_insert {T : C0Node} (h : Avl T) (key value : CStr) (flag : Int) :
    Avl (insert T key value flag) ∧
      (trueHeight (insert T key value flag) = trueHeight T ∨
        trueHeight (insert T key value flag) = trueHeight T + 1 ∧
          (T ≠ null → LeansTo key (insert T key value flag))) := by
  induction T with
  | null =>
    refine ⟨avl_setHt avl_null avl_null (by omega) (by omega), Or.inr ⟨rfl, ?_⟩⟩
    intro h
    exact absurd rfl h
  | node k v l r ht f ihl ihr =>
    obtain ⟨hl, hr, -, h1, h2⟩ := avl_node.mp h
    have weaken : ∀ T' : C0Node, Avl T' ∧ (trueHeight T' = trueHeight (node k v l r ht f) ∨
        trueHeight T' = trueHeight (node k v l r ht f) + 1 ∧ LeansTo key T') →
        Avl T' ∧ (trueHeight T' = trueHeight (node k v l r ht f) ∨
          trueHeight T' = trueHeight (node k v l r ht f) + 1 ∧
            (node k v l r ht f ≠ null → LeansTo key T')) := fun T' hT' =>
      ⟨hT'.1, hT'.2.imp_right fun hg => ⟨hg.1, fun _ => hg.2⟩⟩
    unfold insert
    split_ifs with hc1 hc2
    · obtain ⟨hr', hg⟩ := ihr hr
      exact weaken _ (avl_insert_right hl hr' h1 h2 hc1 hg)
    · obtain ⟨hl', hg⟩ := ihl hl
      exact weaken _ (avl_insert_left hr hl' h1 h2 hc2 hg)
    · rw [setHt_of_htOk h.1]
      exact ⟨h, Or.inl rfl⟩

/-- the step of `Delete` after a deletion in the right subtree -/
theorem avl_delete_right {k pk : CStr} {v pv : CPtr} {l r r' : C0Node} {ht f : Int} (hl : Avl l)
    (hr' : Avl r') (h1 : trueHeight l ≤ trueHeight r + 1) (h2 : trueHeight r ≤ trueHeight l + 1)
    (hs : trueHeight r' = trueHeight r ∨ trueHeight r' = trueHeight r - 1) :
    let T := node pk pv l r' ht f
    let T' := setHt (if BF T = 2 then if BF l ≥ 0 then LL T else LR T else T)
    Avl T' ∧ (trueHeight T' = trueHeight (node k v l r ht f) ∨
      trueHeight T' = trueHeight (node k v l r ht f) - 1) := by
  intro T T'
  have hbf : BF T = trueHeight l - trueHeight r' := BF_node hl.1 hr'.1
  have hT : trueHeight T = 1 + max (trueHeight l) (trueHeight r') := rfl
  obtain ⟨ha, hh⟩ : Avl T' ∧
      trueHeight T' = trueHeight T - if BF T = 2 ∧ BF l ≠ 0 then 1 else 0 :=
    avl_rebalance_left hl hr' (by omega) (by omega)
  have hN : trueHeight (node k v l r ht f) = 1 + max (trueHeight l) (trueHeight r) := rfl
  refine ⟨ha, ?_⟩
  split_ifs at hh <;> omega

/-- the step of `Delete` after a deletion in the left subtree -/
theorem avl_delete_left {k : CStr} {v : CPtr} {l r l' : C0Node} {ht f : Int} (hr : Avl r)
    (hl' : Avl l') (h1 : trueHeight l ≤ trueHeight r + 1) (h2 : trueHeight r ≤ trueHeight l + 1)
    (hs : trueHeight l' = trueHeight l ∨ trueHeight l' = trueHeight l - 1) :
    let T := node k v l' r ht f
    let T' := setHt (if BF T = -2 then if BF r ≤ 0 then RR T else RL T else T)
    Avl T' ∧ (trueHeight T' = trueHeight (node k v l r ht f) ∨
      trueHeight T' = trueHeight (node k v l r ht f) - 1) := by
  intro T T'
  have hbf : BF T = trueHeight l' - trueHeight r := BF_node hl'.1 hr.1
  have hT : trueHeight T = 1 + max (trueHeight l') (trueHeight r) := rfl
  obtain ⟨ha, hh⟩ : Avl T' ∧
      trueHeight T' = trueHeight T - if BF T = -2 ∧ BF r ≠ 0 then 1 else 0 :=
    avl_rebalance_right hl' hr (by omega) (by omega)
  have hN : trueHeight (node k v l r ht f) = 1 + max (trueHeight l) (trueHeight r) := rfl
  refine ⟨ha, ?_⟩
  split_ifs at hh <;> omega

/-- **`Delete` keeps the AVL invariant** and makes the tree lower by at most one. -/
theorem avl_delete {T : C0Node} (h : Avl T) (key : CStr) : Avl (delete T key) ∧
    (trueHeight (delete T key) = trueHeight T ∨
      trueHeight (delete T key) = trueHeight T - 1) := by
  induction T generalizing key with
  | null => exact ⟨avl_null, Or.inl rfl⟩
  | node k v l r ht f ihl ihr =>
    obtain ⟨hl, hr, -, h1, h2⟩ := avl_node.mp h
    by_cases hc1 : strcmp key k > 0
    · rw [delete, if_pos hc1]
      obtain ⟨hr', hs⟩ := ihr hr key
      exact avl_delete_right hl hr' h1 h2 hs
    by_cases hc2 : strcmp key k < 0
    · rw [delete, if_neg hc1, if_pos hc2]
      obtain ⟨hl', hs⟩ := ihl hl key
      exact avl_delete_left hr hl' h1 h2 hs
    by_cases hc3 : r ≠ null
    · rw [delete, if_neg hc1, if_neg hc2, if_pos hc3]
      obtain ⟨hr', hs⟩ := ihr hr (leftmost r).keyOf
      exact avl_delete_right hl hr' h1 h2 hs
    · rw [delete, if_neg hc1, if_neg hc2, if_neg hc3]
      have hr0 : r = null := not_not.mp hc3
      have := trueHeight_ge l
      rw [hr0, trueHeight_null] at h1
      rw [hr0, trueHeight_node, trueHeight_null]
      exact ⟨hl, by omega⟩

/-! ## the keys -/

/-- the key-value pairs from left to right -/
def pairs (T : C0Node) : List (CStr × CPtr) := T.entries.map fun e => (e.key, e.value)

def keys (T : C0Node) : List CStr := T.entries.map Entry.key

@[simp] theorem pairs_null : pairs null = [] := rfl

@[simp] theorem pairs_node (k : CStr) (v : CPtr) (l r : C0Node) (ht f : Int) :
    pairs (node k v l r ht f) = pairs l ++ (k, v) :: pairs r := by simp [pairs]

theorem keys_eq (T : C0Node) : keys T = T.pairs.map Prod.fst := by simp [keys, pairs]

theorem bst_iff_pairs (T : C0Node) : Bst T ↔ KeySorted.Sorted Prod.fst T.pairs := by
  unfold Bst KeySorted.Sorted pairs
  rw [List.pairwise_map]

theorem pairs_leftmost {T : C0Node} (h : T ≠ null) :
    ∃ rest, pairs T = (T.leftmost.keyOf, T.leftmost.valueOf) :: rest := by
  induction T with
  | null => exact absurd rfl h
  | node k v l r ht f ihl ihr =>
    cases l with
    | null => exact ⟨pairs r, rfl⟩
    | node lk lv ll lr lh lf =>
      obtain ⟨rest, he⟩ := ihl (by simp)
      rw [pairs_node, he]
      exact ⟨rest ++ (k, v) :: pairs r, rfl⟩

section entries_delete
variable {k key : CStr} {v : CPtr} {l r : C0Node} {ht f : Int}

/-- `Delete` in the right subtree: a rotation keeps the entries -/
theorem entries_delete_gt (h : k < key) : (delete (node k v l r ht f) key).entries
    = l.entries ++ ⟨k, v, f⟩ :: (delete r key).entries := by
  rw [delete, if_pos ((strcmp_pos key k).mpr h)]
  simp only [entries_setHt]
  split_ifs <;> simp

theorem entries_delete_lt (h : key < k) : (delete (node k v l r ht f) key).entries
    = (delete l key).entries ++ ⟨k, v, f⟩ :: r.entries := by
  have hneg := (strcmp_neg key k).mpr h
  rw [delete, if_neg (not_lt.mpr hneg.le), if_pos hneg]
  simp only [entries_setHt]
  split_ifs <;> simp

/-- successor replacement -/
theorem entries_delete_self (hr : r ≠ null) : (delete (node k v l r ht f) k).entries
    = l.entries ++ ⟨r.leftmost.keyOf, r.leftmost.valueOf, f⟩
        :: (delete r r.leftmost.keyOf).entries := by
  have h0 := (strcmp_zero k k).mpr rfl
  rw [delete, if_neg (by rw [h0]; exact lt_irrefl 0), if_neg (by rw [h0]; exact lt_irrefl 0),
    if_pos hr]
  simp only [entries_setHt]
  split_ifs <;> simp

theorem delete_self_null : delete (node k v l null ht f) k = l := by
  have h0 := (strcmp_zero k k).mpr rfl
  rw [delete, if_neg (by rw [h0]; exact lt_irrefl 0), if_neg (by rw [h0]; exact lt_irrefl 0),
    if_neg (not_not.mpr rfl)]

end entries_delete

/-- **`Delete` removes the pair of its key** and no other: the successor's pair moves up. -/
theorem pairs_delete {T : C0Node} (h : Bst T) (key : CStr) :
    pairs (delete T key) = KeySorted.erase Prod.fst key T.pairs := by
  induction T generalizing key with
  | null => rfl
  | node k v l r ht f ihl ihr =>
    have hs : KeySorted.Sorted Prod.fst (pairs l ++ (k, v) :: pairs r) := by
      rw [← pairs_node k v l r ht f]
      exact (bst_iff_pairs _).mp h
    rw [pairs_node]
    rcases lt_trichotomy k key with hlt | rfl | hlt
    · rw [pairs, entries_delete_gt hlt, List.map_append, List.map_cons,
        KeySorted.erase_append_right hs hlt]
      exact congrArg (fun m => pairs l ++ (k, v) :: m) (ihr h.right key)
    · rw [KeySorted.erase_append_self hs]
      by_cases hr : r = null
      · subst hr
        rw [delete_self_null, pairs_null, List.append_nil]
      · obtain ⟨rest, hp⟩ := pairs_leftmost hr
        have hsr : KeySorted.Sorted Prod.fst (pairs r) := (bst_iff_pairs r).mp h.right
        rw [hp] at hsr
        have herase : KeySorted.erase Prod.fst r.leftmost.keyOf
            ((r.leftmost.keyOf, r.leftmost.valueOf) :: rest) = rest :=
          KeySorted.erase_append_self (l := []) hsr
        have hdel : pairs (delete r r.leftmost.keyOf) = rest := by
          rw [ihr h.right, hp, herase]
        rw [hp, pairs, entries_delete_self hr, List.map_append, List.map_cons]
        exact congrArg (fun m => pairs l ++ (r.leftmost.keyOf, r.leftmost.valueOf) :: m) hdel
    · rw [pairs, entries_delete_lt hlt, List.map_append, List.map_cons,
        KeySorted.erase_append_left hs hlt]
      exact congrArg (fun m => m ++ (k, v) :: pairs r) (ihl h.left key)

theorem Bst.delete {T : C0Node} (h : Bst T) (key : CStr) : Bst (delete T key) := by
  rw [bst_iff_pairs, pairs_delete h]
  exact ((bst_iff_pairs T).mp h).erase key

theorem mem_keys_delete {T : C0Node} (h : Bst T) (key k : CStr) :
    k ∈ keys (delete T key) ↔ k ∈ keys T ∧ k ≠ key := by
  rw [keys_eq, keys_eq, pairs_delete h]
  simp only [List.mem_map, KeySorted.mem_erase]
  constructor
  · rintro ⟨p, ⟨hp, hne⟩, rfl⟩
    exact ⟨⟨p, hp, rfl⟩, hne⟩
  · rintro ⟨⟨p, hp, rfl⟩, hne⟩
    exact ⟨p, ⟨hp, hne⟩, rfl⟩

theorem entries_insert_of_mem {T : C0Node} (h : Bst T) {key : CStr} (hk : key ∈ keys T)
    (value : CStr) (flag : Int) : (insert T key value flag).entries = T.entries := by
  obtain ⟨e, he, hek⟩ := List.mem_map.mp hk
  rw [entries_insert h]
  exact KeySorted.insertNew_of_mem h he hek

theorem mem_keys_insert {T : C0Node} (h : Bst T) (key value : CStr) (flag : Int) (k : CStr) :
    k ∈ keys (insert T key value flag) ↔ k ∈ keys T ∨ k = key := by
  by_cases hk : key ∈ keys T
  · rw [keys, entries_insert_of_mem h hk]
    constructor
    · exact Or.inl
    · rintro (h' | rfl)
      · exact h'
      · exact hk
  · have hne : ∀ e ∈ T.entries, e.key ≠ key := by
      intro e he hek
      exact hk (List.mem_map.mpr ⟨e, he, hek⟩)
    rw [keys, entries_insert h]
    constructor
    · rintro h'
      obtain ⟨e, he, rfl⟩ := List.mem_map.mp h'
      rcases KeySorted.mem_insertNew he with rfl | he
      · exact Or.inr rfl
      · exact Or.inl (List.mem_map.mpr ⟨e, he, rfl⟩)
    · rintro (h' | rfl)
      · obtain ⟨e, he, rfl⟩ := List.mem_map.mp h'
        exact List.mem_map.mpr ⟨e, KeySorted.mem_insertNew_of_mem he, rfl⟩
      · exact List.mem_map.mpr ⟨_, KeySorted.self_mem_insertNew hne, rfl⟩

/-! ## sequences of calls -/

/-- a call on the tree -/
inductive Call where
  | insert (key value : CStr) (flag : Int)
  | delete (key : CStr)
  deriving DecidableEq, Repr

def call (T : C0Node) : Call → C0Node
  | .insert key value flag => insert T key value flag
  | .delete key => delete T key

/-- the tree after a sequence of calls, from NULL -/
def calls (cs : List Call) : C0Node := cs.foldl call null

/-- what a call does to a set of keys -/
def Call.onKeys (S : Set CStr) : Call → Set CStr
  | .insert key _ _ => Insert.insert key S
  | .delete key => S \ {key}

/-- the keys inserted and not deleted since -/
def keysAfter (cs : List Call) : Set CStr := cs.foldl Call.onKeys ∅

/-- **c0 is an AVL tree.**  After any sequence of `Insert` and `Delete` from NULL the tree is a
strict binary search tree with true heights and balance factors -1, 0 and 1, it holds the keys
inserted and not deleted since, and one more `Insert` of a key it holds leaves its entries alone. -/
theorem avl_run (cs : List Call) :
    Bst (calls cs) ∧ HtOk (calls cs) ∧ Balanced (calls cs) ∧
      {k | k ∈ keys (calls cs)} = keysAfter cs ∧
      ∀ key value flag, key ∈ keys (calls cs) →
        (insert (calls cs) key value flag).entries = (calls cs).entries := by
  have inv : Bst (calls cs) ∧ Avl (calls cs) ∧ {k | k ∈ keys (calls cs)} = keysAfter cs := by
    induction cs using List.reverseRecOn with
    | nil => exact ⟨bst_null, avl_null, by simp [calls, keysAfter, keys]⟩
    | append_singleton cs c ih =>
      obtain ⟨hb, ha, hk⟩ := ih
      have hcalls : calls (cs ++ [c]) = call (calls cs) c := by simp [calls]
      have hkeys : keysAfter (cs ++ [c]) = Call.onKeys (keysAfter cs) c := by simp [keysAfter]
      rw [hcalls, hkeys, ← hk]
      cases c with
      | insert key value flag =>
        refine ⟨hb.insert key value flag, (avl_insert ha key value flag).1, ?_⟩
        ext k
        show k ∈ keys (insert _ _ _ _) ↔ k = key ∨ k ∈ keys _
        rw [mem_keys_insert hb, or_comm]
      | delete key =>
        refine ⟨hb.delete key, (avl_delete ha key).1, ?_⟩
        ext k
        exact mem_keys_delete hb key k
  obtain ⟨hb, ha, hk⟩ := inv
  exact ⟨hb, ha.1, ha.2, hk, fun key value flag h => entries_insert_of_mem hb h value flag⟩

end C0Node

end LsmKv
