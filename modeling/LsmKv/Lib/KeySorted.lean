import Mathlib.Data.List.Lex
import Mathlib.Data.List.Pairwise
import Mathlib.Order.Lattice
import Mathlib.Tactic

/-!
# Lists sorted by a key

Finite maps as lists of entries, strictly sorted by `key : α → K` over a linear order.

* `KeySorted key l`        the entries of `l` have strictly increasing keys;
* `lookup key k l`         the entry of `l` with key `k`;
* `insertNew key a l`      `a` put in its place, unless its key is there already;
* `erase key k l`          the entries whose key is not `k`;
* `mergeWith l r b`        two sorted lists merged: `l` and `r` say what is kept of an entry
                           met alone, `b` what is kept of two entries with one key; the rest
                           of the longer list is kept whole;
* `rightEndsFirst`         the merge runs out of the second list first.
-/

set_option linter.unusedSectionVars false

namespace KeySorted

variable {α K : Type*} [LinearOrder K] (key : α → K)

/-- strictly increasing keys -/
def Sorted (l : List α) : Prop := l.Pairwise fun a b => key a < key b

/-- the entry with key `k` -/
def lookup (k : K) (l : List α) : Option α := l.find? fun a => key a = k

/-- insertion that leaves an entry with the same key alone -/
def insertNew (a : α) : List α → List α
  | [] => [a]
  | b :: l => if key a < key b then a :: b :: l
      else if key b < key a then b :: insertNew a l else b :: l

/-- the entries whose key is not `k` -/
def erase (k : K) (l : List α) : List α := l.filter fun a => key a ≠ k

variable {key}

@[simp] theorem sorted_nil : Sorted key [] := List.Pairwise.nil

theorem sorted_cons {a : α} {l : List α} :
    Sorted key (a :: l) ↔ (∀ b ∈ l, key a < key b) ∧ Sorted key l := List.pairwise_cons

theorem Sorted.tail {a : α} {l : List α} (h : Sorted key (a :: l)) : Sorted key l :=
  (sorted_cons.mp h).2

theorem sorted_append {l m : List α} :
    Sorted key (l ++ m) ↔ Sorted key l ∧ Sorted key m ∧ ∀ a ∈ l, ∀ b ∈ m, key a < key b :=
  List.pairwise_append

/-- keys of a sorted list are met once -/
theorem Sorted.eq_of_key {l : List α} (h : Sorted key l) {a b : α} (ha : a ∈ l) (hb : b ∈ l)
    (hk : key a = key b) : a = b := by
  induction l with
  | nil => simp at ha
  | cons c l ih =>
    obtain ⟨h1, h2⟩ := sorted_cons.mp h
    rcases List.mem_cons.mp ha with rfl | ha' <;> rcases List.mem_cons.mp hb with rfl | hb'
    · rfl
    · exact absurd (h1 b hb') (by simp [hk])
    · exact absurd (h1 a ha') (by simp [hk])
    · exact ih h2 ha' hb'

/-- and at one place -/
theorem Sorted.index_eq_of_key {l : List α} (h : Sorted key l) {a b : α} {p q : Nat}
    (ha : l[p]? = some a) (hb : l[q]? = some b) (hk : key a = key b) : p = q := by
  obtain ⟨hp, rfl⟩ := List.getElem?_eq_some_iff.mp ha
  obtain ⟨hq, rfl⟩ := List.getElem?_eq_some_iff.mp hb
  have hord := List.pairwise_iff_getElem.mp h
  rcases lt_trichotomy p q with hlt | heq | hgt
  · exact absurd hk (hord p q hp hq hlt).ne
  · exact heq
  · exact absurd hk (hord q p hq hp hgt).ne'

/-- sorted lists with the same keys, the entries of one among those of the other -/
theorem Sorted.eq_of_mem {l m : List α} (hl : Sorted key l) (hm : Sorted key m)
    (hk : l.map key = m.map key) (h : ∀ a ∈ l, a ∈ m) : l = m := by
  induction l generalizing m with
  | nil => exact (List.map_eq_nil_iff.mp hk.symm).symm
  | cons a l ih =>
    cases m with
    | nil => cases hk
    | cons b m =>
      obtain ⟨hab, hk'⟩ := List.cons_eq_cons.mp hk
      have he : a = b := hm.eq_of_key (h a (List.mem_cons_self ..)) (List.mem_cons_self ..) hab
      refine congrArg₂ List.cons he (ih hl.tail hm.tail hk' fun c hc => ?_)
      rcases List.mem_cons.mp (h c (List.mem_cons_of_mem a hc)) with rfl | hc'
      · exact absurd hab ((sorted_cons.mp hl).1 c hc).ne
      · exact hc'

@[simp] theorem lookup_nil (k : K) : lookup key k [] = none := rfl

theorem lookup_cons (k : K) (a : α) (l : List α) :
    lookup key k (a :: l) = if key a = k then some a else lookup key k l := by
  unfold lookup
  rw [List.find?_cons]
  by_cases h : key a = k <;> simp [h]

theorem lookup_some {k : K} {l : List α} {a : α} (h : lookup key k l = some a) :
    a ∈ l ∧ key a = k :=
  ⟨List.mem_of_find?_eq_some h, by simpa using List.find?_some h⟩

theorem lookup_none {k : K} {l : List α} : lookup key k l = none ↔ ∀ a ∈ l, key a ≠ k := by
  simp [lookup, List.find?_eq_none]

theorem Sorted.lookup_mem {l : List α} (h : Sorted key l) {a : α} (ha : a ∈ l) :
    lookup key (key a) l = some a := by
  cases hl : lookup key (key a) l with
  | none => exact absurd rfl (lookup_none.mp hl a ha)
  | some b =>
    obtain ⟨hb, hk⟩ := lookup_some hl
    rw [h.eq_of_key hb ha hk]

/-! ## insertion -/

theorem lookup_map {f : α → α} (hf : ∀ a, key (f a) = key a) (k : K) (l : List α) :
    lookup key k (l.map f) = (lookup key k l).map f := by
  induction l with
  | nil => rfl
  | cons a l ih =>
    rw [List.map_cons, lookup_cons, lookup_cons, hf, ih]
    split_ifs <;> rfl

theorem mem_insertNew {a b : α} {l : List α} (h : b ∈ insertNew key a l) : b = a ∨ b ∈ l := by
  induction l with
  | nil => simpa [insertNew] using h
  | cons c l ih =>
    unfold insertNew at h
    split_ifs at h with h1 h2
    · simpa using h
    · rcases List.mem_cons.mp h with rfl | h'
      · simp
      · rcases ih h' with rfl | h'' <;> simp [*]
    · exact Or.inr h

theorem mem_insertNew_of_mem {a b : α} {l : List α} (h : b ∈ l) : b ∈ insertNew key a l := by
  induction l with
  | nil => simp at h
  | cons c l ih =>
    unfold insertNew
    split_ifs
    · exact List.mem_cons_of_mem _ h
    · rcases List.mem_cons.mp h with rfl | h'
      · simp
      · exact List.mem_cons_of_mem _ (ih h')
    · exact h

theorem sorted_insertNew (a : α) {l : List α} (h : Sorted key l) :
    Sorted key (insertNew key a l) := by
  induction l with
  | nil => exact List.pairwise_singleton _ _
  | cons c l ih =>
    obtain ⟨h1, h2⟩ := sorted_cons.mp h
    unfold insertNew
    split_ifs with hac hca
    · refine sorted_cons.mpr ⟨fun b hb => ?_, h⟩
      rcases List.mem_cons.mp hb with rfl | hb'
      · exact hac
      · exact hac.trans (h1 b hb')
    · refine sorted_cons.mpr ⟨fun b hb => ?_, ih h2⟩
      rcases mem_insertNew hb with rfl | hb'
      · exact hca
      · exact h1 b hb'
    · exact h

/-- insertion into a list whose key set holds the new key changes nothing -/
theorem insertNew_of_mem {a b : α} {l : List α} (h : Sorted key l) (hb : b ∈ l)
    (hk : key b = key a) : insertNew key a l = l := by
  induction l with
  | nil => simp at hb
  | cons c l ih =>
    obtain ⟨h1, h2⟩ := sorted_cons.mp h
    unfold insertNew
    rcases List.mem_cons.mp hb with rfl | hb'
    · rw [if_neg (by rw [hk]; exact lt_irrefl _), if_neg (by rw [hk]; exact lt_irrefl _)]
    · have hc : key c < key a := hk ▸ h1 b hb'
      rw [if_neg (not_lt.mpr hc.le), if_pos hc, ih h2 hb']

theorem self_mem_insertNew {a : α} {l : List α} (h : ∀ b ∈ l, key b ≠ key a) :
    a ∈ insertNew key a l := by
  induction l with
  | nil => simp [insertNew]
  | cons c l ih =>
    have hc := h c (List.mem_cons_self ..)
    unfold insertNew
    split_ifs with h1 h2
    · simp
    · exact List.mem_cons_of_mem _ (ih fun b hb => h b (List.mem_cons_of_mem _ hb))
    · exact absurd (le_antisymm (not_lt.mp h1) (not_lt.mp h2)) hc

theorem length_insertNew {a : α} {l : List α} (h : ∀ b ∈ l, key b ≠ key a) :
    (insertNew key a l).length = l.length + 1 := by
  induction l with
  | nil => rfl
  | cons c l ih =>
    have hc := h c (List.mem_cons_self ..)
    unfold insertNew
    split_ifs with h1 h2
    · rfl
    · rw [List.length_cons, List.length_cons, ih fun b hb => h b (List.mem_cons_of_mem _ hb)]
    · exact absurd (le_antisymm (not_lt.mp h1) (not_lt.mp h2)) hc

theorem lookup_insertNew (a : α) {l : List α} (h : Sorted key l) (k : K) :
    lookup key k (insertNew key a l)
      = if k = key a then (lookup key k l).or (some a) else lookup key k l := by
  induction l with
  | nil =>
    simp only [insertNew, lookup_cons, lookup_nil]
    by_cases hk : key a = k
    · simp [hk]
    · simp [hk, Ne.symm hk]
  | cons c l ih =>
    obtain ⟨h1, h2⟩ := sorted_cons.mp h
    by_cases hk : k = key a
    · rw [if_pos hk, insertNew]
      split_ifs with hac hca
      · have hn : lookup key k (c :: l) = none := lookup_none.mpr fun b hb => by
          rcases List.mem_cons.mp hb with rfl | hb'
          · rw [hk]; exact hac.ne'
          · rw [hk]; exact (hac.trans (h1 b hb')).ne'
        rw [hn, lookup_cons, if_pos hk.symm]
        rfl
      · rw [lookup_cons, lookup_cons, ih h2, if_pos hk]
        split_ifs <;> rfl
      · have hc : key c = k := by rw [hk]; exact le_antisymm (not_lt.mp hac) (not_lt.mp hca)
        rw [lookup_cons, if_pos hc]
        rfl
    · rw [if_neg hk, insertNew]
      split_ifs with hac hca
      · rw [lookup_cons, if_neg (Ne.symm hk)]
      · rw [lookup_cons, lookup_cons, ih h2, if_neg hk]
      · rfl

/-- an entry goes to the right of everything below it -/
theorem insertNew_append_right {a c : α} {l r : List α} (hl : Sorted key (l ++ c :: r))
    (hc : key c < key a) :
    insertNew key a (l ++ c :: r) = l ++ c :: insertNew key a r := by
  induction l with
  | nil => simp [insertNew, hc, not_lt.mpr hc.le]
  | cons b l ih =>
    obtain ⟨h1, h2⟩ := sorted_cons.mp hl
    have hb : key b < key a := (h1 c (by simp)).trans hc
    rw [List.cons_append, insertNew, if_neg (not_lt.mpr hb.le), if_pos hb]
    exact congrArg _ (ih h2)

/-- an entry goes to the left of everything above it -/
theorem insertNew_append_left {a c : α} {l r : List α} (hc : key a < key c) :
    insertNew key a (l ++ c :: r) = insertNew key a l ++ c :: r := by
  induction l with
  | nil => simp [insertNew, hc]
  | cons b l ih =>
    simp only [List.cons_append, insertNew]
    split_ifs
    · rfl
    · rw [ih]; rfl
    · rfl

/-- an entry whose key is in the middle changes nothing -/
theorem insertNew_append_self {a c : α} {l r : List α} (hl : Sorted key (l ++ c :: r))
    (hc : key c = key a) : insertNew key a (l ++ c :: r) = l ++ c :: r :=
  insertNew_of_mem hl (by simp) hc

/-! ## erasing -/

theorem Sorted.erase {l : List α} (h : Sorted key l) (k : K) : Sorted key (erase key k l) :=
  List.Pairwise.filter _ h

theorem mem_erase {a : α} {k : K} {l : List α} : a ∈ erase key k l ↔ a ∈ l ∧ key a ≠ k := by
  simp [KeySorted.erase]

theorem erase_append (k : K) (l r : List α) :
    erase key k (l ++ r) = erase key k l ++ erase key k r := List.filter_append _ _

theorem erase_cons_ne {k : K} {a : α} (h : key a ≠ k) (l : List α) :
    erase key k (a :: l) = a :: erase key k l := by
  simp [KeySorted.erase, h]

theorem erase_of_forall_ne {k : K} {l : List α} (h : ∀ a ∈ l, key a ≠ k) :
    erase key k l = l := by
  apply List.filter_eq_self.mpr
  intro a ha
  simpa using h a ha

theorem erase_append_right {c : α} {k : K} {l r : List α} (hl : Sorted key (l ++ c :: r))
    (hc : key c < k) : erase key k (l ++ c :: r) = l ++ c :: erase key k r := by
  have h1 : ∀ a ∈ l, key a ≠ k := fun a ha =>
    ((sorted_append.mp hl).2.2 a ha c (by simp) |>.trans hc).ne
  rw [erase_append, erase_of_forall_ne h1, erase_cons_ne hc.ne]

theorem erase_append_left {c : α} {k : K} {l r : List α} (hl : Sorted key (l ++ c :: r))
    (hc : k < key c) : erase key k (l ++ c :: r) = erase key k l ++ c :: r := by
  have h1 : ∀ a ∈ c :: r, key a ≠ k := by
    intro a ha
    rcases List.mem_cons.mp ha with rfl | ha
    · exact hc.ne'
    · exact (hc.trans ((sorted_cons.mp (sorted_append.mp hl).2.1).1 a ha)).ne'
  rw [erase_append, erase_of_forall_ne h1]

theorem erase_append_self {c : α} {l r : List α} (hl : Sorted key (l ++ c :: r)) :
    erase key (key c) (l ++ c :: r) = l ++ r := by
  obtain ⟨-, h2, h3⟩ := sorted_append.mp hl
  have hl' : ∀ a ∈ l, key a ≠ key c := fun a ha => (h3 a ha c (by simp)).ne
  have hr' : ∀ a ∈ r, key a ≠ key c := fun a ha => ((sorted_cons.mp h2).1 a ha).ne'
  have hc : erase key (key c) (c :: r) = erase key (key c) r := by simp [KeySorted.erase]
  rw [erase_append, hc, erase_of_forall_ne hl', erase_of_forall_ne hr']

/-! ## merging -/

variable (key)

/-- Merge of two sorted lists: see the file header. -/
def mergeWith (l r : α → List α) (b : α → α → List α) : List α → List α → List α
  | [], ys => ys
  | x :: xs, [] => x :: xs
  | x :: xs, y :: ys =>
    if key x < key y then l x ++ mergeWith l r b xs (y :: ys)
    else if key y < key x then r y ++ mergeWith l r b (x :: xs) ys
    else b x y ++ mergeWith l r b xs ys
  termination_by xs ys => xs.length + ys.length

/-- the second list is used up while the first one still has entries -/
def rightEndsFirst : List α → List α → Bool
  | [], _ => false
  | _ :: _, [] => true
  | x :: xs, y :: ys =>
    if key x < key y then rightEndsFirst xs (y :: ys)
    else if key y < key x then rightEndsFirst (x :: xs) ys
    else rightEndsFirst xs ys
  termination_by xs ys => xs.length + ys.length

variable {key} {l r : α → List α} {b : α → α → List α}

@[simp] theorem rightEndsFirst_nil_left (ys : List α) : rightEndsFirst key [] ys = false := by
  rw [rightEndsFirst]

@[simp] theorem rightEndsFirst_nil_right (x : α) (xs : List α) :
    rightEndsFirst key (x :: xs) [] = true := by
  rw [rightEndsFirst]

theorem rightEndsFirst_lt {x y : α} {xs ys : List α} (h : key x < key y) :
    rightEndsFirst key (x :: xs) (y :: ys) = rightEndsFirst key xs (y :: ys) := by
  rw [rightEndsFirst, if_pos h]

theorem rightEndsFirst_gt {x y : α} {xs ys : List α} (h : key y < key x) :
    rightEndsFirst key (x :: xs) (y :: ys) = rightEndsFirst key (x :: xs) ys := by
  rw [rightEndsFirst, if_neg (not_lt.mpr h.le), if_pos h]

theorem rightEndsFirst_eq {x y : α} {xs ys : List α} (h : key x = key y) :
    rightEndsFirst key (x :: xs) (y :: ys) = rightEndsFirst key xs ys := by
  rw [rightEndsFirst, if_neg (by simp [h]), if_neg (by simp [h])]

@[simp] theorem mergeWith_nil_left (ys : List α) : mergeWith key l r b [] ys = ys := by
  rw [mergeWith]

@[simp] theorem mergeWith_nil_right (xs : List α) : mergeWith key l r b xs [] = xs := by
  cases xs <;> rw [mergeWith]

theorem mergeWith_lt {x y : α} {xs ys : List α} (h : key x < key y) :
    mergeWith key l r b (x :: xs) (y :: ys) = l x ++ mergeWith key l r b xs (y :: ys) := by
  rw [mergeWith, if_pos h]

theorem mergeWith_gt {x y : α} {xs ys : List α} (h : key y < key x) :
    mergeWith key l r b (x :: xs) (y :: ys) = r y ++ mergeWith key l r b (x :: xs) ys := by
  rw [mergeWith, if_neg (not_lt.mpr h.le), if_pos h]

theorem mergeWith_eq {x y : α} {xs ys : List α} (h : key x = key y) :
    mergeWith key l r b (x :: xs) (y :: ys) = b x y ++ mergeWith key l r b xs ys := by
  rw [mergeWith, if_neg (by simp [h]), if_neg (by simp [h])]

/-- What a merge may keep: of an entry met alone that entry, of a pair one of the two. -/
structure Keeps (l r : α → List α) (b : α → α → List α) : Prop where
  left : ∀ x, l x = [] ∨ l x = [x]
  right : ∀ y, r y = [] ∨ r y = [y]
  both : ∀ x y, b x y = [] ∨ b x y = [x] ∨ b x y = [y]

variable (key) in
/-- Induction along a merge, one case per comparison. -/
theorem merge_induction {P : List α → List α → Prop}
    (nil_left : ∀ ys, P [] ys) (nil_right : ∀ x xs, P (x :: xs) [])
    (lt : ∀ x xs y ys, key x < key y → P xs (y :: ys) → P (x :: xs) (y :: ys))
    (gt : ∀ x xs y ys, key y < key x → P (x :: xs) ys → P (x :: xs) (y :: ys))
    (eq : ∀ x xs y ys, key x = key y → P xs ys → P (x :: xs) (y :: ys)) :
    ∀ xs ys, P xs ys
  | [], ys => nil_left ys
  | x :: xs, [] => nil_right x xs
  | x :: xs, y :: ys => by
    rcases lt_trichotomy (key x) (key y) with h | h | h
    · exact lt x xs y ys h (merge_induction nil_left nil_right lt gt eq xs (y :: ys))
    · exact eq x xs y ys h (merge_induction nil_left nil_right lt gt eq xs ys)
    · exact gt x xs y ys h (merge_induction nil_left nil_right lt gt eq (x :: xs) ys)
  termination_by xs ys => xs.length + ys.length

/-- every entry of the merge comes from one of the two lists -/
theorem mem_mergeWith (hk : Keeps l r b) (xs ys : List α) :
    ∀ z ∈ mergeWith key l r b xs ys, z ∈ xs ∨ z ∈ ys := by
  induction xs, ys using merge_induction key with
  | nil_left ys => simp
  | nil_right x xs => simp
  | lt x xs y ys h ih =>
    intro z hz
    rw [mergeWith_lt h, List.mem_append] at hz
    rcases hz with hz | hz
    · rcases hk.left x with e | e <;> simp_all
    · rcases ih z hz with h1 | h1 <;> simp_all
  | gt x xs y ys h ih =>
    intro z hz
    rw [mergeWith_gt h, List.mem_append] at hz
    rcases hz with hz | hz
    · rcases hk.right y with e | e <;> simp_all
    · rcases ih z hz with h1 | h1 <;> simp_all
  | eq x xs y ys h ih =>
    intro z hz
    rw [mergeWith_eq h, List.mem_append] at hz
    rcases hz with hz | hz
    · rcases hk.both x y with e | e | e <;> simp_all
    · rcases ih z hz with h1 | h1 <;> simp_all

/-- an entry of the second list that is kept alone and in every pair stays -/
theorem mem_mergeWith_right {y : α} (hr : y ∈ r y) (hb : ∀ x, y ∈ b x y) (xs ys : List α) :
    y ∈ ys → y ∈ mergeWith key l r b xs ys := by
  induction xs, ys using merge_induction key with
  | nil_left ys => intro hy; simpa using hy
  | nil_right x xs => intro hy; simp at hy
  | lt x xs c ys h ih =>
    intro hy
    rw [mergeWith_lt h]
    exact List.mem_append_right _ (ih hy)
  | gt x xs c ys h ih =>
    intro hy
    rw [mergeWith_gt h]
    rcases List.mem_cons.mp hy with rfl | hy'
    · exact List.mem_append_left _ hr
    · exact List.mem_append_right _ (ih hy')
  | eq x xs c ys h ih =>
    intro hy
    rw [mergeWith_eq h]
    rcases List.mem_cons.mp hy with rfl | hy'
    · exact List.mem_append_left _ (hb x)
    · exact List.mem_append_right _ (ih hy')

/-- an entry of the first list that is kept alone and has no partner stays -/
theorem mem_mergeWith_left {x : α} (hl : x ∈ l x) (xs ys : List α) :
    x ∈ xs → (∀ y ∈ ys, key y ≠ key x) → x ∈ mergeWith key l r b xs ys := by
  induction xs, ys using merge_induction key with
  | nil_left ys => intro hx; simp at hx
  | nil_right a xs => intro hx _; simpa using hx
  | lt a xs c ys h ih =>
    intro hx hno
    rw [mergeWith_lt h]
    rcases List.mem_cons.mp hx with rfl | hx'
    · exact List.mem_append_left _ hl
    · exact List.mem_append_right _ (ih hx' hno)
  | gt a xs c ys h ih =>
    intro hx hno
    rw [mergeWith_gt h]
    exact List.mem_append_right _ (ih hx fun y hy => hno y (List.mem_cons_of_mem _ hy))
  | eq a xs c ys h ih =>
    intro hx hno
    rw [mergeWith_eq h]
    rcases List.mem_cons.mp hx with rfl | hx'
    · exact absurd h.symm (hno c (by simp))
    · exact List.mem_append_right _ (ih hx' fun y hy => hno y (List.mem_cons_of_mem _ hy))

/-- an entry of the second list that is kept alone and has no partner stays -/
theorem mem_mergeWith_right_alone {y : α} (hr : y ∈ r y) (xs ys : List α) :
    y ∈ ys → (∀ x ∈ xs, key x ≠ key y) → y ∈ mergeWith key l r b xs ys := by
  induction xs, ys using merge_induction key with
  | nil_left ys => intro hy _; simpa using hy
  | nil_right x xs => intro hy; simp at hy
  | lt x xs c ys h ih =>
    intro hy hno
    rw [mergeWith_lt h]
    exact List.mem_append_right _ (ih hy fun x hx => hno x (List.mem_cons_of_mem _ hx))
  | gt x xs c ys h ih =>
    intro hy hno
    rw [mergeWith_gt h]
    rcases List.mem_cons.mp hy with rfl | hy'
    · exact List.mem_append_left _ hr
    · exact List.mem_append_right _ (ih hy' hno)
  | eq x xs c ys h ih =>
    intro hy hno
    rw [mergeWith_eq h]
    rcases List.mem_cons.mp hy with rfl | hy'
    · exact absurd h (hno x (by simp))
    · exact List.mem_append_right _ (ih hy' fun x hx => hno x (List.mem_cons_of_mem _ hx))

/-- **A merge of sorted lists is sorted.** -/
theorem sorted_mergeWith (hk : Keeps l r b) (xs ys : List α) :
    Sorted key xs → Sorted key ys → Sorted key (mergeWith key l r b xs ys) := by
  induction xs, ys using merge_induction key with
  | nil_left ys => intro _ hy; simpa using hy
  | nil_right x xs => intro hx _; simpa using hx
  | lt x xs y ys h ih =>
    intro hx hy
    obtain ⟨h1, h2⟩ := sorted_cons.mp hx
    have hrest := ih h2 hy
    rw [mergeWith_lt h]
    rcases hk.left x with e | e
    · rwa [e]
    · rw [e]
      refine sorted_cons.mpr ⟨fun z hz => ?_, hrest⟩
      rcases mem_mergeWith hk xs (y :: ys) z hz with hz' | hz'
      · exact h1 z hz'
      · rcases List.mem_cons.mp hz' with rfl | hz''
        · exact h
        · exact h.trans ((sorted_cons.mp hy).1 z hz'')
  | gt x xs y ys h ih =>
    intro hx hy
    obtain ⟨h1, h2⟩ := sorted_cons.mp hy
    have hrest := ih hx h2
    rw [mergeWith_gt h]
    rcases hk.right y with e | e
    · rwa [e]
    · rw [e]
      refine sorted_cons.mpr ⟨fun z hz => ?_, hrest⟩
      rcases mem_mergeWith hk (x :: xs) ys z hz with hz' | hz'
      · rcases List.mem_cons.mp hz' with rfl | hz''
        · exact h
        · exact h.trans ((sorted_cons.mp hx).1 z hz'')
      · exact h1 z hz'
  | eq x xs y ys h ih =>
    intro hx hy
    obtain ⟨hx1, hx2⟩ := sorted_cons.mp hx
    obtain ⟨hy1, hy2⟩ := sorted_cons.mp hy
    have hrest := ih hx2 hy2
    have hbelow : ∀ z ∈ mergeWith key l r b xs ys, key x < key z ∧ key y < key z := by
      intro z hz
      rcases mem_mergeWith hk xs ys z hz with hz' | hz'
      · exact ⟨hx1 z hz', h ▸ hx1 z hz'⟩
      · exact ⟨h ▸ hy1 z hz', hy1 z hz'⟩
    rw [mergeWith_eq h]
    rcases hk.both x y with e | e | e
    · rwa [e]
    · rw [e]; exact sorted_cons.mpr ⟨fun z hz => (hbelow z hz).1, hrest⟩
    · rw [e]; exact sorted_cons.mpr ⟨fun z hz => (hbelow z hz).2, hrest⟩

/-- **Which list ends first** is a matter of the largest key. -/
theorem rightEndsFirst_iff (xs ys : List α) : Sorted key xs → Sorted key ys →
    (rightEndsFirst key xs ys = true ↔ ∃ x ∈ xs, ∀ y ∈ ys, key y < key x) := by
  induction xs, ys using merge_induction key with
  | nil_left ys => intro _ _; simp
  | nil_right x xs => intro _ _; simp
  | lt x xs y ys h ih =>
    intro hx hy
    rw [rightEndsFirst_lt h, ih hx.tail hy]
    constructor
    · rintro ⟨z, hz, hall⟩
      exact ⟨z, List.mem_cons_of_mem _ hz, hall⟩
    · rintro ⟨z, hz, hall⟩
      rcases List.mem_cons.mp hz with rfl | hz'
      · exact absurd (hall y (by simp)) (not_lt.mpr h.le)
      · exact ⟨z, hz', hall⟩
  | gt x xs y ys h ih =>
    intro hx hy
    rw [rightEndsFirst_gt h, ih hx hy.tail]
    constructor
    · rintro ⟨z, hz, hall⟩
      refine ⟨z, hz, fun w hw => ?_⟩
      rcases List.mem_cons.mp hw with rfl | hw'
      · rcases List.mem_cons.mp hz with rfl | hz'
        · exact h
        · exact h.trans ((sorted_cons.mp hx).1 z hz')
      · exact hall w hw'
    · rintro ⟨z, hz, hall⟩
      exact ⟨z, hz, fun w hw => hall w (List.mem_cons_of_mem _ hw)⟩
  | eq x xs y ys h ih =>
    intro hx hy
    rw [rightEndsFirst_eq h, ih hx.tail hy.tail]
    constructor
    · rintro ⟨z, hz, hall⟩
      refine ⟨z, List.mem_cons_of_mem _ hz, fun w hw => ?_⟩
      rcases List.mem_cons.mp hw with rfl | hw'
      · exact h ▸ (sorted_cons.mp hx).1 z hz
      · exact hall w hw'
    · rintro ⟨z, hz, hall⟩
      rcases List.mem_cons.mp hz with rfl | hz'
      · exact absurd (hall y (by simp)) (by simp [h])
      · exact ⟨z, hz', fun w hw => hall w (List.mem_cons_of_mem _ hw)⟩

/-- **A collision is resolved by `b` alone**: of the entries with a key of both lists the
merge holds exactly what `b` keeps. -/
theorem filter_mergeWith_both (hk : Keeps l r b) (k : K) (p : α → Bool)
    (hp : ∀ z, p z = true ↔ key z = k) (xs ys : List α) :
    Sorted key xs → Sorted key ys → ∀ x ∈ xs, ∀ y ∈ ys, key x = k → key y = k →
      (mergeWith key l r b xs ys).filter p = b x y := by
  have drop : ∀ {zs : List α}, (∀ z ∈ zs, key z ≠ k) → zs.filter p = [] :=
    fun hz => List.filter_eq_nil_iff.mpr fun z hm => by simpa [hp] using hz z hm
  induction xs, ys using merge_induction key with
  | nil_left ys => intro _ _ x hx; simp at hx
  | nil_right x xs => intro _ _ x' _ y hy; simp at hy
  | lt a xs c ys h ih =>
    intro hxs hys x hx y hy hxk hyk
    have hay : key a < key y := by
      rcases List.mem_cons.mp hy with rfl | hy'
      · exact h
      · exact h.trans ((sorted_cons.mp hys).1 y hy')
    have hak : key a ≠ k := by rw [← hyk]; exact hay.ne
    have hx' : x ∈ xs := by
      rcases List.mem_cons.mp hx with rfl | hx'
      · exact absurd hxk hak
      · exact hx'
    have hl : (l a).filter p = [] := drop fun z hz => by
      rcases hk.left a with e | e <;> simp_all
    rw [mergeWith_lt h, List.filter_append, hl, List.nil_append]
    exact ih hxs.tail hys x hx' y hy hxk hyk
  | gt a xs c ys h ih =>
    intro hxs hys x hx y hy hxk hyk
    have hcx : key c < key x := by
      rcases List.mem_cons.mp hx with rfl | hx'
      · exact h
      · exact h.trans ((sorted_cons.mp hxs).1 x hx')
    have hck : key c ≠ k := by rw [← hxk]; exact hcx.ne
    have hy' : y ∈ ys := by
      rcases List.mem_cons.mp hy with rfl | hy'
      · exact absurd hyk hck
      · exact hy'
    have hr : (r c).filter p = [] := drop fun z hz => by
      rcases hk.right c with e | e <;> simp_all
    rw [mergeWith_gt h, List.filter_append, hr, List.nil_append]
    exact ih hxs hys.tail x hx y hy' hxk hyk
  | eq a xs c ys h ih =>
    intro hxs hys x hx y hy hxk hyk
    rw [mergeWith_eq h, List.filter_append]
    by_cases ha : key a = k
    · have hxa : x = a := hxs.eq_of_key hx (by simp) (hxk.trans ha.symm)
      have hyc : y = c := hys.eq_of_key hy (by simp) (hyk.trans (ha.symm.trans h))
      have hrest : (mergeWith key l r b xs ys).filter p = [] := by
        refine drop fun z hz => ?_
        rcases mem_mergeWith hk xs ys z hz with hz' | hz'
        · rw [← ha]; exact ((sorted_cons.mp hxs).1 z hz').ne'
        · rw [← ha, h]; exact ((sorted_cons.mp hys).1 z hz').ne'
      have hb : (b a c).filter p = b a c := by
        rcases hk.both a c with e | e | e
        · simp [e]
        · simp [e, (hp a).mpr ha]
        · simp [e, (hp c).mpr (h ▸ ha)]
      rw [hrest, hb, List.append_nil, hxa, hyc]
    · have hxa : x ∈ xs := by
        rcases List.mem_cons.mp hx with rfl | hx'
        · exact absurd hxk ha
        · exact hx'
      have hyc : y ∈ ys := by
        rcases List.mem_cons.mp hy with rfl | hy'
        · exact absurd (h.trans hyk) ha
        · exact hy'
      have hb : (b a c).filter p = [] := drop fun z hz => by
        rcases hk.both a c with e | e | e <;> simp_all
      rw [hb, List.nil_append]
      exact ih hxs.tail hys.tail x hxa y hyc hxk hyk

/-! ## what a merge says of a key -/

theorem lookup_append (k : K) (xs ys : List α) :
    lookup key k (xs ++ ys) = (lookup key k xs).or (lookup key k ys) := List.find?_append

/-- what is kept of the entries of one key -/
def keptOf (l r : α → List α) (b : α → α → List α) : Option α → Option α → List α
  | some x, some y => b x y
  | some x, none => l x
  | none, some y => r y
  | none, none => []

theorem lookup_of_lt {k : K} {ys : List α} (h : ∀ y ∈ ys, k < key y) : lookup key k ys = none :=
  lookup_none.mpr fun y hy => (h y hy).ne'

/-- what is kept of entries with another key -/
theorem lookup_kept {k : K} {xs : List α} (h : ∀ x ∈ xs, key x ≠ k) (ys : List α) :
    lookup key k (xs ++ ys) = lookup key k ys := by
  rw [lookup_append, lookup_none.mpr h, Option.none_or]

/-- what is kept of the entries of `k`, in front of later ones -/
theorem lookup_kept_self {k : K} {xs ys : List α} (h : ∀ y ∈ ys, k < key y) :
    lookup key k (xs ++ ys) = lookup key k xs := by
  rw [lookup_append, lookup_of_lt h, Option.or_none]

theorem lt_mergeWith (hk : Keeps l r b) {k : K} {xs ys : List α} (hx : ∀ x ∈ xs, k < key x)
    (hy : ∀ y ∈ ys, k < key y) : ∀ z ∈ mergeWith key l r b xs ys, k < key z := fun z hz =>
  (mem_mergeWith hk xs ys z hz).elim (hx z) (hy z)

/-- what is kept of a key, when an entry with another one is taken from the first list -/
theorem kept_cons {k : K} {x : α} {xs ys : List α} (hx : Sorted key (x :: xs)) (hne : key x ≠ k)
    (hy : ∀ y ∈ ys, key x < key y) :
    (if ∃ z ∈ x :: xs, k ≤ key z then
      lookup key k (keptOf l r b (lookup key k (x :: xs)) (lookup key k ys)) else lookup key k ys) =
    if ∃ z ∈ xs, k ≤ key z then
      lookup key k (keptOf l r b (lookup key k xs) (lookup key k ys)) else lookup key k ys := by
  rw [lookup_cons k x xs, if_neg hne]
  by_cases hle : ∃ z ∈ xs, k ≤ key z
  · obtain ⟨z, hz, hzk⟩ := hle
    rw [if_pos ⟨z, List.mem_cons_of_mem _ hz, hzk⟩, if_pos ⟨z, hz, hzk⟩]
  · rw [if_neg hle]
    split_ifs with hle'
    · -- the key comes before all entries
      obtain ⟨z, hz, hzk⟩ := hle'
      have hkx : k < key x := by
        rcases List.mem_cons.mp hz with rfl | hz
        · exact lt_of_le_of_ne hzk (Ne.symm hne)
        · exact absurd ⟨z, hz, hzk⟩ hle
      rw [lookup_of_lt fun w hw => hkx.trans (hy w hw),
        lookup_of_lt fun w hw => hkx.trans ((sorted_cons.mp hx).1 w hw)]
      rfl
    · rfl

/-- **A merge that ends with the second list**, key by key: up to the last key of the first list
what is kept of both entries, and behind it the second list. -/
theorem lookup_mergeWith (hk : Keeps l r b) (k : K) (xs ys : List α) :
    Sorted key xs → Sorted key ys → rightEndsFirst key xs ys = false →
      lookup key k (mergeWith key l r b xs ys) = if ∃ x ∈ xs, k ≤ key x then
        lookup key k (keptOf l r b (lookup key k xs) (lookup key k ys)) else lookup key k ys := by
  induction xs, ys using merge_induction key with
  | nil_left ys =>
    intro _ _ _
    rw [mergeWith_nil_left, if_neg (by simp)]
  | nil_right x xs =>
    intro _ _ he
    rw [rightEndsFirst_nil_right] at he
    cases he
  | lt x xs y ys h ih =>
    intro hx hy he
    rw [rightEndsFirst_lt h] at he
    obtain ⟨hx1, hx2⟩ := sorted_cons.mp hx
    have hys : ∀ z ∈ y :: ys, key x < key z := by
      intro z hz
      rcases List.mem_cons.mp hz with rfl | hz
      · exact h
      · exact h.trans ((sorted_cons.mp hy).1 z hz)
    rw [mergeWith_lt h]
    by_cases hkx : key x = k
    · subst hkx
      rw [if_pos ⟨x, List.mem_cons_self, le_rfl⟩, lookup_kept_self (lt_mergeWith hk hx1 hys),
        lookup_cons, if_pos rfl, lookup_of_lt hys]
      rfl
    · have hne : ∀ z ∈ l x, key z ≠ k := by
        intro z hz
        rcases hk.left x with e | e <;> simp_all
      rw [lookup_kept hne, ih hx2 hy he, kept_cons hx hkx hys]
  | gt x xs y ys h ih =>
    intro hx hy he
    rw [rightEndsFirst_gt h] at he
    obtain ⟨hy1, hy2⟩ := sorted_cons.mp hy
    have hxs : ∀ z ∈ x :: xs, key y < key z := by
      intro z hz
      rcases List.mem_cons.mp hz with rfl | hz
      · exact h
      · exact h.trans ((sorted_cons.mp hx).1 z hz)
    rw [mergeWith_gt h]
    by_cases hky : key y = k
    · subst hky
      rw [if_pos ⟨x, List.mem_cons_self, h.le⟩, lookup_kept_self (lt_mergeWith hk hxs hy1),
        lookup_of_lt hxs, lookup_cons, if_pos rfl]
      rfl
    · have hne : ∀ z ∈ r y, key z ≠ k := by
        intro z hz
        rcases hk.right y with e | e <;> simp_all
      have hyk : lookup key k (y :: ys) = lookup key k ys := by
        rw [lookup_cons, if_neg hky]
      rw [lookup_kept hne, ih hx hy2 he, hyk]
  | eq x xs y ys h ih =>
    intro hx hy he
    rw [rightEndsFirst_eq h] at he
    obtain ⟨hx1, hx2⟩ := sorted_cons.mp hx
    obtain ⟨hy1, hy2⟩ := sorted_cons.mp hy
    have hys : ∀ z ∈ ys, key x < key z := fun z hz => h ▸ hy1 z hz
    rw [mergeWith_eq h]
    by_cases hkx : key x = k
    · subst hkx
      rw [if_pos ⟨x, List.mem_cons_self, le_rfl⟩, lookup_kept_self (lt_mergeWith hk hx1 hys),
        lookup_cons, if_pos rfl, lookup_cons, if_pos h.symm]
      rfl
    · have hne : ∀ z ∈ b x y, key z ≠ k := by
        intro z hz
        rcases hk.both x y with e | e | e <;> simp_all
      have hyk : lookup key k (y :: ys) = lookup key k ys := by
        rw [lookup_cons, if_neg (h ▸ hkx)]
      rw [lookup_kept hne, ih hx2 hy2 he, hyk, kept_cons hx hkx hys]

end KeySorted
