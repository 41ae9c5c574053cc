import Mathlib.Data.List.Basic
import Mathlib.Data.List.Nodup
import Mathlib.Logic.Function.Basic
import Mathlib.Tactic

/-!
# Doubly linked lists in a heap

* `Cell`, `Heap`            cells with a value, a next and a previous pointer, `none` for NULL;
* `setNext`, `setPrev`      writes through a pointer, undefined where no cell is;
* `Seg h p l q`             the cells of `l`, linked in order, between the neighbours `p` and `q`;
* `seg_append`              a segment is linked part by part;
* `Seg.frame`               it depends on its own cells only;
* `Seg.setNext_last`, `Seg.setPrev_first`   changing the outer pointer of an end;
* `Seg.unlink`              taking an inner cell out;
* `Seg.link_first`          putting a cell before the first.
-/

set_option linter.unusedSectionVars false

namespace Dll

variable {A V : Type*} [DecidableEq A]

/-- a cell of a doubly linked list -/
structure Cell (A V : Type*) where
  val : V
  next : Option A
  prev : Option A
  deriving DecidableEq, Repr

/-- the allocated cells -/
abbrev Heap (A V : Type*) := A → Option (Cell A V)

/-- `a->next = x` -/
def setNext (h : Heap A V) (a : A) (x : Option A) : Option (Heap A V) :=
  (h a).map fun c => Function.update h a (some { c with next := x })

/-- `a->prev = x` -/
def setPrev (h : Heap A V) (a : A) (x : Option A) : Option (Heap A V) :=
  (h a).map fun c => Function.update h a (some { c with prev := x })

/-- the first address, or what follows an empty list -/
def firstAddr : List (A × V) → Option A → Option A
  | [], q => q
  | (a, _) :: _, _ => some a

/-- the last address, or what precedes an empty list -/
def lastAddr : Option A → List (A × V) → Option A
  | p, [] => p
  | _, (a, _) :: l => lastAddr (some a) l

/-- The cells of the list are linked in order, `p` before the first and `q` after the last. -/
def Seg (h : Heap A V) : Option A → List (A × V) → Option A → Prop
  | _, [], _ => True
  | p, (a, v) :: l, q => h a = some ⟨v, firstAddr l q, p⟩ ∧ Seg h (some a) l q

/-- the addresses of a list -/
abbrev addrs (l : List (A × V)) : List A := l.map Prod.fst

section ends
variable {p q : Option A} {a : A} {v : V} {l m : List (A × V)}

theorem firstAddr_append : firstAddr (l ++ m) q = firstAddr l (firstAddr m q) := by
  cases l <;> rfl

theorem lastAddr_append : lastAddr p (l ++ m) = lastAddr (lastAddr p l) m := by
  induction l generalizing p with
  | nil => rfl
  | cons x l ih => exact ih

theorem lastAddr_snoc : lastAddr p (l ++ [(a, v)]) = some a := lastAddr_append

theorem firstAddr_eq_head (l : List (A × V)) : firstAddr l none = (addrs l).head? := by
  cases l <;> rfl

theorem lastAddr_eq_getLast (l : List (A × V)) : lastAddr none l = (addrs l).getLast? := by
  induction l using List.reverseRecOn with
  | nil => rfl
  | append_singleton l x ih => rw [lastAddr_snoc]; simp

theorem lastAddr_mem (h : lastAddr p l = some a) : p = some a ∨ a ∈ addrs l := by
  induction l generalizing p with
  | nil => exact Or.inl h
  | cons x l ih =>
    rcases ih h with hx | hl
    · exact Or.inr (by simp [Option.some.inj hx])
    · exact Or.inr (List.mem_cons_of_mem _ hl)

end ends

section seg
variable {h h' : Heap A V} {p q : Option A} {a : A} {v : V} {l m : List (A × V)}

theorem seg_append : Seg h p (l ++ m) q ↔
    Seg h p l (firstAddr m q) ∧ Seg h (lastAddr p l) m q := by
  induction l generalizing p with
  | nil => simp [Seg, lastAddr]
  | cons x l ih =>
    show h x.1 = some ⟨x.2, firstAddr (l ++ m) q, p⟩ ∧ Seg h (some x.1) (l ++ m) q ↔
      (h x.1 = some ⟨x.2, firstAddr l (firstAddr m q), p⟩ ∧ Seg h (some x.1) l _) ∧ _
    rw [ih, firstAddr_append, and_assoc]
    rfl

/-- the segment reads its own cells only -/
theorem Seg.frame (hs : Seg h p l q) (heq : ∀ b ∈ addrs l, h' b = h b) : Seg h' p l q := by
  induction l generalizing p with
  | nil => trivial
  | cons x l ih =>
    refine ⟨(heq x.1 (by simp)).trans hs.1, ih hs.2 fun b hb => ?_⟩
    exact heq b (List.mem_cons_of_mem _ hb)

theorem Seg.cell_of_mem (hs : Seg h p l q) (hm : (a, v) ∈ l) :
    ∃ c, h a = some c ∧ c.val = v := by
  obtain ⟨l1, l2, rfl⟩ := List.append_of_mem hm
  have hc := (seg_append.mp hs).2.1
  exact ⟨_, hc, rfl⟩

/-- the pointer behind the last cell -/
theorem Seg.setNext_last (hs : Seg h p (l ++ [(a, v)]) q) (hnd : (addrs (l ++ [(a, v)])).Nodup)
    (x : Option A) : ∃ h', setNext h a x = some h' ∧ Seg h' p (l ++ [(a, v)]) x ∧
      ∀ b, b ≠ a → h' b = h b := by
  obtain ⟨h1, h2, -⟩ := seg_append.mp hs
  have hother : ∀ b, b ≠ a → Function.update h a (some ⟨v, x, lastAddr p l⟩) b = h b :=
    fun b hb => Function.update_of_ne hb _ _
  have ha : a ∉ addrs l := by
    have := hnd
    rw [addrs, List.map_append, List.nodup_append] at this
    exact fun hm => this.2.2 a hm a (by simp) rfl
  refine ⟨_, by rw [setNext, h2]; rfl, ?_, hother⟩
  rw [seg_append]
  exact ⟨h1.frame fun b hb => hother b fun e => ha (e ▸ hb), Function.update_self _ _ _, trivial⟩

/-- the pointer before the first cell -/
theorem Seg.setPrev_first (hs : Seg h p ((a, v) :: l) q) (hnd : (addrs ((a, v) :: l)).Nodup)
    (x : Option A) : ∃ h', setPrev h a x = some h' ∧ Seg h' x ((a, v) :: l) q ∧
      ∀ b, b ≠ a → h' b = h b := by
  obtain ⟨h1, h2⟩ := hs
  have hother : ∀ b, b ≠ a → Function.update h a (some ⟨v, firstAddr l q, x⟩) b = h b :=
    fun b hb => Function.update_of_ne hb _ _
  have ha : a ∉ addrs l := (List.nodup_cons.mp hnd).1
  refine ⟨_, by rw [setPrev, h1]; rfl, ⟨Function.update_self _ _ _, ?_⟩, hother⟩
  exact h2.frame fun b hb => hother b fun e => ha (e ▸ hb)

/-- **An inner cell is taken out** by joining its neighbours; it stays allocated as it is. -/
theorem Seg.unlink {t : A} {w : V} (hs : Seg h p ((l ++ [(t, w)]) ++ (a, v) :: m) q)
    (hnd : (addrs ((l ++ [(t, w)]) ++ (a, v) :: m)).Nodup) :
    ∃ h1, setNext h t (firstAddr m q) = some h1 ∧ h1 a = h a ∧
      (m = [] → Seg h1 p (l ++ [(t, w)]) q ∧ ∀ b, b ≠ t → h1 b = h b) ∧
      ∀ b u m', m = (b, u) :: m' → ∃ h2, setPrev h1 b (some t) = some h2 ∧
        Seg h2 p ((l ++ [(t, w)]) ++ m) q ∧ ∀ x, x ≠ t → x ≠ b → h2 x = h x := by
  obtain ⟨hs1, -, hs2⟩ := seg_append.mp hs
  have hnd' := hnd
  rw [addrs, List.map_append, List.map_cons, List.nodup_append, List.nodup_cons] at hnd'
  obtain ⟨hnd1, ⟨-, hnd2⟩, hdis⟩ := hnd'
  have ht : t ∈ (l ++ [(t, w)]).map Prod.fst := by simp
  obtain ⟨h1, e1, hseg1, hf1⟩ := hs1.setNext_last hnd1 (firstAddr m q)
  refine ⟨h1, e1, hf1 a (hdis t ht a (by simp)).symm, fun hm => ?_, fun b u m' hm => ?_⟩
  · subst hm
    exact ⟨hseg1, hf1⟩
  · subst hm
    have hs2' : Seg h1 (some a) ((b, u) :: m') q :=
      hs2.frame fun x hx => hf1 x (hdis t ht x (List.mem_cons_of_mem _ hx)).symm
    obtain ⟨h2, e2, hseg2, hf2⟩ := hs2'.setPrev_first hnd2 (some t)
    refine ⟨h2, e2, ?_, fun x hxt hxb => (hf2 x hxb).trans (hf1 x hxt)⟩
    rw [seg_append, lastAddr_snoc]
    refine ⟨hseg1.frame fun x hx => hf2 x ?_, hseg2⟩
    exact hdis x hx b (by simp)

/-- **A cell is put before the first**, whatever its pointers were. -/
theorem Seg.link_first {b : A} {u : V} {x y : Option A} (hs : Seg h none ((b, u) :: m) q)
    (hnd : (addrs ((a, v) :: (b, u) :: m)).Nodup) (ha : h a = some ⟨v, x, y⟩) :
    ∃ h1 h2 h3, setPrev h b (some a) = some h1 ∧ setNext h1 a (some b) = some h2 ∧
      setPrev h2 a none = some h3 ∧ Seg h3 none ((a, v) :: (b, u) :: m) q ∧
      ∀ z, z ≠ a → z ≠ b → h3 z = h z := by
  obtain ⟨hna, hnd'⟩ := List.nodup_cons.mp hnd
  have hab : a ≠ b := fun e => hna (by simp [e])
  obtain ⟨h1, e1, hs1, hf1⟩ := hs.setPrev_first hnd' (some a)
  have ha1 : h1 a = some ⟨v, x, y⟩ := (hf1 a hab).trans ha
  let h2 := Function.update h1 a (some ⟨v, some b, y⟩)
  let h3 := Function.update h2 a (some (⟨v, some b, none⟩ : Cell A V))
  have hf3 : ∀ z, z ≠ a → h3 z = h1 z := fun z hz =>
    (Function.update_of_ne hz _ _).trans (Function.update_of_ne hz _ _)
  refine ⟨h1, h2, h3, e1, by rw [setNext, ha1]; rfl, ?_, ⟨Function.update_self _ _ _, ?_⟩, ?_⟩
  · rw [setPrev, show h2 a = some ⟨v, some b, y⟩ from Function.update_self _ _ _]
    rfl
  · exact hs1.frame fun z hz => hf3 z fun e => hna (e ▸ hz)
  · intro z hza hzb
    rw [hf3 z hza, hf1 z hzb]

end seg

end Dll
