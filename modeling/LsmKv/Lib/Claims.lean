import Mathlib.Data.List.Basic
import Mathlib.Data.List.Nodup
import Mathlib.Data.List.Perm.Basic
import Mathlib.Logic.Function.Basic

/-!
# Cells and those who claim them

Several parties use the cells of an array, each with an assertion about the cells that it claims.
No cell is claimed twice, and a cell that nobody claims is free.

* `Owned cells free claims`   the claims, each a cell and what is asserted of it;
* `Owned.write`               who claims a cell writes it, and the others see no change;
* `Owned.take`, `Owned.drop`  a free cell is claimed, and a claimed one given up.
-/

set_option linter.unusedSectionVars false

namespace Claims

variable {ι α : Type*} [DecidableEq ι]

structure Owned (cells : ι → α) (free : α → Prop) (claims : List (ι × (α → Prop))) : Prop where
  nodup : (claims.map Prod.fst).Nodup
  holds : ∀ c ∈ claims, c.2 (cells c.1)
  others : ∀ i, i ∉ claims.map Prod.fst → free (cells i)

namespace Owned
variable {cells : ι → α} {free P P' : α → Prop} {claims claims' : List (ι × (α → Prop))} {i : ι}

theorem nil (h : ∀ i, free (cells i)) : Owned cells free [] where
  nodup := List.nodup_nil
  holds _ hc := absurd hc List.not_mem_nil
  others i _ := h i

theorem perm (h : Owned cells free claims) (hp : claims.Perm claims') :
    Owned cells free claims' where
  nodup := (hp.map Prod.fst).nodup_iff.mp h.nodup
  holds c hc := h.holds c (hp.mem_iff.mpr hc)
  others i hi := h.others i fun hm => hi ((hp.map Prod.fst).mem_iff.mp hm)

theorem head (h : Owned cells free ((i, P) :: claims)) : P (cells i) :=
  h.holds _ List.mem_cons_self

theorem not_mem (h : Owned cells free ((i, P) :: claims)) : i ∉ claims.map Prod.fst :=
  (List.nodup_cons.mp h.nodup).1

/-- **The owner of a cell writes it.** -/
theorem write (h : Owned cells free ((i, P) :: claims)) {x : α} (hx : P' x) :
    Owned (Function.update cells i x) free ((i, P') :: claims) where
  nodup := h.nodup
  holds := by
    intro c hc
    rcases List.mem_cons.mp hc with rfl | hm
    · show P' (Function.update cells i x i)
      rwa [Function.update_self]
    · have hne : c.1 ≠ i := fun he => h.not_mem (he ▸ List.mem_map_of_mem hm)
      rw [Function.update_of_ne hne]
      exact h.holds c (List.mem_cons_of_mem _ hm)
  others := by
    intro k hk
    have hne : k ≠ i := fun he => hk (he ▸ List.mem_cons_self)
    rw [Function.update_of_ne hne]
    exact h.others k hk

/-- what is asserted of a claimed cell may change -/
theorem assert (h : Owned cells free ((i, P) :: claims)) (hP : P (cells i) → P' (cells i)) :
    Owned cells free ((i, P') :: claims) := by
  have hw := h.write (hP h.head)
  rwa [Function.update_eq_self] at hw

/-- **A free cell is claimed.** -/
theorem take (h : Owned cells free claims) (hi : i ∉ claims.map Prod.fst) :
    Owned cells free ((i, free) :: claims) where
  nodup := List.nodup_cons.mpr ⟨hi, h.nodup⟩
  holds := by
    intro c hc
    rcases List.mem_cons.mp hc with rfl | hc
    · exact h.others _ hi
    · exact h.holds c hc
  others k hk := h.others k fun hm => hk (List.mem_cons_of_mem _ hm)

/-- **A cell is given up**, free as it is. -/
theorem drop (h : Owned cells free ((i, P) :: claims)) (hP : P (cells i) → free (cells i)) :
    Owned cells free claims where
  nodup := (List.nodup_cons.mp h.nodup).2
  holds c hc := h.holds c (List.mem_cons_of_mem _ hc)
  others := by
    intro k hk
    by_cases he : k = i
    · subst he
      exact hP h.head
    · refine h.others k fun hm => ?_
      rcases List.mem_cons.mp hm with heq | hm
      · exact he heq
      · exact hk hm

end Owned

end Claims
