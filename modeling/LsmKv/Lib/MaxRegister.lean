import Mathlib.Order.Lattice
import Mathlib.Data.List.Induction
import Mathlib.Order.MinMax

/-!
# A register that keeps the write with the greatest tag

Values carry tags of a linear order, and a write takes effect exactly when its tag is greater than
the tag that is stored.

* `write r w`          one write;
* `write_tag`          the tag is the greater of the two;
* `le_foldl_write`     after any writes no tag is greater than the stored one;
* `foldl_write_mem`    and the stored pair is the first one, or one that was written.
-/

namespace MaxRegister

variable {α τ : Type*} [LinearOrder τ]

/-- a value and its tag, and the write of another value with its tag -/
def write (r w : α × τ) : α × τ := if r.2 < w.2 then w else r

theorem write_of_lt {r w : α × τ} (h : r.2 < w.2) : write r w = w := if_pos h

theorem write_of_not_lt {r w : α × τ} (h : ¬ r.2 < w.2) : write r w = r := if_neg h

theorem write_tag (r w : α × τ) : (write r w).2 = max r.2 w.2 := by
  by_cases h : r.2 < w.2
  · rw [write_of_lt h, max_eq_right h.le]
  · rw [write_of_not_lt h, max_eq_left (not_lt.mp h)]

/-- **No tag is greater than the stored one.** -/
theorem le_foldl_write (r : α × τ) (ws : List (α × τ)) :
    r.2 ≤ (ws.foldl write r).2 ∧ ∀ w ∈ ws, w.2 ≤ (ws.foldl write r).2 := by
  induction ws generalizing r with
  | nil => exact ⟨le_rfl, by simp⟩
  | cons w ws ih =>
    obtain ⟨h1, h2⟩ := ih (write r w)
    rw [write_tag] at h1
    refine ⟨(le_max_left _ _).trans h1, fun w' hw' => ?_⟩
    rcases List.mem_cons.mp hw' with rfl | hw'
    · exact (le_max_right _ _).trans h1
    · exact h2 w' hw'

/-- **The stored pair was there or was written.** -/
theorem foldl_write_mem (r : α × τ) (ws : List (α × τ)) :
    ws.foldl write r = r ∨ ws.foldl write r ∈ ws := by
  induction ws generalizing r with
  | nil => exact Or.inl rfl
  | cons w ws ih =>
    rw [List.foldl_cons]
    rcases ih (write r w) with h | h
    · by_cases hlt : r.2 < w.2
      · right
        rw [h, write_of_lt hlt]
        exact List.mem_cons_self
      · left
        rw [h, write_of_not_lt hlt]
    · exact Or.inr (List.mem_cons_of_mem _ h)

end MaxRegister
