import Mathlib.Data.Nat.ModEq
import Mathlib.Logic.Function.Basic
import Mathlib.Tactic

/-!
# A list in a circular array

An array of `N` slots, some of them never written, and a list held by the slots from a position
on, counted around the ring.

* `cell N m`            the slot of position `m`;
* `Holds d s l`         the slots from position `s` on hold `l`;
* `cell_ne`             positions less than `N` apart have different slots;
* `holds_append`        a list is held part by part;
* `Holds.update`        writing another slot changes nothing;
* `Holds.readOut`       what reading the positions one after the other gives.
-/

namespace RingSlots

variable {α : Type*} {N : ℕ} [NeZero N]

/-- the slot of position `m` -/
def cell (N : ℕ) [NeZero N] (m : ℕ) : Fin N := ⟨m % N, Nat.mod_lt _ (NeZero.pos N)⟩

/-- the slots from position `s` on hold the list -/
def Holds (d : Fin N → Option α) : ℕ → List α → Prop
  | _, [] => True
  | s, x :: l => d (cell N s) = some x ∧ Holds d (s + 1) l

theorem cell_add_mod (s m : ℕ) : cell N (s % N + m) = cell N (s + m) := by
  apply Fin.ext
  show (s % N + m) % N = (s + m) % N
  rw [Nat.mod_add_mod]

/-- positions less than `N` apart -/
theorem cell_ne {a b : ℕ} (h : a < b) (hb : b < a + N) : cell N a ≠ cell N b := by
  intro he
  have hmod : a ≡ b [MOD N] := congrArg Fin.val he
  have hdvd : N ∣ b - a := (Nat.modEq_iff_dvd' h.le).mp hmod
  have := Nat.le_of_dvd (by omega) hdvd
  omega

section holds
variable {d : Fin N → Option α} {s : ℕ}

theorem holds_append {l m : List α} :
    Holds d s (l ++ m) ↔ Holds d s l ∧ Holds d (s + l.length) m := by
  induction l generalizing s with
  | nil => simp [Holds]
  | cons x l ih =>
    show d (cell N s) = some x ∧ Holds d (s + 1) (l ++ m) ↔ _
    rw [ih, List.length_cons, ← and_assoc, show s + 1 + l.length = s + (l.length + 1) by omega]
    rfl

theorem holds_snoc {l : List α} {x : α} :
    Holds d s (l ++ [x]) ↔ Holds d s l ∧ d (cell N (s + l.length)) = some x := by
  rw [holds_append]
  simp [Holds]

/-- a slot outside the list -/
theorem Holds.update {l : List α} (h : Holds d s l) {i : Fin N}
    (hi : ∀ j < l.length, cell N (s + j) ≠ i) (v : Option α) :
    Holds (Function.update d i v) s l := by
  induction l generalizing s with
  | nil => trivial
  | cons x l ih =>
    obtain ⟨h1, h2⟩ := h
    have h0 : cell N s ≠ i := hi 0 (by simp)
    refine ⟨by rw [Function.update_of_ne h0]; exact h1, ih h2 fun j hj => ?_⟩
    have := hi (j + 1) (by rw [List.length_cons]; omega)
    rwa [show s + 1 + j = s + (j + 1) by omega]

theorem holds_mod {l : List α} : Holds d (s % N) l ↔ Holds d s l := by
  induction l using List.reverseRecOn with
  | nil => exact Iff.rfl
  | append_singleton l x ih => rw [holds_snoc, holds_snoc, ih, cell_add_mod]

/-- reading the positions one after the other -/
theorem Holds.readOut {l : List α} (h : Holds d s l) :
    (List.range l.length).map (fun j => d (cell N (s + j))) = l.map some := by
  induction l using List.reverseRecOn with
  | nil => rfl
  | append_singleton l x ih =>
    obtain ⟨h1, h2⟩ := holds_snoc.mp h
    rw [List.length_append, List.length_singleton, List.range_succ, List.map_append, ih h1,
      List.map_append, List.map_singleton, List.map_singleton, h2]

end holds

end RingSlots
