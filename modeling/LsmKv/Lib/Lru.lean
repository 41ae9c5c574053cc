import Mathlib.Data.Finset.Card

/-!
# Recency in a list that is moved to the front

The list of a least-recently-used cache, most recent first.

* `Recent S k l`   `k` is in the list, with none but members of `S` before it;
* `Recent.front`   an access of another member of `S` moves it to the front, `k` stays recent;
* `Recent.take`    a list cut behind more places than `S` has members keeps `k`;
* `Recent.touch`   both: an access in a cache of more places than `S` has members.
-/

namespace Lru

variable {α : Type*}

/-- an access in a cache of `n` places -/
def touch [BEq α] (n : ℕ) (x : α) (l : List α) : List α := (x :: l.erase x).take n

/-- the elements before `k` are members of `S` -/
def Recent (S : Finset α) (k : α) (l : List α) : Prop :=
  ∃ before after, l = before ++ k :: after ∧ ∀ x ∈ before, x ∈ S

namespace Recent
variable {S : Finset α} {k x : α} {l : List α} {n : ℕ}

theorem head (S : Finset α) (k : α) (l : List α) : Recent S k (k :: l) := ⟨[], l, rfl, by simp⟩

theorem mem (h : Recent S k l) : k ∈ l := by
  obtain ⟨before, after, rfl, -⟩ := h
  simp

theorem mono {S' : Finset α} (h : Recent S k l) (hS : S ⊆ S') : Recent S' k l := by
  obtain ⟨before, after, he, hb⟩ := h
  exact ⟨before, after, he, fun x hx => hS (hb x hx)⟩

theorem take (h : Recent S k l) (hnd : l.Nodup) (hcard : S.card < n) : Recent S k (l.take n) := by
  classical
  obtain ⟨before, after, rfl, hS⟩ := h
  have hlen : before.length ≤ S.card := by
    rw [← List.toFinset_card_of_nodup (List.nodup_append.mp hnd).1]
    exact Finset.card_le_card fun y hy => hS y (List.mem_toFinset.mp hy)
  refine ⟨before, after.take (n - before.length - 1), ?_, hS⟩
  rw [List.take_append, List.take_of_length_le (by omega)]
  obtain ⟨m, hm⟩ : ∃ m, n - before.length = m + 1 := ⟨n - before.length - 1, by omega⟩
  rw [hm, List.take_succ_cons, Nat.add_sub_cancel]

variable [BEq α] [LawfulBEq α]

/-- an element leaves the list -/
theorem erase (h : Recent S k l) (hne : x ≠ k) : Recent S k (l.erase x) := by
  obtain ⟨before, after, rfl, hS⟩ := h
  by_cases hx : x ∈ before
  · refine ⟨before.erase x, after, ?_, fun y hy => hS y (List.mem_of_mem_erase hy)⟩
    rw [List.erase_append_left _ hx]
  · refine ⟨before, after.erase x, ?_, hS⟩
    rw [List.erase_append_right _ hx, List.erase_cons_tail (by simpa using hne.symm)]

theorem front (h : Recent S k l) (hx : x ∈ S) (hne : x ≠ k) : Recent S k (x :: l.erase x) := by
  obtain ⟨before, after, he, hS⟩ := h.erase hne
  refine ⟨x :: before, after, by rw [he, List.cons_append], fun y hy => ?_⟩
  rcases List.mem_cons.mp hy with rfl | hy
  · exact hx
  · exact hS y hy

/-- **An access of another key** leaves `k` in a cache of more places than `S` has members. -/
theorem touch (h : Recent S k l) (hnd : l.Nodup) (hx : x ∈ S) (hne : x ≠ k) (hcard : S.card < n) :
    Recent S k (touch n x l) := by
  refine (h.front hx hne).take (List.nodup_cons.mpr ⟨?_, hnd.erase x⟩) hcard
  exact fun hmem => (List.Nodup.mem_erase_iff hnd).mp hmem |>.1 rfl

end Recent

end Lru
