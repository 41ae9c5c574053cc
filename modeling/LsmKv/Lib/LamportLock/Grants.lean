import LsmKv.Lib.LamportLock.Exclusion

/-!
# The requests that have had the lock

* `Passed`             a request that is in its critical section, or comes before all that are made;
* `Passed.steps`       it stays one;
* `Passed.lt_of_grant` the request that gets the lock next comes after it.
-/

set_option linter.unusedSectionVars false

namespace LamportLock

open State

variable {ν τ : Type*} [DecidableEq ν] [DecidableEq τ] {net : Net ν}
  {ok : State ν τ → ν → ν → ℕ → Prop} {s s' : State ν τ}

/-- a request that has got the lock -/
def Passed (net : Net ν) (s : State ν τ) (x : Rank) : Prop :=
  Dead net s x ∨ ∃ p t ts, (s.phase p t).inside ∧ (s.phase p t).live = some ts ∧ x = net.rank p ts

/-- a critical section goes on or is over -/
theorem Step.inside {p : ν} {t : τ} {ts : ℕ} (st : Step net ok s s') (hi : (s.phase p t).inside)
    (hl : (s.phase p t).live = some ts) :
    (s'.phase p t).inside ∧ (s'.phase p t).live = some ts ∨
      s.phase p t = .critical ts ∧ s'.phase p t = .dequeued ts := by
  cases st <;> grind

variable [Fintype ν] [Fintype τ]

theorem Passed.step {x : Rank} (hx : Passed net s x) (h : Inv net s) (st : Step net ok s s') :
    Passed net s' x := by
  rcases hx with hd | ⟨p, t, ts, hi, hl, rfl⟩
  · exact Or.inl (hd.step st)
  · rcases st.inside hi hl with ⟨hi', hl'⟩ | ⟨hp, hp'⟩
    · exact Or.inr ⟨p, t, ts, hi', hl', rfl⟩
    · exact Or.inl (dead_of_unlock h st hp hp')

theorem Passed.steps {x : Rank} (hx : Passed net s x) (hf : net.Full) (h : Inv net s)
    (hs : Relation.ReflTransGen (Step net ok) s s') : Passed net s' x := by
  have hboth : Inv net s' ∧ Passed net s' x := by
    induction hs with
    | refl => exact ⟨h, hx⟩
    | tail _ st ih => exact ⟨inv_step hf ih.1 st, ih.2.step ih.1 st⟩
  exact hboth.2

/-- **The lock goes to a later request.** -/
theorem Passed.lt_of_grant {x : Rank} (hx : Passed net s x) (hx' : Passed net s' x)
    (hf : net.Full) (h' : Inv net s') {p : ν} {t : τ} {ts : ℕ}
    (hp : (s.phase p t).inside = false) (hl : (s.phase p t).live = some ts)
    (hp' : (s'.phase p t).inside) (hl' : (s'.phase p t).live = some ts) (h : Inv net s) :
    x < net.rank p ts := by
  have hne : x ≠ net.rank p ts := by
    rintro rfl
    rcases hx with hd | ⟨q, t', ts', hq, hql, he⟩
    · exact lt_irrefl _ (hd.lt p t ts hl)
    · obtain ⟨rfl, rfl⟩ := hf.rank_inj.mp he
      obtain rfl := h.unique p t t' ts hl hql
      rw [hp] at hq
      cases hq
  rcases hx' with hd | ⟨q, t', ts', hq, hql, rfl⟩
  · exact hd.lt p t ts hl'
  · obtain ⟨rfl, rfl⟩ := h'.exclusive hp' hq
    rw [hl'] at hql
    exact absurd (congrArg _ (Option.some.inj hql).symm) hne

end LamportLock
