import Mathlib.Logic.Function.Basic
import Mathlib.Order.Lattice

/-!
# A register that is tested and set in two steps

The writers of a register read its tag, and later set it to their own tag if that is greater than
the tag they have read.  Others run in between.

* `State`, `step`   the stored tag, where the writers are, and one step of one;
* `InTime`          a writer that sets the register does not lower it;
* `Covers`          the stored tag is no smaller than the first one, and those of all who are done;
* `Inv`             each tag stored or read is the first one, or that of one who is done;
* `inTime_iff`      a step keeps `Covers` exactly if it is `InTime`.
-/

namespace RacedRegister

variable {ι τ : Type*} [DecidableEq ι] [LinearOrder τ]

inductive Phase (τ : Type*) where
  | idle
  | read (seen : τ)
  | done

structure State (ι τ : Type*) where
  stored : τ
  phase : ι → Phase τ

inductive Act (ι : Type*) where
  | read (i : ι)
  | set (i : ι)

variable (tag : ι → τ)

def step (s : State ι τ) : Act ι → Option (State ι τ)
  | .read i =>
    match s.phase i with
    | .idle => some ⟨s.stored, Function.update s.phase i (.read s.stored)⟩
    | _ => none
  | .set i =>
    match s.phase i with
    | .read seen =>
      some ⟨if seen < tag i then tag i else s.stored, Function.update s.phase i .done⟩
    | _ => none

def InTime (s : State ι τ) : Act ι → Prop
  | .read _ => True
  | .set i => ∀ seen, s.phase i = .read seen → seen < tag i → s.stored ≤ tag i

structure Covers (first : τ) (s : State ι τ) : Prop where
  first : first ≤ s.stored
  done : ∀ i, s.phase i = .done → tag i ≤ s.stored

/-- `t` is the first tag, or that of a writer who is done -/
def Origin (first : τ) (s : State ι τ) (t : τ) : Prop :=
  t = first ∨ ∃ i, s.phase i = .done ∧ t = tag i

structure Inv (first : τ) (s : State ι τ) : Prop where
  stored : Origin tag first s s.stored
  seen : ∀ i t, s.phase i = .read t → Origin tag first s t

variable {tag} {first : τ} {s s' : State ι τ}

theorem step_read {i : ι} (h : s.phase i = .idle) : step tag s (.read i)
    = some ⟨s.stored, Function.update s.phase i (.read s.stored)⟩ := by
  simp only [step, h]

theorem step_set {i : ι} {seen : τ} (h : s.phase i = .read seen) : step tag s (.set i)
    = some ⟨if seen < tag i then tag i else s.stored, Function.update s.phase i .done⟩ := by
  simp only [step, h]

/-- what a step is, and what it does -/
theorem step_cases {a : Act ι} (hs : step tag s a = some s') :
    (∃ i, a = .read i ∧ s.phase i = .idle ∧
      s' = ⟨s.stored, Function.update s.phase i (.read s.stored)⟩) ∨
    ∃ i seen, a = .set i ∧ s.phase i = .read seen ∧
      s' = ⟨if seen < tag i then tag i else s.stored, Function.update s.phase i .done⟩ := by
  cases a with
  | read i =>
    cases hp : s.phase i with
    | idle => exact Or.inl ⟨i, rfl, hp, Option.some.inj (hs.symm.trans (step_read hp))⟩
    | read seen => simp [step, hp] at hs
    | done => simp [step, hp] at hs
  | set i =>
    cases hp : s.phase i with
    | idle => simp [step, hp] at hs
    | read seen =>
      exact Or.inr ⟨i, seen, rfl, hp, Option.some.inj (hs.symm.trans (step_set hp))⟩
    | done => simp [step, hp] at hs

omit [LinearOrder τ] in
theorem phase_update {stored : τ} {i j : ι} {ph q : Phase τ}
    (h : (State.mk stored (Function.update s.phase i ph)).phase j = q) :
    j = i ∧ ph = q ∨ j ≠ i ∧ s.phase j = q := by
  by_cases hji : j = i
  · subst hji
    exact Or.inl ⟨rfl, (Function.update_self j ph s.phase).symm.trans h⟩
  · exact Or.inr ⟨hji, (Function.update_of_ne hji ph s.phase).symm.trans h⟩

omit [DecidableEq ι] in
theorem Covers.le (h : Covers tag first s) {t : τ} (ht : Origin tag first s t) : t ≤ s.stored := by
  rcases ht with rfl | ⟨i, hi, rfl⟩
  · exact h.first
  · exact h.done i hi

omit [LinearOrder τ] in
/-- whoever is done stays so -/
theorem Origin.update {t : τ} (h : Origin tag first s t) {i : ι} (hi : s.phase i ≠ .done)
    (stored : τ) (ph : Phase τ) :
    Origin tag first ⟨stored, Function.update s.phase i ph⟩ t := by
  rcases h with rfl | ⟨j, hj, rfl⟩
  · exact Or.inl rfl
  · have hne : j ≠ i := fun he => hi (he ▸ hj)
    exact Or.inr ⟨j, (Function.update_of_ne hne _ _).trans hj, rfl⟩

omit [LinearOrder τ] [DecidableEq ι] in
theorem Inv.init (first : τ) : Inv tag first ⟨first, fun _ => .idle⟩ where
  stored := Or.inl rfl
  seen _ _ h := by cases h

theorem Inv.step (h : Inv tag first s) {a : Act ι} (hs : step tag s a = some s') :
    Inv tag first s' := by
  obtain ⟨i, rfl, hp, rfl⟩ | ⟨i, seen, rfl, hp, rfl⟩ := step_cases hs
  · have hi : s.phase i ≠ .done := by simp [hp]
    refine ⟨h.stored.update hi _ _, fun j t hj => ?_⟩
    rcases phase_update hj with ⟨rfl, he⟩ | ⟨-, hj⟩
    · obtain rfl : s.stored = t := Phase.read.inj he
      exact h.stored.update hi _ _
    · exact (h.seen j t hj).update hi _ _
  · have hi : s.phase i ≠ .done := by simp [hp]
    refine ⟨?_, fun j t hj => ?_⟩
    · show Origin tag first _ (if seen < tag i then tag i else s.stored)
      split_ifs with hlt
      · exact Or.inr ⟨i, Function.update_self .., rfl⟩
      · exact h.stored.update hi _ _
    · rcases phase_update hj with ⟨-, hj⟩ | ⟨-, hj⟩
      · cases hj
      · exact (h.seen j t hj).update hi _ _

/-- **A step keeps the stored tag above the others exactly if it comes in time.** -/
theorem inTime_iff (h : Inv tag first s) (hc : Covers tag first s) {a : Act ι}
    (hs : RacedRegister.step tag s a = some s') : InTime tag s a ↔ Covers tag first s' := by
  obtain ⟨i, rfl, hp, rfl⟩ | ⟨i, seen, rfl, hp, rfl⟩ := step_cases hs
  · refine iff_of_true trivial ⟨hc.first, fun j hj => ?_⟩
    rcases phase_update hj with ⟨-, hj⟩ | ⟨-, hj⟩
    · cases hj
    · exact hc.done j hj
  · constructor
    · intro hin
      -- what is stored now is no smaller than what was, and than the writer's own tag
      have hge : s.stored ≤ (if seen < tag i then tag i else s.stored) ∧
          tag i ≤ (if seen < tag i then tag i else s.stored) := by
        split_ifs with hlt
        · exact ⟨hin seen hp hlt, le_rfl⟩
        · exact ⟨le_rfl, (not_lt.mp hlt).trans (hc.le (h.seen i seen hp))⟩
      refine ⟨hc.first.trans hge.1, fun j hj => ?_⟩
      rcases phase_update hj with ⟨rfl, -⟩ | ⟨-, hj⟩
      · exact hge.2
      · exact (hc.done j hj).trans hge.1
    · intro hc' seen' hp' hlt
      obtain rfl : seen = seen' := Phase.read.inj (hp.symm.trans hp')
      have hi : s.phase i ≠ .done := by simp [hp]
      have hle := hc'.le (h.stored.update hi _ _)
      rwa [if_pos hlt] at hle

end RacedRegister
