import Mathlib.Data.Option.Basic
import Mathlib.Data.List.Induction

/-!
# Runs of a partial step function

A system is a step function `step : σ → α → Option σ`; `none` means that the step has no
defined result.

* `run step s as`          the state after the actions `as`, one after the other;
* `Guarded step ok s as`   every action of the run meets the condition `ok` in its own state;
* `inv_of_guarded`         an invariant kept by every step that meets `ok` holds after a
                           guarded run;
* `run_of_guarded`         if such steps are moreover defined, the guarded run is defined;
* `length_le_of_guarded`   a run whose steps lower a measure is short;
* `Guarded.of_inv`         a guard that follows from another one and from the invariant;
* `guarded_iff_of_step`    a property that a step keeps exactly under the guard;
* `guarded_iff_forall`     a property of all states of the run, kept exactly under the guard.
-/

namespace Run

variable {σ α : Type*} (step : σ → α → Option σ)

/-- the state after a list of actions -/
def run : σ → List α → Option σ
  | s, [] => some s
  | s, a :: as => (step s a).bind fun t => run t as

/-- every action of the run meets `ok` in the state it is taken in -/
def Guarded (ok : σ → α → Prop) : σ → List α → Prop
  | _, [] => True
  | s, a :: as => ok s a ∧ ∀ t, step s a = some t → Guarded ok t as

instance decGuarded (ok : σ → α → Prop) [∀ s a, Decidable (ok s a)] :
    ∀ s as, Decidable (Guarded step ok s as)
  | _, [] => isTrue trivial
  | s, a :: as =>
    match h : step s a with
    | none => decidable_of_iff (ok s a) ⟨fun ho => ⟨ho, fun t ht => by rw [h] at ht; cases ht⟩,
        fun hg => hg.1⟩
    | some t =>
      have := decGuarded ok t as
      decidable_of_iff (ok s a ∧ Guarded step ok t as)
        ⟨fun hg => ⟨hg.1, fun u hu => by cases h.symm.trans hu; exact hg.2⟩,
          fun hg => ⟨hg.1, hg.2 t h⟩⟩

@[simp] theorem run_nil (s : σ) : run step s [] = some s := rfl

@[simp] theorem run_cons (s : σ) (a : α) (as : List α) :
    run step s (a :: as) = (step s a).bind fun t => run step t as := rfl

@[simp] theorem guarded_nil (ok : σ → α → Prop) (s : σ) : Guarded step ok s [] := trivial

theorem run_append (s : σ) (as bs : List α) :
    run step s (as ++ bs) = (run step s as).bind fun t => run step t bs := by
  induction as generalizing s with
  | nil => rfl
  | cons a as ih =>
    simp only [List.cons_append, run_cons, Option.bind_assoc]
    exact congrArg _ (funext fun t => ih t)

theorem run_snoc (s : σ) (as : List α) (a : α) :
    run step s (as ++ [a]) = (run step s as).bind fun t => step t a := by
  rw [run_append]
  refine congrArg _ (funext fun t => ?_)
  simp

theorem guarded_append (ok : σ → α → Prop) (s : σ) (as bs : List α) :
    Guarded step ok s (as ++ bs) ↔
      Guarded step ok s as ∧ ∀ t, run step s as = some t → Guarded step ok t bs := by
  induction as generalizing s with
  | nil => simp [Guarded]
  | cons a as ih =>
    show (ok s a ∧ ∀ t, step s a = some t → Guarded step ok t (as ++ bs)) ↔ _
    constructor
    · rintro ⟨h1, h2⟩
      refine ⟨⟨h1, fun t ht => ((ih t).mp (h2 t ht)).1⟩, fun t ht => ?_⟩
      obtain ⟨u, hu, hr⟩ := Option.bind_eq_some_iff.mp ht
      exact ((ih u).mp (h2 u hu)).2 t hr
    · rintro ⟨⟨h1, h2⟩, h3⟩
      refine ⟨h1, fun t ht => (ih t).mpr ⟨h2 t ht, fun u hu => h3 u ?_⟩⟩
      rw [run_cons, ht]
      exact hu

theorem guarded_snoc (ok : σ → α → Prop) (s : σ) (as : List α) (a : α) :
    Guarded step ok s (as ++ [a]) ↔
      Guarded step ok s as ∧ ∀ t, run step s as = some t → ok t a := by
  rw [guarded_append]
  simp [Guarded]

variable {step} {ok : σ → α → Prop} {Inv : σ → Prop}

/-- **Invariants along guarded runs.** -/
theorem inv_of_guarded (hstep : ∀ s a t, Inv s → ok s a → step s a = some t → Inv t)
    {s t : σ} {as : List α} (h0 : Inv s) (hg : Guarded step ok s as)
    (hr : run step s as = some t) : Inv t := by
  induction as generalizing s with
  | nil => exact Option.some.inj hr ▸ h0
  | cons a as ih =>
    obtain ⟨u, hu, hr'⟩ := Option.bind_eq_some_iff.mp hr
    exact ih (hstep s a u h0 hg.1 hu) (hg.2 u hu) hr'

/-- **A guarded run is defined** when every step that meets the guard is. -/
theorem run_of_guarded (hstep : ∀ s a, Inv s → ok s a → ∃ t, step s a = some t ∧ Inv t)
    {s : σ} {as : List α} (h0 : Inv s) (hg : Guarded step ok s as) :
    ∃ t, run step s as = some t ∧ Inv t := by
  induction as generalizing s with
  | nil => exact ⟨s, rfl, h0⟩
  | cons a as ih =>
    obtain ⟨u, hu, hiu⟩ := hstep s a h0 hg.1
    obtain ⟨t, ht, hit⟩ := ih hiu (hg.2 u hu)
    exact ⟨t, by rw [run_cons, hu]; exact ht, hit⟩

/-- **A run whose steps lower a measure** takes at most as many steps. -/
theorem length_le_of_guarded {μ : σ → ℕ} (hstep : ∀ s a t, ok s a → step s a = some t → μ t < μ s)
    {s t : σ} {as : List α} (hg : Guarded step ok s as) (hr : run step s as = some t) :
    as.length + μ t ≤ μ s := by
  induction as generalizing s with
  | nil =>
    obtain rfl := Option.some.inj hr
    exact Nat.le_of_eq (Nat.zero_add _)
  | cons a as ih =>
    obtain ⟨u, hu, hr'⟩ := Option.bind_eq_some_iff.mp hr
    have hlt := hstep s a u hg.1 hu
    have hle := ih (hg.2 u hu) hr'
    rw [List.length_cons]
    omega

/-- **A property that a step keeps exactly under the guard** holds after a run exactly if the run
is guarded. -/
theorem guarded_iff_of_step {P : σ → Prop} (hinv : ∀ s a t, Inv s → step s a = some t → Inv t)
    (hP : ∀ s a t, Inv s → step s a = some t → (P t ↔ P s ∧ ok s a)) {s t : σ} {as : List α}
    (h0 : Inv s) (hr : run step s as = some t) : P t ↔ P s ∧ Guarded step ok s as := by
  induction as generalizing s with
  | nil =>
    cases hr
    simp
  | cons a as ih =>
    obtain ⟨u, hu, hr'⟩ := Option.bind_eq_some_iff.mp hr
    rw [ih (hinv s a u h0 hu) hr', hP s a u h0 hu, and_assoc]
    refine and_congr_right fun _ => ⟨fun h => ⟨h.1, fun v hv => ?_⟩, fun h => ⟨h.1, h.2 u hu⟩⟩
    rw [hu] at hv
    exact Option.some.inj hv ▸ h.2

/-- **A property of every state of a run** that a step keeps exactly under the guard. -/
theorem guarded_iff_forall {P : σ → Prop} (hinv : ∀ s a t, Inv s → step s a = some t → Inv t)
    (hP : ∀ s a, Inv s → P s → (ok s a ↔ ∀ t, step s a = some t → P t)) {s : σ} {as : List α}
    (h0 : Inv s) (hp : P s) :
    (∀ bs, bs <+: as → ∀ t, run step s bs = some t → P t) ↔ Guarded step ok s as := by
  induction as generalizing s with
  | nil =>
    refine iff_of_true (fun bs hbs t ht => ?_) trivial
    obtain rfl := List.prefix_nil.mp hbs
    exact Option.some.inj ht ▸ hp
  | cons a as ih =>
    constructor
    · intro h
      have hok : ok s a := by
        rw [hP s a h0 hp]
        intro t ht
        refine h [a] (List.prefix_cons_inj a |>.mpr (List.nil_prefix)) t ?_
        rw [run_cons, ht]
        rfl
      refine ⟨hok, fun t ht => ?_⟩
      apply (ih (hinv s a t h0 ht) ((hP s a h0 hp).mp hok t ht)).mp
      intro bs hbs u hu
      refine h (a :: bs) ((List.prefix_cons_inj a).mpr hbs) u ?_
      rw [run_cons, ht]
      exact hu
    · rintro ⟨hok, hrest⟩ bs hbs u hu
      cases bs with
      | nil => exact Option.some.inj hu ▸ hp
      | cons b bs =>
        obtain ⟨rfl, hbs'⟩ := List.cons_prefix_cons.mp hbs
        obtain ⟨t, ht, hu'⟩ := Option.bind_eq_some_iff.mp hu
        have hpt := (hP s b h0 hp).mp hok t ht
        exact (ih (hinv s b t h0 ht) hpt).mpr (hrest t ht) bs hbs' u hu'

/-- a guard that holds in every state -/
theorem guarded_of_forall {s : σ} {as : List α} (h : ∀ a ∈ as, ∀ s, ok s a) :
    Guarded step ok s as := by
  induction as generalizing s with
  | nil => trivial
  | cons a as ih =>
    exact ⟨h a (by simp) s, fun t _ => ih fun b hb => h b (List.mem_cons_of_mem _ hb)⟩

/-- a guard that says the same -/
theorem guarded_congr {ok' : σ → α → Prop} (h : ∀ s a, ok s a ↔ ok' s a) (s : σ) (as : List α) :
    Guarded step ok s as ↔ Guarded step ok' s as := by
  induction as generalizing s with
  | nil => exact Iff.rfl
  | cons a as ih => exact and_congr (h s a) (forall_congr' fun t => imp_congr_right fun _ => ih t)

/-- two guards at once -/
theorem Guarded.and {ok' : σ → α → Prop} {s : σ} {as : List α} (h : Guarded step ok s as)
    (h' : Guarded step ok' s as) : Guarded step (fun s a => ok s a ∧ ok' s a) s as := by
  induction as generalizing s with
  | nil => trivial
  | cons a as ih => exact ⟨⟨h.1, h'.1⟩, fun t ht => ih (h.2 t ht) (h'.2 t ht)⟩

/-- **A guard that follows** from another one in the states of its runs. -/
theorem Guarded.of_inv {ok' : σ → α → Prop}
    (hstep : ∀ s a t, Inv s → ok s a → step s a = some t → Inv t)
    (h : ∀ s a, Inv s → ok s a → ok' s a) {s : σ} {as : List α} (h0 : Inv s)
    (hg : Guarded step ok s as) : Guarded step ok' s as := by
  induction as generalizing s with
  | nil => trivial
  | cons a as ih => exact ⟨h s a h0 hg.1, fun t ht => ih (hstep s a t h0 hg.1 ht) (hg.2 t ht)⟩

end Run
