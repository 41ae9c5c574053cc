import Mathlib.Data.List.Basic

/-!
# Programs whose operations may fail or be the last

A program works on a state and makes calls of the system.  What each call comes to is read from a
list of outcomes; past its end every call succeeds.

* `Code σ α`          a program: it is done with a value, dies in some state, or is undefined;
* `call f`            one call with the effect `f`; a call that fails has no effect, a crash comes
                      before it;
* `wp p Q C`          `Q` holds where `p` is done, `C` where it dies;
* `wp_bind` .. `wp_call`   the rules; `wp_mono` is the rule of consequence, `wp_done` keeps the run;
* `zoom`              a program on a part of the state;
* `Oks k os`          the next `k` calls succeed;
* `stateAfter p i s`  the state that a crash after the first `i` calls leaves;
* `Upholds P R p`     `P` is an invariant of the program, and `R` holds of its value.
-/

namespace Crash

inductive Outcome where
  | ok
  | fails
  | crash
  deriving DecidableEq, Repr

/-- how a program ends; `done` leaves the outcomes that are not used up -/
inductive End (σ α : Type) where
  | done (a : α) (s : σ) (os : List Outcome)
  | died (s : σ)
  | undefined

namespace End
variable {σ α : Type}

/-- the state left, if there is one -/
def state : End σ α → Option σ
  | done _ s _ => some s
  | died s => some s
  | undefined => none

/-- `Q` of a program that is done, `C` of one that died -/
def Sat (Q : α → σ → List Outcome → Prop) (C : σ → Prop) : End σ α → Prop
  | done a s os => Q a s os
  | died s => C s
  | undefined => True

end End

def Code (σ α : Type) : Type := σ → List Outcome → End σ α

namespace Code
variable {σ τ α β : Type}

instance instMonadCode : Monad (Code σ) where
  pure a := fun s os => .done a s os
  bind p f := fun s os =>
    match p s os with
    | .done a t os => f a t os
    | .died t => .died t
    | .undefined => .undefined

/-- one call of the system; the value says whether it succeeded -/
def call (f : σ → σ) : Code σ Bool := fun s os =>
  match os.headD .ok with
  | .ok => .done true (f s) os.tail
  | .fails => .done false s os.tail
  | .crash => .died s

/-- the state, read and changed without a call -/
def get : Code σ σ := fun s os => .done s s os

def modify (f : σ → σ) : Code σ Unit := fun s os => .done () (f s) os

def die : Code σ α := fun s _ => .died s

def ofOption (a : Option α) : Code σ α := fun s os =>
  match a with
  | some a => .done a s os
  | none => .undefined

/-- a program on the part `view s` of the state -/
def zoom (view : σ → τ) (put : τ → σ → σ) (p : Code τ α) : Code σ α := fun s os =>
  match p (view s) os with
  | .done a t os => .done a (put t s) os
  | .died t => .died (put t s)
  | .undefined => .undefined

/-- the state after the first `i` calls, where all of them succeed -/
def stateAfter (p : Code σ α) (i : ℕ) (s : σ) : Option σ :=
  (p s (List.replicate i .ok ++ [.crash])).state

/-- the weakest precondition -/
def wp (p : Code σ α) (Q : α → σ → List Outcome → Prop) (C : σ → Prop) (s : σ)
    (os : List Outcome) : Prop := (p s os).Sat Q C

variable {Q Q' : α → σ → List Outcome → Prop} {C C' : σ → Prop} {s : σ} {os : List Outcome}

@[simp] theorem wp_pure (a : α) : wp (pure a : Code σ α) Q C s os ↔ Q a s os := Iff.rfl

@[simp] theorem wp_bind (p : Code σ α) (f : α → Code σ β) {Q : β → σ → List Outcome → Prop} :
    wp (p >>= f) Q C s os ↔ wp p (fun a t os => wp (f a) Q C t os) C s os := by
  show End.Sat Q C (match p s os with
    | .done a t os => f a t os
    | .died t => .died t
    | .undefined => .undefined) ↔ End.Sat _ C (p s os)
  cases p s os <;> rfl

@[simp] theorem wp_get {Q : σ → σ → List Outcome → Prop} :
    wp (get : Code σ σ) Q C s os ↔ Q s s os := Iff.rfl

@[simp] theorem wp_modify (f : σ → σ) {Q : Unit → σ → List Outcome → Prop} :
    wp (modify f) Q C s os ↔ Q () (f s) os := Iff.rfl

@[simp] theorem wp_ofOption (a : Option α) :
    wp (ofOption a : Code σ α) Q C s os ↔ ∀ x, a = some x → Q x s os := by
  cases a with
  | none => exact ⟨fun _ x h => (by cases h), fun _ => trivial⟩
  | some x => exact ⟨fun h y hy => Option.some.inj hy ▸ h, fun h => h x rfl⟩

theorem wp_mono {p : Code σ α} (h : wp p Q C s os) (hQ : ∀ a t os, Q a t os → Q' a t os)
    (hC : ∀ t, C t → C' t) : wp p Q' C' s os := by
  unfold wp at h ⊢
  cases he : p s os with
  | done a t os => rw [he] at h; exact hQ a t os h
  | died t => rw [he] at h; exact hC t h
  | undefined => trivial

/-- a program goes on where its first part is done -/
theorem bind_of_done {p : Code σ α} {f : α → Code σ β} {a : α} {t : σ} {os' : List Outcome}
    (h : p s os = .done a t os') : (p >>= f) s os = f a t os' := by
  show (match p s os with
    | .done a t os => f a t os
    | .died t => .died t
    | .undefined => .undefined) = f a t os'
  rw [h]

theorem zoom_of_done {view : σ → τ} {put : τ → σ → σ} {p : Code τ α} {a : α} {t : τ}
    {os' : List Outcome} (h : p (view s) os = .done a t os') :
    zoom view put p s os = .done a (put t s) os' := by
  unfold zoom
  rw [h]

/-- what the rules say of a run that is done -/
theorem of_wp_done {p : Code σ α} (h : wp p Q C s os) {a : α} {t : σ} {os' : List Outcome}
    (hd : p s os = .done a t os') : Q a t os' := by
  unfold wp at h
  rwa [hd] at h

/-- the run itself, for a program that is done -/
theorem wp_done {p : Code σ α} (h : wp p Q C s os) :
    wp p (fun a t os' => Q a t os' ∧ p s os = .done a t os') C s os := by
  unfold wp at h ⊢
  cases he : p s os with
  | done a t os => rw [he] at h; exact ⟨h, rfl⟩
  | died t => rw [he] at h; exact h
  | undefined => trivial

theorem wp_zoom {view : σ → τ} {put : τ → σ → σ} {p : Code τ α} :
    wp (zoom view put p) Q C s os
      ↔ wp p (fun a t os => Q a (put t s) os) (fun t => C (put t s)) (view s) os := by
  show End.Sat Q C (match p (view s) os with
    | .done a t os => .done a (put t s) os
    | .died t => .died (put t s)
    | .undefined => .undefined) ↔ End.Sat _ _ (p (view s) os)
  cases p (view s) os <;> rfl

end Code

/-! ## outcomes -/

/-- the next `k` calls succeed -/
def Oks : ℕ → List Outcome → Prop
  | 0, _ => True
  | k + 1, os => os.headD .ok = .ok ∧ Oks k os.tail

instance decOks : ∀ k os, Decidable (Oks k os)
  | 0, _ => isTrue trivial
  | k + 1, os =>
    have := decOks k os.tail
    inferInstanceAs (Decidable (_ ∧ _))

theorem oks_add {j k : ℕ} {os : List Outcome} :
    Oks (j + k) os ↔ Oks j os ∧ Oks k (os.drop j) := by
  induction j generalizing os with
  | zero => simp [Oks]
  | succ j ih =>
    rw [Nat.succ_add, Oks, Oks, ih, and_assoc]
    cases os <;> simp

theorem Oks.le {j k : ℕ} {os : List Outcome} (h : Oks k os) (hjk : j ≤ k) : Oks j os := by
  obtain ⟨l, rfl⟩ := Nat.exists_eq_add_of_le hjk
  exact (oks_add.mp h).1

theorem oks_iff {k : ℕ} {os : List Outcome} :
    Oks k os ↔ ∀ j < k, (os.drop j).headD .ok = .ok := by
  induction k generalizing os with
  | zero => simp [Oks]
  | succ k ih =>
    rw [Oks, ih]
    constructor
    · rintro ⟨h0, h⟩ j hj
      cases j with
      | zero => exact h0
      | succ j =>
        rw [← List.drop_tail]
        exact h j (by omega)
    · intro h
      refine ⟨h 0 (by omega), fun j hj => ?_⟩
      rw [List.drop_tail]
      exact h (j + 1) (by omega)

/-- no call fails -/
def NoFails (os : List Outcome) : Prop := .fails ∉ os

theorem NoFails.tail {os : List Outcome} (h : NoFails os) : NoFails os.tail :=
  fun hm => h (List.mem_of_mem_tail hm)

theorem NoFails.head {os : List Outcome} (h : NoFails os) : os.headD .ok ≠ .fails := by
  cases os with
  | nil => simp
  | cons o os =>
    rintro rfl
    exact h (by simp)

theorem NoFails.drop {os : List Outcome} (h : NoFails os) (k : ℕ) : NoFails (os.drop k) :=
  fun hm => h (List.mem_of_mem_drop hm)

theorem not_noFails_of_head {os : List Outcome} (h : os.headD .ok = .fails) : ¬ NoFails os :=
  fun hn => hn.head h

theorem noFails_crash (i : ℕ) : NoFails (List.replicate i .ok ++ [.crash]) := by
  intro h
  rcases List.mem_append.mp h with h | h
  · cases List.eq_of_mem_replicate h
  · simp at h

namespace Code
variable {σ α : Type} {Q : Bool → σ → List Outcome → Prop} {C : σ → Prop} {s : σ}
  {os : List Outcome}

/-- **One call.** -/
theorem wp_call {f : σ → σ} : wp (call f) Q C s os ↔
    (os.headD .ok = .ok → Q true (f s) os.tail) ∧ (os.headD .ok = .fails → Q false s os.tail) ∧
      (os.headD .ok = .crash → C s) := by
  unfold wp call
  cases os.headD .ok <;> simp [End.Sat]

theorem stateAfter_of_wp {p : Code σ α} {Q : α → σ → List Outcome → Prop} {i : ℕ} {t : σ}
    (h : wp p Q C s (List.replicate i .ok ++ [.crash])) (ht : stateAfter p i s = some t) :
    (∃ a os, Q a t os) ∨ C t := by
  unfold stateAfter at ht
  unfold wp at h
  cases he : p s (List.replicate i .ok ++ [.crash]) with
  | done a u os =>
    rw [he] at h ht
    cases ht
    exact Or.inl ⟨a, os, h⟩
  | died u =>
    rw [he] at h ht
    cases ht
    exact Or.inr h
  | undefined =>
    rw [he] at ht
    cases ht

/-! ## invariants of a program -/

/-- From `P` the program only reaches states with `P`, whatever its calls come to; the value that
it is done with has `R`. -/
def Upholds {σ α : Type} (P : σ → Prop) (R : α → Prop) (p : Code σ α) : Prop :=
  ∀ s os, P s → wp p (fun a t _ => P t ∧ R a) P s os

namespace Upholds
variable {β : Type} {P : σ → Prop} {R R' : α → Prop} {p : Code σ α}

theorem pure {a : α} (h : R a) : Upholds P R (Pure.pure a) := fun _ _ hs => ⟨hs, h⟩

theorem bind {R' : β → Prop} {f : α → Code σ β} (hp : Upholds P R p)
    (hf : ∀ a, R a → Upholds P R' (f a)) : Upholds P R' (p >>= f) := by
  intro s os hs
  rw [wp_bind]
  exact wp_mono (hp s os hs) (fun a t os' h => hf a h.2 t os' h.1) fun t h => h

theorem get : Upholds P P get := fun _ _ hs => ⟨hs, hs⟩

theorem modify {f : σ → σ} (h : ∀ s, P s → P (f s)) : Upholds P (fun _ => True) (modify f) :=
  fun s _ hs => ⟨h s hs, trivial⟩

theorem call {f : σ → σ} (h : ∀ s, P s → P (f s)) : Upholds P (fun _ => True) (call f) :=
  fun s _ hs => wp_call.mpr ⟨fun _ => ⟨h s hs, trivial⟩, fun _ => ⟨hs, trivial⟩, fun _ => hs⟩

theorem die : Upholds P R die := fun _ _ hs => hs

theorem ofOption {a : Option α} (h : ∀ x, a = some x → R x) : Upholds P R (ofOption a) :=
  fun _ _ hs => (wp_ofOption a).mpr fun x hx => ⟨hs, h x hx⟩

/-- an invariant of the part of the state that the program works on -/
theorem zoom {τ : Type} {P : τ → Prop} {p : Code τ α} {view : σ → τ} {put : τ → σ → σ}
    (h : Upholds P R p) (hput : ∀ t s, view (put t s) = t) :
    Upholds (fun s => P (view s)) R (zoom view put p) := by
  intro s os hs
  have hkeep : ∀ t, P t → P (view (put t s)) := fun t ht => by rwa [hput]
  exact wp_zoom.mpr (wp_mono (h (view s) os hs) (fun _ t _ ht => ⟨hkeep t ht.1, ht.2⟩) hkeep)

/-- the invariant in the state left -/
theorem state (h : Upholds P R p) {s t : σ} {os : List Outcome} (hs : P s)
    (ht : (p s os).state = some t) : P t := by
  have hw := h s os hs
  unfold wp at hw
  cases he : p s os with
  | done a u os' =>
    rw [he] at hw ht
    exact Option.some.inj ht ▸ hw.1
  | died u =>
    rw [he] at hw ht
    exact Option.some.inj ht ▸ hw
  | undefined =>
    rw [he] at ht
    cases ht

end Upholds

end Code

end Crash
