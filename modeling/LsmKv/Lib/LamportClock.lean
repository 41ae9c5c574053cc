import LsmKv.Lib.Run
import Mathlib.Logic.Function.Basic
import Mathlib.Tactic

/-!
# Lamport clocks with a limit

A process whose threads read messages, count them in, stamp messages and send them, one step each.
A stamped message may be sent several times.  The clock is a maximum, and its successor is taken
modulo `limit`.

* `State`, `Act`, `step`   the clock, what the threads hold, and the log of events;
* `Ordered`       every message sent has a greater timestamp than all that were sent or read before;
* `Ok`            the steps that keep the order;
* `clock_le`      the clock never decreases, in any run;
* `Inv.run`       the log is ordered after a run of such steps.
-/

set_option linter.unusedSectionVars false

namespace LamportClock

open Run

/-- a message read with its timestamp, or sent with its number and its timestamp -/
inductive Event where
  | received (ts : ℕ)
  | sent (id ts : ℕ)
  deriving DecidableEq, Repr

@[ext] structure State (ι : Type*) where
  clock : ℕ
  /-- the message read and not counted in -/
  reading : ι → Option ℕ
  /-- the message stamped, while it is to be sent -/
  unsent : ι → Option (ℕ × ℕ)
  next : ℕ
  /-- the latest event first -/
  log : List Event

inductive Act (ι : Type*) where
  | read (i : ι) (ts : ℕ)
  | count (i : ι)
  | stamp (i : ι)
  | send (i : ι)
  | drop (i : ι)

/-- the earlier event leaves the later one free to have its timestamp -/
def Event.After : Event → Event → Prop
  | .received _, _ => True
  | .sent _ ts, .received ts' => ts' < ts
  | .sent id ts, .sent id' ts' => id' ≠ id → ts' < ts

instance : (e e' : Event) → Decidable (e.After e')
  | .received _, _ => isTrue trivial
  | .sent _ _, .received _ => inferInstanceAs (Decidable (_ < _))
  | .sent _ _, .sent _ _ => inferInstanceAs (Decidable (_ → _))

/-- **The order of messages.** -/
def Ordered (log : List Event) : Prop := log.Pairwise Event.After

instance (log : List Event) : Decidable (Ordered log) :=
  inferInstanceAs (Decidable (List.Pairwise _ _))

section
variable {ι : Type*} [DecidableEq ι] (limit : ℕ)

def State.init : State ι := ⟨0, fun _ => none, fun _ => none, 0, []⟩

def step (s : State ι) : Act ι → Option (State ι)
  | .read i ts =>
    if s.reading i = none then some { s with
      reading := Function.update s.reading i (some ts), log := .received ts :: s.log }
    else none
  | .count i => (s.reading i).map fun ts =>
      { s with clock := max s.clock ts, reading := Function.update s.reading i none }
  | .stamp i =>
    let ts := max s.clock ((s.clock + 1) % limit)
    some { s with
      clock := ts, unsent := Function.update s.unsent i (some (s.next, ts)), next := s.next + 1 }
  | .send i => (s.unsent i).map fun m => { s with log := .sent m.1 m.2 :: s.log }
  | .drop i => some { s with unsent := Function.update s.unsent i none }

/-- A message is stamped below the limit and when all messages read are counted in; no message is
read that is not earlier than all that are to be sent, and none sent while an earlier one is. -/
def Ok (s : State ι) : Act ι → Prop
  | .read _ ts => ∀ j m, s.unsent j = some m → ts < m.2
  | .stamp _ => s.clock + 1 < limit ∧ ∀ j ts, s.reading j = some ts → ts ≤ s.clock
  | .send i => ∀ m, s.unsent i = some m → ∀ j m', j ≠ i → s.unsent j = some m' → m.2 < m'.2
  | .count _ | .drop _ => True

variable {limit}

/-- **The clock never decreases.** -/
theorem clock_le {s s' : State ι} {as : List (Act ι)} (h : run (step limit) s as = some s') :
    s.clock ≤ s'.clock := by
  induction as generalizing s with
  | nil => exact (congrArg State.clock (Option.some.inj h)).le
  | cons a as ih =>
    obtain ⟨u, hu, hr⟩ := Option.bind_eq_some_iff.mp h
    refine le_trans ?_ (ih hr)
    cases a with
    | read i ts =>
      obtain ⟨-, hu⟩ := Option.ite_none_right_eq_some.mp hu
      obtain rfl := Option.some.inj hu
      exact le_rfl
    | count i =>
      obtain ⟨ts, -, rfl⟩ := Option.map_eq_some_iff.mp hu
      exact le_max_left _ _
    | stamp i =>
      obtain rfl := Option.some.inj hu
      exact le_max_left _ _
    | send i =>
      obtain ⟨m, -, rfl⟩ := Option.map_eq_some_iff.mp hu
      exact le_rfl
    | drop i =>
      obtain rfl := Option.some.inj hu
      exact le_rfl

/-- what steps that are `Ok` keep -/
structure Inv (s : State ι) : Prop where
  ordered : Ordered s.log
  received : ∀ ts, .received ts ∈ s.log → ts ≤ s.clock ∨ ∃ j, s.reading j = some ts
  sent : ∀ id ts, .sent id ts ∈ s.log → ts ≤ s.clock ∧ id < s.next
  unsent : ∀ j m, s.unsent j = some m → m.2 ≤ s.clock ∧ m.1 < s.next ∧
    ∀ e ∈ s.log, (Event.sent m.1 m.2).After e

theorem Inv.init : Inv (State.init : State ι) where
  ordered := List.Pairwise.nil
  received _ h := absurd h List.not_mem_nil
  sent _ _ h := absurd h List.not_mem_nil
  unsent _ _ h := by cases h

theorem Inv.read {s : State ι} (h : Inv s) {i : ι} {ts : ℕ} (hi : s.reading i = none)
    (hok : Ok limit s (.read i ts)) : Inv { s with
      reading := Function.update s.reading i (some ts), log := .received ts :: s.log } where
  ordered := List.pairwise_cons.mpr ⟨fun _ _ => trivial, h.ordered⟩
  received ts' hm := by
    show ts' ≤ s.clock ∨ ∃ j, Function.update s.reading i (some ts) j = some ts'
    rcases List.mem_cons.mp hm with he | hm
    · obtain rfl := Event.received.inj he
      exact Or.inr ⟨i, Function.update_self ..⟩
    · rcases h.received ts' hm with hle | ⟨j, hj⟩
      · exact Or.inl hle
      · have hne : j ≠ i := by
          rintro rfl
          rw [hi] at hj
          cases hj
        exact Or.inr ⟨j, by rw [Function.update_of_ne hne, hj]⟩
  sent id ts' hm := by
    rcases List.mem_cons.mp hm with he | hm
    · cases he
    · exact h.sent id ts' hm
  unsent j m hj := by
    obtain ⟨h1, h2, h3⟩ := h.unsent j m hj
    exact ⟨h1, h2, List.forall_mem_cons.mpr ⟨hok j m hj, h3⟩⟩

theorem Inv.count {s : State ι} (h : Inv s) {i : ι} {ts : ℕ} (hi : s.reading i = some ts) :
    Inv { s with clock := max s.clock ts, reading := Function.update s.reading i none } where
  ordered := h.ordered
  received ts' hm := by
    show ts' ≤ max s.clock ts ∨ ∃ j, Function.update s.reading i none j = some ts'
    rcases h.received ts' hm with hle | ⟨j, hj⟩
    · exact Or.inl (le_max_of_le_left hle)
    · by_cases he : j = i
      · subst he
        obtain rfl : ts = ts' := Option.some.inj (hi.symm.trans hj)
        exact Or.inl (le_max_right _ _)
      · exact Or.inr ⟨j, by rw [Function.update_of_ne he, hj]⟩
  sent id ts' hm := ⟨le_max_of_le_left (h.sent id ts' hm).1, (h.sent id ts' hm).2⟩
  unsent j m hj := by
    obtain ⟨h1, h2, h3⟩ := h.unsent j m hj
    exact ⟨le_max_of_le_left h1, h2, h3⟩

/-- below the limit the stamp is greater than everything before -/
theorem Inv.stamp {s : State ι} (h : Inv s) {i : ι} (hok : Ok limit s (.stamp i)) :
    Inv { s with
      clock := max s.clock ((s.clock + 1) % limit)
      unsent := Function.update s.unsent i (some (s.next, max s.clock ((s.clock + 1) % limit)))
      next := s.next + 1 } := by
  obtain ⟨hlim, hread⟩ := hok
  have hnew : max s.clock ((s.clock + 1) % limit) = s.clock + 1 := by
    rw [Nat.mod_eq_of_lt hlim]
    exact max_eq_right (Nat.le_succ _)
  have hall : ∀ ts, .received ts ∈ s.log → ts ≤ s.clock := by
    intro ts hm
    rcases h.received ts hm with hle | ⟨j, hj⟩
    · exact hle
    · exact hread j ts hj
  rw [hnew]
  refine ⟨h.ordered, ?_, ?_, ?_⟩
  · exact fun ts hm => Or.inl ((hall ts hm).trans (Nat.le_succ _))
  · intro id ts hm
    obtain ⟨h1, h2⟩ := h.sent id ts hm
    exact ⟨h1.trans (Nat.le_succ _), h2.trans (Nat.lt_succ_self _)⟩
  · show ∀ j m, Function.update s.unsent i (some (s.next, s.clock + 1)) j = some m → _
    apply (Function.forall_update_iff s.unsent fun _ o => ∀ m, o = some m →
      m.2 ≤ s.clock + 1 ∧ m.1 < s.next + 1 ∧ ∀ e ∈ s.log, (Event.sent m.1 m.2).After e).mpr
    constructor
    · intro m hm
      obtain rfl := Option.some.inj hm
      refine ⟨le_rfl, Nat.lt_succ_self _, ?_⟩
      intro e he
      cases e with
      | received ts => exact Nat.lt_succ_of_le (hall ts he)
      | sent id ts => exact fun _ => Nat.lt_succ_of_le (h.sent id ts he).1
    · intro j _ m hj
      obtain ⟨h1, h2, h3⟩ := h.unsent j m hj
      exact ⟨h1.trans (Nat.le_succ _), h2.trans (Nat.lt_succ_self _), h3⟩

theorem Inv.send {s : State ι} (h : Inv s) {i : ι} {m : ℕ × ℕ} (hi : s.unsent i = some m)
    (hok : Ok limit s (.send i)) : Inv { s with log := .sent m.1 m.2 :: s.log } := by
  obtain ⟨hle, hid, hafter⟩ := h.unsent i m hi
  refine ⟨List.pairwise_cons.mpr ⟨hafter, h.ordered⟩, ?_, ?_, ?_⟩
  · intro ts hm
    rcases List.mem_cons.mp hm with he | hm
    · cases he
    · exact h.received ts hm
  · intro id ts hm
    rcases List.mem_cons.mp hm with he | hm
    · obtain ⟨rfl, rfl⟩ := Event.sent.inj he
      exact ⟨hle, hid⟩
    · exact h.sent id ts hm
  · intro j m' hj
    obtain ⟨h1, h2, h3⟩ := h.unsent j m' hj
    refine ⟨h1, h2, List.forall_mem_cons.mpr ⟨?_, h3⟩⟩
    by_cases he : j = i
    · subst he
      obtain rfl : m = m' := Option.some.inj (hi.symm.trans hj)
      exact fun hne => absurd rfl hne
    · exact fun _ => hok m hi j m' he hj

theorem Inv.drop {s : State ι} (h : Inv s) (i : ι) :
    Inv { s with unsent := Function.update s.unsent i none } where
  ordered := h.ordered
  received := h.received
  sent := h.sent
  unsent := by
    apply (Function.forall_update_iff s.unsent fun _ o => ∀ m, o = some m →
      m.2 ≤ s.clock ∧ m.1 < s.next ∧ ∀ e ∈ s.log, (Event.sent m.1 m.2).After e).mpr
    exact ⟨fun _ hm => (by cases hm), fun j _ => h.unsent j⟩

theorem Inv.step {s s' : State ι} {a : Act ι} (h : Inv s) (hok : Ok limit s a)
    (hs : step limit s a = some s') : Inv s' := by
  cases a with
  | read i ts =>
    obtain ⟨hi, hs⟩ := Option.ite_none_right_eq_some.mp hs
    obtain rfl := Option.some.inj hs
    exact h.read hi hok
  | count i =>
    obtain ⟨ts, hi, rfl⟩ := Option.map_eq_some_iff.mp hs
    exact h.count hi
  | stamp i =>
    obtain rfl := Option.some.inj hs
    exact h.stamp hok
  | send i =>
    obtain ⟨m, hi, rfl⟩ := Option.map_eq_some_iff.mp hs
    exact h.send hi hok
  | drop i =>
    obtain rfl := Option.some.inj hs
    exact h.drop i

/-- **The log is ordered** after every run of steps that are `Ok`. -/
theorem Inv.run {s s' : State ι} {as : List (Act ι)} (h : Inv s)
    (hg : Guarded (LamportClock.step limit) (Ok limit) s as)
    (hr : run (LamportClock.step limit) s as = some s') : Inv s' :=
  inv_of_guarded (fun _ _ _ hi hok hs => hi.step hok hs) h hg hr

end

end LamportClock
