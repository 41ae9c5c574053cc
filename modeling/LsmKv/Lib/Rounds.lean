import Mathlib.Data.List.Perm.Subperm
import Mathlib.Logic.Function.Basic
import Mathlib.Tactic

/-!
# Rounds of requests

A node asks some of its peers, one after the other, with one request, and counts their replies.  A
peer replies at once, or defers the request and replies later.  Every message names the request it
belongs to.

* `State`             the requests and replies between the nodes, and the round of each node;
* `start` .. `finish` the steps;
* `owed s p q`        the requests of `p` whose reply from `q` has not been counted, oldest first;
* `Inv s p`           `p` is owed one reply of each peer it has asked in this round and not yet
                      counted, and nothing else;
* `Inv.consent`       when as many replies are counted as peers were asked, each of them has
                      replied to the request of this round.
-/

set_option linter.unusedSectionVars false

namespace Rounds

/-- a function of two arguments changed at one place -/
def set {ν α : Type*} [DecidableEq ν] (f : ν → ν → α) (p q : ν) (a : α) : ν → ν → α :=
  fun p' q' => if p' = p ∧ q' = q then a else f p' q'

section set
variable {ν α : Type*} [DecidableEq ν] (f : ν → ν → α) (a : α)

@[simp] theorem set_self (p q : ν) : set f p q a p q = a := if_pos ⟨rfl, rfl⟩

theorem set_of_ne {p q p' q' : ν} (h : ¬ (p' = p ∧ q' = q)) : set f p q a p' q' = f p' q' :=
  if_neg h

theorem set_row {p p' : ν} (h : p' ≠ p) (q q' : ν) : set f p q a p' q' = f p' q' :=
  if_neg fun e => h e.1

@[simp] theorem set_eq_self (p q : ν) : set f p q (f p q) = f := by
  funext p' q'
  unfold set
  split_ifs with h
  · rw [h.1, h.2]
  · rfl

end set

structure State (ν κ : Type*) where
  /-- the request of the node's round, and the peers asked so far -/
  round : ν → Option (κ × List ν)
  /-- the requests of `p` on their way to `q` -/
  asked : ν → ν → List κ
  /-- the request of `p` that `q` has deferred -/
  deferred : ν → ν → Option κ
  /-- the requests of `p` that the replies on their way from `q` answer -/
  answers : ν → ν → List κ
  /-- the replies counted in the node's round: from whom, to which request -/
  counted : ν → List (ν × κ)

namespace State
variable {ν κ : Type*}

def init : State ν κ :=
  ⟨fun _ => none, fun _ _ => [], fun _ _ => none, fun _ _ => [], fun _ => []⟩

/-- what `p` is owed by `q` -/
def owed (s : State ν κ) (p q : ν) : List κ :=
  s.answers p q ++ ((s.deferred p q).toList ++ s.asked p q)

theorem owed_congr {s s' : State ν κ} {p q : ν} (ha : s'.answers p q = s.answers p q)
    (hd : s'.deferred p q = s.deferred p q) (hk : s'.asked p q = s.asked p q) :
    s'.owed p q = s.owed p q := by
  unfold owed
  rw [ha, hd, hk]

variable [DecidableEq ν] (s : State ν κ)

/-- `p` starts a round with the request `k` -/
@[simps] def start (p : ν) (k : κ) : State ν κ :=
  { s with round := Function.update s.round p (some (k, [])) }

/-- `p` sends the request `k` to `q` -/
@[simps] def ask (p q : ν) (k : κ) : State ν κ :=
  { s with
    round := Function.update s.round p ((s.round p).map fun r => (r.1, r.2 ++ [q]))
    asked := set s.asked p q (s.asked p q ++ [k]) }

/-- `q` takes the next request of `p` and replies to it -/
@[simps] def answer (p q : ν) : State ν κ :=
  { s with
    asked := set s.asked p q (s.asked p q).tail
    answers := set s.answers p q (s.answers p q ++ (s.asked p q).head?.toList) }

/-- `q` takes the next request of `p` and defers it -/
@[simps] def defer (p q : ν) : State ν κ :=
  { s with
    asked := set s.asked p q (s.asked p q).tail
    deferred := set s.deferred p q (s.asked p q).head? }

/-- `q` replies to the request of `p` that it has deferred -/
@[simps] def settle (p q : ν) : State ν κ :=
  { s with
    deferred := set s.deferred p q none
    answers := set s.answers p q (s.answers p q ++ (s.deferred p q).toList) }

/-- `p` counts the next reply of `q` -/
@[simps] def count (p q : ν) : State ν κ :=
  { s with
    answers := set s.answers p q (s.answers p q).tail
    counted := Function.update s.counted p
      (s.counted p ++ ((s.answers p q).head?.map fun k => (q, k)).toList) }

/-- `p` ends its round -/
@[simps] def finish (p : ν) : State ν κ :=
  { s with
    round := Function.update s.round p none
    counted := Function.update s.counted p [] }

/-- nothing changes where no request is deferred -/
theorem settle_of_none {p q : ν} (h : s.deferred p q = none) : s.settle p q = s := by
  unfold settle
  rw [h, Option.toList_none, List.append_nil, set_eq_self, ← h, set_eq_self]

end State

open State

variable {ν κ : Type*} [DecidableEq ν]

/-- What holds of the rounds of `p`. -/
structure Inv (s : State ν κ) (p : ν) : Prop where
  free : s.round p = none → s.counted p = [] ∧ ∀ q, s.owed p q = []
  busy : ∀ k pre, s.round p = some (k, pre) → ∃ rs : List ν, rs.Nodup ∧ rs ⊆ pre ∧
    (s.counted p = rs.map fun q => (q, k)) ∧
    ∀ q, s.owed p q = if q ∈ pre ∧ q ∉ rs then [k] else []

theorem inv_init (p : ν) : Inv (init : State ν κ) p where
  free _ := ⟨rfl, fun _ => rfl⟩
  busy k pre h := by cases h

namespace Inv
variable {s s' : State ν κ} {p q : ν}

theorem congr (h : Inv s p) (hround : s'.round p = s.round p)
    (hcounted : s'.counted p = s.counted p) (howed : ∀ q, s'.owed p q = s.owed p q) :
    Inv s' p := by
  constructor
  · rw [hround, hcounted]
    intro hfree
    exact ⟨(h.free hfree).1, fun q => (howed q).trans ((h.free hfree).2 q)⟩
  · intro k pre hk
    rw [hround] at hk
    obtain ⟨rs, hnd, hsub, hc, ho⟩ := h.busy k pre hk
    exact ⟨rs, hnd, hsub, hcounted.trans hc, fun q => (howed q).trans (ho q)⟩

/-- one reply at most is owed -/
theorem owed_cases (h : Inv s p) (q : ν) : s.owed p q = [] ∨
    ∃ k pre, s.round p = some (k, pre) ∧ q ∈ pre ∧ (q, k) ∉ s.counted p ∧ s.owed p q = [k] := by
  cases hr : s.round p with
  | none => exact Or.inl ((h.free hr).2 q)
  | some r =>
    obtain ⟨k, pre⟩ := r
    obtain ⟨rs, -, -, hc, ho⟩ := h.busy k pre hr
    rw [ho q]
    split_ifs with hq
    · refine Or.inr ⟨k, pre, rfl, hq.1, ?_, rfl⟩
      rw [hc]
      intro hm
      obtain ⟨q', hq', he⟩ := List.mem_map.mp hm
      exact hq.2 ((Prod.mk.inj he).1 ▸ hq')
    · exact Or.inl rfl

theorem owed_length (h : Inv s p) (q : ν) : (s.owed p q).length ≤ 1 := by
  rcases h.owed_cases q with ho | ⟨k, -, -, -, -, ho⟩
  · rw [ho]
    exact Nat.zero_le 1
  · rw [ho]
    exact le_rfl

/-- a request on its way is all that is owed -/
theorem of_asked (h : Inv s p) {k : κ} {ks : List κ} (hq : s.asked p q = k :: ks) :
    s.answers p q = [] ∧ s.deferred p q = none ∧ ks = [] := by
  have hlen := h.owed_length q
  unfold owed at hlen
  rw [hq, List.length_append, List.length_append, List.length_cons] at hlen
  refine ⟨List.length_eq_zero_iff.mp (by omega), ?_, List.length_eq_zero_iff.mp (by omega)⟩
  exact Option.toList_eq_nil_iff.mp (List.length_eq_zero_iff.mp (by omega))

/-- so is a reply on its way -/
theorem of_answers (h : Inv s p) {k : κ} {ks : List κ} (hq : s.answers p q = k :: ks) :
    ks = [] ∧ s.deferred p q = none ∧ s.asked p q = [] := by
  have hlen := h.owed_length q
  unfold owed at hlen
  rw [hq, List.length_append, List.length_append, List.length_cons] at hlen
  refine ⟨List.length_eq_zero_iff.mp (by omega), ?_, List.length_eq_zero_iff.mp (by omega)⟩
  exact Option.toList_eq_nil_iff.mp (List.length_eq_zero_iff.mp (by omega))

theorem start (h : Inv s p) (hfree : s.round p = none) (k : κ) : Inv (s.start p k) p := by
  obtain ⟨hc, ho⟩ := h.free hfree
  constructor
  · intro hn
    rw [start_round, Function.update_self] at hn
    cases hn
  · intro k' pre hk
    rw [start_round, Function.update_self] at hk
    obtain ⟨rfl, rfl⟩ := Prod.mk.inj (Option.some.inj hk)
    refine ⟨[], List.nodup_nil, List.Subset.refl [], hc, fun q => ?_⟩
    rw [if_neg fun hq => absurd hq.1 List.not_mem_nil]
    exact ho q

theorem ask (h : Inv s p) {k : κ} {pre : List ν} (hr : s.round p = some (k, pre)) (hq : q ∉ pre) :
    Inv (s.ask p q k) p := by
  obtain ⟨rs, hnd, hsub, hc, ho⟩ := h.busy k pre hr
  have hround : (s.ask p q k).round p = some (k, pre ++ [q]) := by
    rw [ask_round, Function.update_self, hr]
    rfl
  constructor
  · intro hn
    rw [hround] at hn
    cases hn
  · intro k' pre' hk
    rw [hround] at hk
    obtain ⟨rfl, rfl⟩ := Prod.mk.inj (Option.some.inj hk)
    refine ⟨rs, hnd, fun x hx => List.mem_append_left _ (hsub hx), hc, fun q' => ?_⟩
    by_cases he : q' = q
    · subst he
      have hnone : s.owed p q' = [] := by rw [ho q', if_neg fun hm => hq hm.1]
      have hnew : (s.ask p q' k).owed p q' = s.owed p q' ++ [k] := by
        simp [owed]
      rw [hnew, hnone, if_pos ⟨by simp, fun hm => hq (hsub hm)⟩, List.nil_append]
    · have hsame : (s.ask p q k).owed p q' = s.owed p q' :=
        owed_congr rfl rfl (set_of_ne _ _ fun e => he e.2)
      rw [hsame, ho q']
      simp [he]

theorem answer (h : Inv s p) (q : ν) : Inv (s.answer p q) p := by
  refine h.congr rfl rfl fun q' => ?_
  by_cases he : q' = q
  · subst he
    unfold owed
    rw [answer_asked, answer_answers, answer_deferred, set_self, set_self]
    cases hk : s.asked p q' with
    | nil => simp
    | cons k ks =>
      obtain ⟨h1, h2, h3⟩ := h.of_asked hk
      rw [h1, h2, h3]
      rfl
  · exact owed_congr (set_of_ne _ _ fun e => he e.2) rfl (set_of_ne _ _ fun e => he e.2)

theorem defer (h : Inv s p) (hq : s.asked p q ≠ []) : Inv (s.defer p q) p := by
  refine h.congr rfl rfl fun q' => ?_
  by_cases he : q' = q
  · subst he
    obtain ⟨k, ks, hk⟩ := List.exists_cons_of_ne_nil hq
    obtain ⟨h1, h2, h3⟩ := h.of_asked hk
    unfold owed
    rw [defer_asked, defer_answers, defer_deferred, set_self, set_self, hk, h1, h2, h3]
    rfl
  · exact owed_congr rfl (set_of_ne _ _ fun e => he e.2) (set_of_ne _ _ fun e => he e.2)

theorem settle (h : Inv s p) (q : ν) : Inv (s.settle p q) p := by
  refine h.congr rfl rfl fun q' => ?_
  by_cases he : q' = q
  · subst he
    simp [owed]
  · exact owed_congr (set_of_ne _ _ fun e => he e.2) (set_of_ne _ _ fun e => he e.2) rfl

/-- **A reply counted** is the one that its sender owed. -/
theorem count (h : Inv s p) (hq : s.answers p q ≠ []) : Inv (s.count p q) p := by
  obtain ⟨k', ks, hk⟩ := List.exists_cons_of_ne_nil hq
  obtain ⟨rfl, hd, ha⟩ := h.of_answers hk
  have howed : s.owed p q = [k'] := by
    unfold owed
    rw [hk, hd, ha]
    rfl
  constructor
  · intro hn
    have hnone := (h.free hn).2 q
    rw [howed] at hnone
    cases hnone
  · intro k pre hr
    obtain ⟨rs, hnd, hsub, hc, ho⟩ := h.busy k pre hr
    have hthis := ho q
    rw [howed] at hthis
    split_ifs at hthis with hin
    obtain rfl : k' = k := (List.cons.inj hthis).1
    refine ⟨rs ++ [q], ?_, ?_, ?_, fun q' => ?_⟩
    · exact List.nodup_append.mpr ⟨hnd, List.nodup_singleton q, fun a ha b hb => by
        rintro rfl
        exact hin.2 (List.mem_singleton.mp hb ▸ ha)⟩
    · intro x hx
      rcases List.mem_append.mp hx with hx | hx
      · exact hsub hx
      · exact List.mem_singleton.mp hx ▸ hin.1
    · rw [count_counted, Function.update_self, hc, hk, List.map_append]
      rfl
    · by_cases he : q' = q
      · subst he
        unfold owed
        rw [count_answers, count_deferred, count_asked, set_self, hk, hd, ha,
          if_neg fun hm => hm.2 (by simp)]
        rfl
      · have hsame : (s.count p q).owed p q' = s.owed p q' :=
          owed_congr (set_of_ne _ _ fun e => he e.2) rfl rfl
        rw [hsame, ho q']
        simp [he]

/-- the peers whose replies are counted, when there are as many as were asked -/
theorem all_counted (h : Inv s p) {k : κ} {pre : List ν} (hr : s.round p = some (k, pre))
    (hall : pre.length ≤ (s.counted p).length) :
    (∀ q ∈ pre, (q, k) ∈ s.counted p) ∧ ∀ q, s.owed p q = [] := by
  obtain ⟨rs, hnd, hsub, hc, ho⟩ := h.busy k pre hr
  have hlen : pre.length ≤ rs.length := by
    rw [hc, List.length_map] at hall
    exact hall
  have hperm : rs.Perm pre := (hnd.subperm hsub).perm_of_length_le hlen
  constructor
  · intro q hq
    rw [hc]
    exact List.mem_map.mpr ⟨q, hperm.mem_iff.mpr hq, rfl⟩
  · intro q
    rw [ho q, if_neg fun hm => hm.2 (hperm.mem_iff.mpr hm.1)]

/-- **Consent**: when as many replies are counted as peers were asked, each of them has replied to
the request of this round. -/
theorem consent (h : Inv s p) {k : κ} {pre : List ν} (hr : s.round p = some (k, pre))
    (hall : pre.length ≤ (s.counted p).length) : ∀ q ∈ pre, (q, k) ∈ s.counted p :=
  (h.all_counted hr hall).1

theorem finish (h : Inv s p) {k : κ} {pre : List ν} (hr : s.round p = some (k, pre))
    (hall : pre.length ≤ (s.counted p).length) : Inv (s.finish p) p := by
  constructor
  · intro _
    refine ⟨?_, (h.all_counted hr hall).2⟩
    exact Function.update_self p [] s.counted
  · intro k' pre' hk
    rw [finish_round, Function.update_self] at hk
    cases hk

end Inv

/-! ## the other nodes -/

section frame
variable {s : State ν κ} {p p' : ν} (hne : p' ≠ p)
include hne

theorem Inv.start_ne (h : Inv s p') (k : κ) : Inv (s.start p k) p' :=
  h.congr (Function.update_of_ne hne _ _) rfl fun _ => rfl

theorem Inv.finish_ne (h : Inv s p') : Inv (s.finish p) p' :=
  h.congr (Function.update_of_ne hne _ _) (Function.update_of_ne hne _ _) fun _ => rfl

theorem Inv.ask_ne (h : Inv s p') (q : ν) (k : κ) : Inv (s.ask p q k) p' :=
  h.congr (Function.update_of_ne hne _ _) rfl fun q' =>
    owed_congr rfl rfl (set_row _ _ hne q q')

theorem Inv.answer_ne (h : Inv s p') (q : ν) : Inv (s.answer p q) p' :=
  h.congr rfl rfl fun q' =>
    owed_congr (set_row _ _ hne q q') rfl (set_row _ _ hne q q')

theorem Inv.defer_ne (h : Inv s p') (q : ν) : Inv (s.defer p q) p' :=
  h.congr rfl rfl fun q' =>
    owed_congr rfl (set_row _ _ hne q q') (set_row _ _ hne q q')

theorem Inv.settle_ne (h : Inv s p') (q : ν) : Inv (s.settle p q) p' :=
  h.congr rfl rfl fun q' =>
    owed_congr (set_row _ _ hne q q') (set_row _ _ hne q q') rfl

theorem Inv.count_ne (h : Inv s p') (q : ν) : Inv (s.count p q) p' :=
  h.congr rfl (Function.update_of_ne hne _ _) fun q' =>
    owed_congr (set_row _ _ hne q q') rfl rfl

end frame

/-! ## all nodes -/

/-- the invariant of every node -/
def All (s : State ν κ) : Prop := ∀ p, Inv s p

namespace All
variable {s : State ν κ} {p q : ν} (h : All s)
include h

theorem start (hfree : s.round p = none) (k : κ) : All (s.start p k) := by
  intro p'
  by_cases hp : p' = p
  · subst hp
    exact (h p').start hfree k
  · exact (h p').start_ne hp k

theorem ask {k : κ} {pre : List ν} (hr : s.round p = some (k, pre)) (hq : q ∉ pre) :
    All (s.ask p q k) := by
  intro p'
  by_cases hp : p' = p
  · subst hp
    exact (h p').ask hr hq
  · exact (h p').ask_ne hp q k

theorem answer (p q : ν) : All (s.answer p q) := by
  intro p'
  by_cases hp : p' = p
  · subst hp
    exact (h p').answer q
  · exact (h p').answer_ne hp q

theorem defer (hq : s.asked p q ≠ []) : All (s.defer p q) := by
  intro p'
  by_cases hp : p' = p
  · subst hp
    exact (h p').defer hq
  · exact (h p').defer_ne hp q

theorem settle (p q : ν) : All (s.settle p q) := by
  intro p'
  by_cases hp : p' = p
  · subst hp
    exact (h p').settle q
  · exact (h p').settle_ne hp q

theorem count (hq : s.answers p q ≠ []) : All (s.count p q) := by
  intro p'
  by_cases hp : p' = p
  · subst hp
    exact (h p').count hq
  · exact (h p').count_ne hp q

theorem finish {k : κ} {pre : List ν} (hr : s.round p = some (k, pre))
    (hall : pre.length ≤ (s.counted p).length) : All (s.finish p) := by
  intro p'
  by_cases hp : p' = p
  · subst hp
    exact (h p').finish hr hall
  · exact (h p').finish_ne hp

end All

end Rounds
