import LsmKv.Lib.LamportLock.Inv

/-!
# Where the lock comes to rest

* `Quiet`              no message is under way, and no thread can go on by itself;
* `Defers`             a node keeps a reply back only while an earlier request of its own waits;
* `Inv.idle_of_quiet`  then the lock is held, or nobody asks for it.
-/

namespace LamportLock

open State

variable {ν τ : Type*} {net : Net ν} {s : State ν τ}

/-- a thread that may have to wait -/
def Phase.Rests : Phase ν → Prop
  | .idle | .queued _ | .sending _ [] | .heading _ | .critical _ => True
  | .stamped _ | .sending _ (_ :: _) | .writing _ _ _ | .dequeued _ | .releasing _ _ _ => False

structure Quiet (net : Net ν) (s : State ν τ) : Prop where
  chan : ∀ p q, s.chan p q = []
  rests : ∀ p t, (s.phase p t).Rests
  mutex : ∀ p t ts, s.phase p t = .queued ts → s.mutex p ≠ none
  replies : ∀ p t ts, s.phase p t = .sending ts [] → s.replies p < (net.peers p).length
  head : ∀ p t ts, s.phase p t = .heading ts → (s.queue p).head? ≠ some (net.rank p ts)

/-- A reply is kept back for an earlier request of the own node that waits for replies itself. -/
def Defers (net : Net ν) (s : State ν τ) : Prop :=
  ∀ n p t ts l, s.pending n p = true → s.phase p t = .sending ts l →
    ∃ t' ts' l', s.phase n t' = .sending ts' l' ∧ net.rank n ts' < net.rank p ts

theorem Quiet.sending (hq : Quiet net s) {p : ν} {t : τ} {ts : ℕ} {l : List ν}
    (h : s.phase p t = .sending ts l) : l = [] := by
  have hr := hq.rests p t
  rw [h] at hr
  cases l with
  | nil => rfl
  | cons q l => exact hr.elim

variable [DecidableEq ν] [Fintype ν] [Fintype τ]

/-- a thread that waits for replies waits for one that is kept back -/
theorem Quiet.pending (hq : Quiet net s) (h : Inv net s) {p : ν} {t : τ} {ts : ℕ} {l : List ν}
    (hp : s.phase p t = .sending ts l) : ∃ n, s.pending n p = true := by
  obtain ⟨ts', l', hp', -, hsum⟩ := (h.account p).held t (h.holder p t ts l hp)
  obtain rfl := hq.sending hp'
  have hlt := hq.replies p t ts' hp'
  have hne : ∑ q, (([] : List ν).count q + wait s p q) ≠ 0 := by omega
  obtain ⟨n, -, hn⟩ := Finset.exists_ne_zero_of_sum_ne_zero hne
  refine ⟨n, ?_⟩
  rw [List.count_nil, wait, hq.chan, hq.chan] at hn
  cases hpend : s.pending n p with
  | true => rfl
  | false => rw [hpend] at hn; exact absurd rfl hn

/-- **No thread waits for replies**: whoever keeps one back waits with an earlier request. -/
theorem Quiet.no_sending (hq : Quiet net s) (h : Inv net s) (hd : Defers net s) (x : Rank) :
    ∀ p t ts l, net.rank p ts = x → s.phase p t ≠ .sending ts l := by
  induction x using WellFoundedLT.induction with
  | ind x ih =>
    intro p t ts l hx hp
    obtain ⟨n, hn⟩ := hq.pending h hp
    obtain ⟨t', ts', l', hp', hlt⟩ := hd n p t ts l hn hp
    exact ih _ (hx ▸ hlt) n t' ts' l' rfl hp'

theorem Quiet.no_queued (hq : Quiet net s) (h : Inv net s) (hd : Defers net s) {p : ν} {t : τ}
    {ts : ℕ} : s.phase p t ≠ .queued ts := by
  intro hp
  obtain ⟨t', ht'⟩ := Option.ne_none_iff_exists'.mp (hq.mutex p t ts hp)
  obtain ⟨ts', l, hp', -⟩ := (h.account p).held t' ht'
  exact hq.no_sending h hd _ p t' ts' l rfl hp'

/-- with nobody in a critical section all requests are at the head -/
theorem Quiet.heading (hq : Quiet net s) (h : Inv net s) (hd : Defers net s)
    (hfree : ∀ p t ts, s.phase p t ≠ .critical ts) {p : ν} {t : τ} {ts : ℕ}
    (hl : (s.phase p t).live = some ts) : s.phase p t = .heading ts := by
  have hr := hq.rests p t
  cases hp : s.phase p t with
  | idle => rw [hp] at hl; cases hl
  | queued ts' => exact absurd hp (hq.no_queued h hd)
  | sending ts' l => exact absurd hp (hq.no_sending h hd _ p t ts' l rfl)
  | critical ts' => exact absurd hp (hfree p t ts')
  | heading ts' =>
    rw [hp] at hl
    rw [Option.some.inj hl]
  | stamped ts' => rw [hp] at hr; exact hr.elim
  | writing ts' w l => rw [hp] at hr; exact hr.elim
  | dequeued ts' => rw [hp] at hr; exact hr.elim
  | releasing ts' r l => rw [hp] at hr; exact hr.elim

/-- no release is outstanding, so what is queued is alive -/
theorem Quiet.alive (hq : Quiet net s) (h : Inv net s) {n : ν} {x : Rank} (hx : x ∈ s.queue n) :
    Alive net s x := by
  obtain ⟨dead, alive, hs⟩ := h.split n
  have hzero : outstanding net s n = 0 := by
    refine Finset.sum_eq_zero fun p _ => ?_
    rw [owing, hq.chan, List.countP_nil, Nat.zero_add]
    refine Finset.sum_eq_zero fun t _ => ?_
    have hr := hq.rests p t
    cases hp : s.phase p t with
    | dequeued ts => rw [hp] at hr; exact hr.elim
    | releasing ts r l => rw [hp] at hr; exact hr.elim
    | _ => exact List.count_nil
  have hdead : dead = [] := List.length_eq_zero_iff.mp (hs.length.trans hzero)
  rw [hs.queue, hdead, List.nil_append] at hx
  exact hs.alive x hx

/-- **The lock does not block**: the first of all requests is at the head of its own queue. -/
theorem Quiet.no_heading (hq : Quiet net s) (h : Inv net s) (hd : Defers net s)
    (hfree : ∀ p t ts, s.phase p t ≠ .critical ts) (x : Rank) :
    ∀ p t ts, net.rank p ts = x → s.phase p t ≠ .heading ts := by
  induction x using WellFoundedLT.induction with
  | ind x ih =>
    intro p t ts hx hp
    have hlive : (s.phase p t).live = some ts := by rw [hp]; rfl
    have hmem : net.rank p ts ∈ s.queue p := by
      have hown := h.own p t ts hlive
      rw [hp] at hown
      exact List.count_pos_iff.mp (by rw [hown]; exact Nat.one_pos)
    cases hqueue : s.queue p with
    | nil => rw [hqueue] at hmem; cases hmem
    | cons y l =>
      have hy : y ∈ s.queue p := by rw [hqueue]; exact List.mem_cons_self
      have hne : y ≠ net.rank p ts := by
        intro he
        refine hq.head p t ts hp ?_
        rw [hqueue, he]
        rfl
      have hsorted := h.sorted p
      rw [hqueue] at hmem hsorted
      have hin := (List.mem_cons.mp hmem).resolve_left hne.symm
      have hle := (List.pairwise_cons.mp hsorted).1 _ hin
      -- the head is a request that is earlier and waits as well
      obtain ⟨p', t', ts', hlive', rfl⟩ := hq.alive h hy
      exact ih _ (hx ▸ lt_of_le_of_ne hle hne) p' t' ts' rfl (hq.heading h hd hfree hlive')

/-- **At rest the lock is held, or all threads are idle.** -/
theorem Inv.idle_of_quiet (h : Inv net s) (hq : Quiet net s) (hd : Defers net s)
    (hfree : ∀ p t ts, s.phase p t ≠ .critical ts) (p : ν) (t : τ) : s.phase p t = .idle := by
  cases hl : (s.phase p t).live with
  | some ts => exact absurd (hq.heading h hd hfree hl) (hq.no_heading h hd hfree _ p t ts rfl)
  | none =>
    have hr := hq.rests p t
    cases hp : s.phase p t with
    | idle => rfl
    | dequeued ts => rw [hp] at hr; exact hr.elim
    | releasing ts r l => rw [hp] at hr; exact hr.elim
    | _ => rw [hp] at hl; cases hl

end LamportLock
