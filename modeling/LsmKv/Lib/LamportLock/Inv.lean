import Mathlib.Algebra.Order.BigOperators.Group.Finset
import LsmKv.Lib.LamportLock

/-!
# What holds in every state of the lock

* `Settled`      a request of another node that comes before is known, or not yet under way;
* `Split`        a queue is made of dead entries, one for each release under way to it, and behind
                 them of requests that are alive;
* `Account`      the replies that have come, and those to come, are one from each peer;
* `Inv`          the invariant: each request is unsent, under way or queued at each peer, all that
                 come before a thread with all its answers are in its queue, and the request of a
                 critical section comes before all others;
* `Inv.exclusive`   at most one thread is in its critical section.
-/

set_option linter.unusedSectionVars false

namespace LamportLock

open State SortedQueue

variable {ν τ : Type*} [DecidableEq ν] [Fintype ν] [Fintype τ] {net : Net ν} {s s' : State ν τ}

/-- the messages of a kind in a channel, and one that is still to be given to it -/
def wait (s : State ν τ) (p q : ν) : ℕ :=
  (s.chan p q).countP Msg.isRequest + (s.pending q p).toNat + (s.chan q p).count .reply

/-- the releases of `p` that have still to take an entry from the queue of `n` -/
def owing (net : Net ν) (s : State ν τ) (p n : ν) : ℕ :=
  (s.chan p n).countP Msg.isRelease + ∑ t, ((s.phase p t).owed (net.peers p)).count n

/-- all releases that have still to take an entry from the queue of `n` -/
def outstanding (net : Net ν) (s : State ν τ) (n : ν) : ℕ := ∑ p, owing net s p n

/-- every request of `q` that comes before `p`'s has been sent to `p`, and is not in `l` -/
def Settled (net : Net ν) (s : State ν τ) (p : ν) (ts : ℕ) (q : ν) (l : List Msg) : Prop :=
  ∀ t' ts', (s.phase q t').live = some ts' → net.rank q ts' < net.rank p ts →
    p ∉ (s.phase q t').unsent (net.peers q) ∧ .request ts' ∉ l

/-- an entry that comes before all requests, those to come included -/
structure Dead (net : Net ν) (s : State ν τ) (x : Rank) : Prop where
  lt : ∀ p t ts, (s.phase p t).live = some ts → x < net.rank p ts
  clock : ∀ p, x.stamp ≤ s.clock p

def Alive (net : Net ν) (s : State ν τ) (x : Rank) : Prop :=
  ∃ p t ts, (s.phase p t).live = some ts ∧ x = net.rank p ts

/-- dead entries, one for each outstanding release, and behind them requests that are alive -/
structure Split (net : Net ν) (s : State ν τ) (n : ν) (dead alive : List Rank) : Prop where
  queue : s.queue n = dead ++ alive
  length : dead.length = outstanding net s n
  dead : ∀ x ∈ dead, Dead net s x
  alive : ∀ x ∈ alive, Alive net s x

/-- the replies that have come, and those to come, make up one from each peer -/
structure Account (net : Net ν) (s : State ν τ) (p : ν) : Prop where
  free : s.mutex p = none → s.replies p = 0 ∧ ∀ q, wait s p q = 0
  held : ∀ t, s.mutex p = some t → ∃ ts l, s.phase p t = .sending ts l ∧
    (∀ q, l.count q + wait s p q ≤ 1) ∧
      s.replies p + ∑ q, (l.count q + wait s p q) = (net.peers p).length

/-- the invariant -/
structure Inv (net : Net ν) (s : State ν τ) : Prop where
  rest : ∀ p t, (s.phase p t).rest <:+ net.peers p
  clock_live : ∀ p t ts, (s.phase p t).live = some ts → ts ≤ s.clock p
  clock_queue : ∀ n, ∀ x ∈ s.queue n, x.stamp ≤ s.clock n
  unique : ∀ p t t' ts, (s.phase p t).live = some ts → (s.phase p t').live = some ts → t = t'
  self : ∀ p, s.chan p p = [] ∧ s.pending p p = false
  request : ∀ p n ts, .request ts ∈ s.chan p n → ∃ t, (s.phase p t).live = some ts
  sorted : ∀ n, (s.queue n).Pairwise (· ≤ ·)
  own : ∀ p t ts, (s.phase p t).live = some ts →
    (s.queue p).count (net.rank p ts) = (s.phase p t).entered.toNat
  placed : ∀ p t ts n, (s.phase p t).live = some ts → n ≠ p →
    ((s.phase p t).unsent (net.peers p)).count n + (s.chan p n).count (.request ts) +
      (s.queue n).count (net.rank p ts) = 1
  split : ∀ n, ∃ dead alive, Split net s n dead alive
  holder : ∀ p t ts l, s.phase p t = .sending ts l → s.mutex p = some t
  account : ∀ p, Account net s p
  cleared : ∀ p t ts l q, s.phase p t = .sending ts l → q ≠ p → q ∉ l → .request ts ∉ s.chan p q →
    s.pending q p = false → Settled net s p ts q ((s.chan q p).rtakeWhile (· ≠ .reply))
  ahead : ∀ p t ts q, (s.phase p t).ahead → (s.phase p t).live = some ts → q ≠ p →
    .request ts ∉ s.chan p q ∧ Settled net s p ts q (s.chan q p)
  inside : ∀ p t ts, (s.phase p t).inside → (s.phase p t).live = some ts →
    (s.queue p).head? = some (net.rank p ts) ∧ ∀ p' t' ts', (s.phase p' t').live = some ts' →
      net.rank p' ts' ≤ net.rank p ts → p' = p ∧ t' = t

/-! ## requests -/

theorem Inv.ne_of_rest (h : Inv net s) (hf : net.Full) {p q : ν} {t : τ}
    (hq : q ∈ (s.phase p t).rest) : q ≠ p :=
  (hf.mem_peers p q).mp ((h.rest p t).subset hq)

theorem Inv.placed_of_stamped (h : Inv net s) (hf : net.Full) {p n : ν} {t : τ} {ts : ℕ}
    (hp : s.phase p t = .stamped ts) : .request ts ∉ s.chan p n ∧ net.rank p ts ∉ s.queue n := by
  rw [← List.count_eq_zero, ← List.count_eq_zero]
  by_cases hn : n = p
  · subst hn
    have ho := h.own n t ts (by rw [hp]; rfl)
    rw [hp] at ho
    exact ⟨by rw [(h.self n).1]; rfl, ho⟩
  · have hpl := h.placed p t ts n (by rw [hp]; rfl) hn
    have hc : (net.peers p).count n = 1 :=
      List.count_eq_one_of_mem (hf.nodup p) ((hf.mem_peers p n).mpr hn)
    rw [hp] at hpl
    simp only [Phase.unsent, hc] at hpl
    omega

theorem Inv.request_of_exit (h : Inv net s) (hf : net.Full) {p n : ν} {t : τ} {ts : ℕ}
    (hp : s.phase p t = .stamped ts ∨ s.phase p t = .critical ts) :
    .request ts ∉ s.chan p n := by
  rcases hp with hp | hp
  · exact (h.placed_of_stamped hf hp).1
  · by_cases hn : n = p
    · rw [hn, (h.self p).1]
      exact List.not_mem_nil
    · exact (h.ahead p t ts n (by rw [hp]; rfl) (by rw [hp]; rfl) hn).1

/-- no queue knows of a later request than its node has made -/
theorem Inv.stamp_le_of_mem (h : Inv net s) (hf : net.Full) {p n : ν} {ts : ℕ}
    (hm : net.rank p ts ∈ s.queue n) : ts ≤ s.clock p := by
  obtain ⟨dead, alive, hd⟩ := h.split n
  rw [hd.queue] at hm
  rcases List.mem_append.mp hm with hm | hm
  · exact (hd.dead _ hm).clock p
  · obtain ⟨p', t', ts', hl, he⟩ := hd.alive _ hm
    obtain ⟨rfl, rfl⟩ := hf.rank_inj.mp he
    exact h.clock_live p t' ts hl

/-- a request that has reached `q` is not later than the clock there -/
theorem Inv.le_clock_of_sent (h : Inv net s) {p q : ν} {t : τ} {ts : ℕ}
    (hl : (s.phase p t).live = some ts) (hq : q ≠ p)
    (hu : q ∉ (s.phase p t).unsent (net.peers p)) (hm : .request ts ∉ s.chan p q) :
    net.rank p ts ∈ s.queue q ∧ ts ≤ s.clock q := by
  have hpl := h.placed p t ts q hl hq
  rw [List.count_eq_zero.mpr hu, List.count_eq_zero.mpr hm] at hpl
  have hpos : 0 < (s.queue q).count (net.rank p ts) := by omega
  have hmem := List.count_pos_iff.mp hpos
  exact ⟨hmem, h.clock_queue q _ hmem⟩

theorem Inv.count_of_ahead (h : Inv net s) {p : ν} {t : τ} {ts : ℕ}
    (ha : (s.phase p t).ahead) (hl : (s.phase p t).live = some ts) (n : ν) :
    (s.queue n).count (net.rank p ts) = 1 := by
  by_cases hn : n = p
  · rw [hn, h.own p t ts hl, Phase.entered_of_ahead ha]
    rfl
  · have hpl := h.placed p t ts n hl hn
    rw [Phase.unsent_of_ahead ha, List.count_eq_zero.mpr (h.ahead p t ts n ha hl hn).1] at hpl
    simpa using hpl

theorem Inv.mem_of_ahead (h : Inv net s) {p : ν} {t : τ} {ts : ℕ}
    (ha : (s.phase p t).ahead) (hl : (s.phase p t).live = some ts) (n : ν) :
    net.rank p ts ∈ s.queue n := by
  have hpos : 0 < (s.queue n).count (net.rank p ts) := by
    rw [h.count_of_ahead ha hl n]
    exact Nat.one_pos
  exact List.count_pos_iff.mp hpos

theorem Inv.le_clock_of_ahead (h : Inv net s) {p : ν} {t : τ} {ts : ℕ}
    (ha : (s.phase p t).ahead) (hl : (s.phase p t).live = some ts) (n : ν) : ts ≤ s.clock n :=
  h.clock_queue n _ (h.mem_of_ahead ha hl n)

/-! ## queues -/

/-- in its critical section a thread's request is at the head, and no entry is dead -/
theorem Inv.queue_of_critical (h : Inv net s) {p : ν} {t : τ} {ts : ℕ}
    (hp : s.phase p t = .critical ts) : ∃ l, s.queue p = net.rank p ts :: l := by
  have hh := (h.inside p t ts (by rw [hp]; rfl) (by rw [hp]; rfl)).1
  cases hq : s.queue p with
  | nil => rw [hq] at hh; cases hh
  | cons x l =>
    rw [hq] at hh
    exact ⟨l, by rw [Option.some.inj hh]⟩

/-- what a release takes from a queue is no request that is alive -/
theorem Inv.tail_of_release (h : Inv net s) {n q : ν} {r : ℕ} {ms : List Msg}
    (hm : s.chan q n = .release r :: ms) : ∃ x dead alive, Split net s n (x :: dead) alive := by
  obtain ⟨dead, alive, hd⟩ := h.split n
  cases dead with
  | cons x dead => exact ⟨x, dead, alive, hd⟩
  | nil =>
    have hlen := hd.length
    have hle := Finset.single_le_sum (fun p _ => Nat.zero_le (owing net s p n))
      (Finset.mem_univ q)
    rw [← outstanding, ← hlen, owing, hm] at hle
    simp [Msg.isRelease] at hle

theorem Split.insert {n : ν} {dead alive : List Rank} {x : Rank}
    (hd : Split net s n dead alive) (hx : Alive net s x) :
    SortedQueue.insert id x (s.queue n) = dead ++ SortedQueue.insert id x alive := by
  obtain ⟨p, t, ts, hl, rfl⟩ := hx
  rw [hd.queue]
  exact insert_append fun y hy => ((hd.dead y hy).lt p t ts hl).le

/-- at the thread in its critical section no entry is dead -/
theorem Split.dead_of_critical {p : ν} {t : τ} {ts : ℕ} {dead alive : List Rank}
    (hd : Split net s p dead alive) (h : Inv net s) (hp : s.phase p t = .critical ts) :
    dead = [] := by
  obtain ⟨l, hq⟩ := h.queue_of_critical hp
  cases dead with
  | nil => rfl
  | cons x dead =>
    have hx : x = net.rank p ts := by
      have he := hq.symm.trans hd.queue
      exact (List.cons.inj he).1.symm
    exact absurd ((hd.dead x (by simp)).lt p t ts (by rw [hp]; rfl)) (by rw [hx]; exact lt_irrefl _)

/-- everywhere the request of the critical section is the first that is alive -/
theorem Split.alive_of_critical {p n : ν} {t : τ} {ts : ℕ} {dead alive : List Rank}
    (hd : Split net s n dead alive) (h : Inv net s) (hp : s.phase p t = .critical ts) :
    ∃ l, alive = net.rank p ts :: l := by
  have hl : (s.phase p t).live = some ts := by rw [hp]; rfl
  have hmem := h.mem_of_ahead (by rw [hp]; rfl) hl n
  rw [hd.queue, List.mem_append] at hmem
  have hmem : net.rank p ts ∈ alive := by
    refine hmem.resolve_left fun hm => ?_
    exact absurd ((hd.dead _ hm).lt p t ts hl) (lt_irrefl _)
  have hsort := h.sorted n
  rw [hd.queue] at hsort
  have hsort := (List.pairwise_append.mp hsort).2.1
  cases alive with
  | nil => cases hmem
  | cons y l =>
    obtain ⟨p', t', ts', hl', rfl⟩ := hd.alive y (by simp)
    have hle : net.rank p' ts' ≤ net.rank p ts := by
      rcases List.mem_cons.mp hmem with he | hm
      · exact he.ge
      · exact (List.pairwise_cons.mp hsort).1 _ hm
    obtain ⟨rfl, rfl⟩ := (h.inside p t ts (by rw [hp]; rfl) hl).2 p' t' ts' hl' hle
    rw [hl] at hl'
    exact ⟨l, by rw [Option.some.inj hl']⟩

/-! ## releases and replies -/

/-- two sums that differ in one term -/
theorem sum_change {ι : Type*} [Fintype ι] [DecidableEq ι] {f g : ι → ℕ} (a : ι)
    (h : ∀ b, b ≠ a → f b = g b) : ∑ b, f b + g a = ∑ b, g b + f a := by
  have hf := Finset.add_sum_erase Finset.univ f (Finset.mem_univ a)
  have hg := Finset.add_sum_erase Finset.univ g (Finset.mem_univ a)
  have he : ∑ b ∈ Finset.univ.erase a, f b = ∑ b ∈ Finset.univ.erase a, g b :=
    Finset.sum_congr rfl fun b hb => h b (Finset.ne_of_mem_erase hb)
  omega

theorem sum_count (l : List ν) : ∑ q, l.count q = l.length := by
  induction l with
  | nil => simp
  | cons a l ih => simp [List.count_cons, Finset.sum_add_distrib, ih]

theorem owing_congr {p n : ν}
    (hc : (s'.chan p n).countP Msg.isRelease = (s.chan p n).countP Msg.isRelease)
    (ho : ∀ t, (s'.phase p t).owed (net.peers p) = (s.phase p t).owed (net.peers p)) :
    owing net s' p n = owing net s p n := by
  unfold owing
  rw [hc]
  simp only [ho]

theorem outstanding_change {n p : ν} (h : ∀ q, q ≠ p → owing net s' q n = owing net s q n) :
    outstanding net s' n + owing net s p n = outstanding net s n + owing net s' p n :=
  sum_change p h

/-- at most one request, or its answer, is under way to a peer -/
theorem Account.wait_le {p : ν} (ha : Account net s p) (q : ν) : wait s p q ≤ 1 := by
  cases hm : s.mutex p with
  | none => rw [(ha.free hm).2 q]; exact Nat.zero_le _
  | some t =>
    obtain ⟨ts, l, -, hle, -⟩ := ha.held t hm
    have := hle q
    omega

theorem Account.frame {p : ν} (ha : Account net s p) (hm : s'.mutex p = s.mutex p)
    (hr : s'.replies p = s.replies p) (hw : ∀ q, wait s' p q = wait s p q)
    (hp : ∀ t ts l, s.phase p t = .sending ts l → s'.phase p t = .sending ts l) :
    Account net s' p where
  free hn := by
    obtain ⟨h0, hz⟩ := ha.free (hm ▸ hn)
    exact ⟨hr.trans h0, fun q => (hw q).trans (hz q)⟩
  held t ht := by
    obtain ⟨ts, l, hs, hle, hsum⟩ := ha.held t (hm ▸ ht)
    refine ⟨ts, l, hp t ts l hs, fun q => ?_, ?_⟩
    · rw [hw]
      exact hle q
    · simp only [hr, hw]
      exact hsum

/-! ## the critical section -/

/-- **Entering.**  The thread at the head of its own queue comes before all others. -/
theorem inside_of_enter (h : Inv net s) {p : ν} {t : τ} {ts : ℕ}
    (hp : s.phase p t = .heading ts) (hh : (s.queue p).head? = some (net.rank p ts))
    (hg : ∀ t' ts', s.phase p t' = .stamped ts' → ¬ ts' < ts) {p' : ν} {t' : τ} {ts' : ℕ}
    (hl' : (s.phase p' t').live = some ts') (hle : net.rank p' ts' ≤ net.rank p ts)
    (hf : net.Full) : p' = p ∧ t' = t := by
  have hl : (s.phase p t).live = some ts := by rw [hp]; rfl
  -- whatever is in the queue is not before the head
  have hfirst : net.rank p' ts' ∈ s.queue p → net.rank p' ts' = net.rank p ts := by
    intro hm
    have hs := h.sorted p
    cases hq : s.queue p with
    | nil => rw [hq] at hm; cases hm
    | cons x l =>
      rw [hq] at hs hh hm
      obtain rfl := Option.some.inj hh
      rcases List.mem_cons.mp hm with he | hm
      · exact he
      · exact le_antisymm hle ((List.pairwise_cons.mp hs).1 _ hm)
  have hmem : net.rank p' ts' ∈ s.queue p ∨ p' = p ∧ t' = t := by
    by_cases hpp : p' = p
    · subst hpp
      have ho := h.own p' t' ts' hl'
      cases he : (s.phase p' t').entered with
      | true =>
        rw [he] at ho
        exact Or.inl (List.count_pos_iff.mp (by rw [ho]; exact Nat.one_pos))
      | false =>
        -- a request that is not in the queue of its own node has just been stamped
        have hst := Phase.stamped_of_live hl' he
        have hts : ts' = ts := by
          rcases hle.lt_or_eq with hlt | heq
          · exact absurd (net.rank_lt_rank.mp hlt) (hg t' ts' hst)
          · exact (hf.rank_inj.mp heq).2
        subst hts
        exact Or.inr ⟨rfl, h.unique p' t' t ts' hl' hl⟩
    · rcases hle.lt_or_eq with hlt | heq
      · have hs := (h.ahead p t ts p' (by rw [hp]; rfl) hl hpp).2 t' ts' hl' hlt
        exact Or.inl (h.le_clock_of_sent hl' (Ne.symm hpp) hs.1 hs.2).1
      · exact absurd (hf.rank_inj.mp heq).1 hpp
  rcases hmem with hm | he
  · obtain ⟨rfl, rfl⟩ := hf.rank_inj.mp (hfirst hm)
    exact ⟨rfl, h.unique p' t' t ts' hl' hl⟩
  · exact he

/-- **Mutual exclusion.** -/
theorem Inv.exclusive (h : Inv net s) {p : ν} {t : τ} {p' : ν} {t' : τ}
    (hp : (s.phase p t).inside) (hp' : (s.phase p' t').inside) : p' = p ∧ t' = t := by
  obtain ⟨ts, hl⟩ := Phase.live_of_ahead (Phase.ahead_of_inside hp)
  obtain ⟨ts', hl'⟩ := Phase.live_of_ahead (Phase.ahead_of_inside hp')
  rcases le_total (net.rank p' ts') (net.rank p ts) with hle | hle
  · exact (h.inside p t ts hp hl).2 p' t' ts' hl' hle
  · obtain ⟨rfl, rfl⟩ := (h.inside p' t' ts' hp' hl').2 p t ts hl hle
    exact ⟨rfl, rfl⟩

end LamportLock
