import LsmKv.Lib.LamportLock.Exclusion

/-!
# One thread at each node

A release takes the first request from a queue, whosever it is.  With one thread at each node,
and if a release or a write never overtakes a release with an earlier stamp on its way to the
same node, the first request is the one of the sender.

* `Out`                a release that has still to reach a node;
* `Timely`             the condition on the deliveries of releases and writes;
* `First`              the request of a node comes first in a queue, but for the requests of
                       nodes whose releases are out;
* `Traffic`, `Order`   the invariant of runs whose deliveries are timely;
* `Order.head`         **the first request is the one of the sender**;
* `order_step`, `order_init`   every step keeps the invariant.
-/

set_option linter.unusedSectionVars false

namespace LamportLock

open State SortedQueue

/-- the number of the node of a rank -/
def Rank.number (x : Rank) : ℕ := (ofLex x).2

/-- a message that a thread sends from its critical section on -/
@[simp, grind] def Msg.isHeld : Msg → Bool
  | .write _ | .release _ => true
  | .request _ | .reply => false

/-- the stamp of the write or the release at hand, and the peers it has still to be sent to -/
@[simp, grind] def Phase.held {ν : Type*} : Phase ν → Option (ℕ × List ν)
  | .writing _ w rest => some (w, rest)
  | .releasing _ r rest => some (r, rest)
  | .idle | .stamped _ | .queued _ | .sending _ _ | .heading _ | .critical _ | .dequeued _ => none

/-- between the removal of the request and the stamp of the release -/
@[simp, grind] def Phase.leaving {ν : Type*} : Phase ν → Bool
  | .dequeued _ => true
  | .idle | .stamped _ | .queued _ | .sending _ _ | .heading _ | .critical _ | .writing _ _ _
  | .releasing _ _ _ => false

variable {ν τ : Type*} [DecidableEq ν] [DecidableEq τ] [Fintype ν] [Fintype τ] {net : Net ν}
  {s s' : State ν τ}

/-- the release of `p` with stamp `r` has still to reach `n` -/
def Out (s : State ν τ) (p n : ν) (r : ℕ) : Prop :=
  .release r ∈ s.chan p n ∨ ∃ t ts rest, s.phase p t = .releasing ts r rest ∧ n ∈ rest

/-- `p` has a write or a release with stamp `m` that has still to reach `n` -/
def Sent (s : State ν τ) (p n : ν) (m : ℕ) : Prop :=
  .write m ∈ s.chan p n ∨ .release m ∈ s.chan p n ∨
    ∃ t rest, (s.phase p t).held = some (m, rest) ∧ n ∈ rest

/-- no release of another node with a stamp up to `m` has still to reach `n` -/
def Timely (s : State ν τ) (n p : ν) (m : ℕ) : Prop :=
  ∀ q, q ≠ p → ∀ r, Out s q n r → m < r

/-- no request that is alive, or still to come, is before `x` -/
structure Lead (net : Net ν) (s : State ν τ) (x : Rank) : Prop where
  le : ∀ p t ts, (s.phase p t).live = some ts → x ≤ net.rank p ts
  clock : ∀ p, x.stamp ≤ s.clock p

/-- In the queue of `n` stand, before a request of `p`, only those of nodes whose releases have a
stamp up to `m` and have still to reach `n`. -/
def First (net : Net ν) (s : State ν τ) (p n : ν) (m : ℕ) : Prop :=
  ∃ l x l', s.queue n = l ++ x :: l' ∧ x.number = net.number p ∧ Lead net s x ∧
    ∀ y ∈ l, ∃ q r, q ≠ p ∧ y.number = net.number q ∧ Out s q n r ∧ r ≤ m

/-- no write and no release is behind a request or a release -/
def InOrder (l : List Msg) : Prop :=
  l.Pairwise fun a b => a.isRequest ∨ a.isRelease → b.isHeld = false

/-- requests and releases: what their receivers have heard of a node -/
structure Traffic (net : Net ν) (s : State ν τ) : Prop where
  fifo : ∀ p n, InOrder (s.chan p n)
  heard : ∀ p t ts n, (s.phase p t).live = some ts → net.rank p ts ∈ s.queue n →
    owing net s p n = 0
  once : ∀ p n, owing net s p n ≤ 1
  stamp : ∀ p n n' r r', Out s p n r → Out s p n' r' → r = r'
  passed : ∀ p n q r, Out s p n r → q ≠ p → owing net s p q = 0 → r ≤ s.clock q
  owner : ∀ n, ∀ x ∈ s.queue n, ∃ p, x.number = net.number p ∧
    ((∃ t ts, (s.phase p t).live = some ts ∧ x = net.rank p ts) ∨ 0 < owing net s p n)

/-- the invariant of one thread a node -/
structure Order (net : Net ν) (s : State ν τ) : Prop extends Traffic net s where
  single : ∀ p n, (s.queue n).countP (·.number = net.number p) ≤ 1
  sent : ∀ p n m, Sent s p n m → First net s p n m
  holder : ∀ p t n, (s.phase p t).inside ∨ (s.phase p t).leaving → n ≠ p →
    First net s p n (s.clock p)

/-! ## what is under way -/

section single
variable [Subsingleton τ]

theorem owing_eq (t : τ) (p n : ν) : owing net s p n =
    (s.chan p n).countP Msg.isRelease + ((s.phase p t).owed (net.peers p)).count n := by
  unfold owing
  rw [Fintype.sum_subsingleton _ t]

theorem out_of_owing {p n : ν} (h : 0 < owing net s p n)
    (hp : ∀ t, (s.phase p t).leaving = false) : ∃ r, Out s p n r := by
  unfold owing at h
  rcases Nat.eq_zero_or_pos ((s.chan p n).countP Msg.isRelease) with h0 | hpos
  · rw [h0, Nat.zero_add] at h
    obtain ⟨t, -, ht⟩ := Finset.exists_ne_zero_of_sum_ne_zero h.ne'
    have hmem := List.count_pos_iff.mp (Nat.pos_of_ne_zero ht)
    cases hph : s.phase p t with
    | releasing ts r rest =>
      rw [hph] at hmem
      exact ⟨r, Or.inr ⟨t, ts, rest, hph, hmem⟩⟩
    | dequeued ts =>
      have := hp t
      rw [hph] at this
      cases this
    | _ => rw [hph] at hmem; cases hmem
  · obtain ⟨m, hm, hr⟩ := List.countP_pos_iff.mp hpos
    cases m with
    | release r => exact ⟨r, Or.inl hm⟩
    | _ => cases hr

end single

/-! ## what one step changes -/

section steps
variable {ok : State ν τ → ν → ν → ℕ → Prop}

theorem out_self (hf : net.Full) (h : Inv net s) (p : ν) (r : ℕ) : ¬ Out s p p r := by
  rintro (hm | ⟨t, ts, rest, hp, hn⟩)
  · rw [(h.self p).1] at hm
    cases hm
  · exact h.ne_of_rest hf (p := p) (t := t) (by rw [hp]; exact hn) rfl

theorem step_owing (hf : net.Full) (st : Step net ok s s') (p n : ν) :
    owing net s' p n = owing net s p n ∨
      (∃ t ts, s.phase p t = .critical ts ∧ n ≠ p ∧
        s' = (s.setQueue p (s.queue p).tail).setPhase p t (.dequeued ts) ∧
          owing net s' p n = owing net s p n + 1) ∨
      ∃ r ms, s.chan p n = .release r :: ms ∧ r ≤ s.clock n ∧ ok s n p r ∧
        s' = (s.pop p n).setQueue n (s.queue n).tail ∧
          owing net s' p n + 1 = owing net s p n := by
  cases st with
  | @unlock p' t ts hp =>
    by_cases hpp : p' = p
    · subst hpp
      have hset : owing net _ p' n + _ = owing net _ p' n + _ :=
        owing_setPhase (s.setQueue p' (s.queue p').tail) p' n t (.dequeued ts)
      rw [setQueue_phase, hp] at hset
      have hq : owing net (s.setQueue p' (s.queue p').tail) p' n = owing net s p' n := rfl
      simp only [Phase.owed, List.count_nil, Nat.add_zero] at hset
      by_cases hn : n = p'
      · have hzero : (net.peers p').count n = 0 :=
          List.count_eq_zero.mpr fun hm => (hf.mem_peers p' n).mp hm hn
        exact Or.inl (by omega)
      · have hone : (net.peers p').count n = 1 :=
          List.count_eq_one_of_mem (hf.nodup p') ((hf.mem_peers p' n).mpr hn)
        exact Or.inr (Or.inl ⟨t, ts, hp, hn, rfl, by omega⟩)
    · exact Or.inl (owing_congr rfl fun t' => by grind)
  | sendRelease hp => exact Or.inl (owing_sendRelease hp p n)
  | @deliverRelease n' p' r ms hm hc hok =>
    by_cases he : p' = p ∧ n' = n
    · obtain ⟨rfl, rfl⟩ := he
      refine Or.inr (Or.inr ⟨r, ms, hm, hc, hok, rfl, ?_⟩)
      unfold owing
      grind
    · exact Or.inl (owing_congr (by grind) fun t' => rfl)
  | _ => exact Or.inl (owing_congr (by grind) fun t' => by grind)

/-- a release is new, or it has been out -/
theorem out_of_step (hf : net.Full) (st : Step net ok s s') {p n : ν} {r : ℕ}
    (ho : Out s' p n r) : Out s p n r ∨ ∃ t ts, s.phase p t = .dequeued ts ∧ s.clock p ≤ r ∧
      n ≠ p ∧ s' = (s.setClock p r).setPhase p t (.releasing ts r (net.peers p)) := by
  unfold Out at ho ⊢
  have hmem := hf.mem_peers p n
  cases st <;> grind

/-- a release stays out until it reaches the node -/
theorem Out.step (st : Step net ok s s') {p n : ν} {r : ℕ} (ho : Out s p n r) :
    Out s' p n r ∨ ∃ r' ms, s.chan p n = .release r' :: ms ∧ ok s n p r' ∧
      s' = (s.pop p n).setQueue n (s.queue n).tail := by
  rcases ho with hm | ⟨t, ts, rest, hp, hn⟩
  · have hc : .release r ∈ s'.chan p n ∨ ∃ r' ms, s.chan p n = .release r' :: ms ∧
        ok s n p r' ∧ s' = (s.pop p n).setQueue n (s.queue n).tail := by
      cases st <;> grind
    exact hc.imp_left Or.inl
  · have hc : s'.phase p t = .releasing ts r rest ∨ ∃ q rest', rest = q :: rest' ∧
        s'.phase p t = .releasing ts r rest' ∧ .release r ∈ s'.chan p q := by
      cases st <;> grind
    rcases hc with hp' | ⟨q, rest', rfl, hp', hm⟩
    · exact Or.inl (Or.inr ⟨t, ts, rest, hp', hn⟩)
    · rcases List.mem_cons.mp hn with rfl | hn
      · exact Or.inl (Or.inl hm)
      · exact Or.inl (Or.inr ⟨t, ts, rest', hp', hn⟩)

/-- no release is behind a request on its way, and none is under way to the own node -/
theorem Order.owing_of_request [Subsingleton τ] (o : Order net s) {p n : ν} {t : τ} {ts : ℕ}
    {ms : List Msg} (hl : (s.phase p t).live = some ts) (hm : s.chan p n = .request ts :: ms) :
    owing net s p n = 0 := by
  have hfifo := o.fifo p n
  rw [hm] at hfifo
  have hms : ms.countP Msg.isRelease = 0 := by
    refine List.countP_eq_zero.mpr fun m hm' hr => ?_
    have hh := (List.pairwise_cons.mp hfifo).1 m hm' (Or.inl rfl)
    cases m <;> simp_all
  have howed : (s.phase p t).owed (net.peers p) = [] := by
    cases hp : s.phase p t <;> simp_all
  rw [owing_eq t, hm, howed, List.countP_cons, hms]
  rfl

theorem owing_self (hf : net.Full) (h : Inv net s) (p : ν) : owing net s p p = 0 := by
  unfold owing
  rw [(h.self p).1]
  refine (Nat.zero_add _).trans (Finset.sum_eq_zero fun t _ => List.count_eq_zero.mpr fun hm => ?_)
  have hrest := h.ne_of_rest hf (p := p) (q := p) (t := t)
  have hmem := hf.mem_peers p p
  cases hp : s.phase p t <;> simp_all

/-- a queue is as it was, or has a request that was not there, or has lost its first -/
theorem step_queue [Subsingleton τ] (hf : net.Full) (h : Inv net s) (o : Order net s)
    (st : Step net ok s s') (n : ν) :
    s'.queue n = s.queue n ∨
      (∃ p t ts, (s.phase p t).live = some ts ∧ (s'.phase p t).live = some ts ∧
        net.rank p ts ∉ s.queue n ∧ owing net s p n = 0 ∧
        s'.queue n = SortedQueue.insert id (net.rank p ts) (s.queue n)) ∨
      (∃ t ts, s.phase n t = .critical ts ∧
        s' = (s.setQueue n (s.queue n).tail).setPhase n t (.dequeued ts)) ∨
      ∃ p r ms, s.chan p n = .release r :: ms ∧ ok s n p r ∧
        s' = (s.pop p n).setQueue n (s.queue n).tail := by
  cases st with
  | @enqueue p t ts hp =>
    by_cases hn : n = p
    · subst hn
      refine Or.inr (Or.inl ⟨n, t, ts, by rw [hp]; rfl, by grind, ?_, owing_self hf h n, by grind⟩)
      exact (h.placed_of_stamped hf hp).2
    · exact Or.inl (by grind)
  | @deliverRequest n' p ts ms hm =>
    by_cases hn : n = n'
    · subst hn
      obtain ⟨t, hl⟩ := h.request p n ts (by rw [hm]; exact List.mem_cons_self)
      refine Or.inr (Or.inl ⟨p, t, ts, hl, hl, fun hq => ?_, o.owing_of_request hl hm, by grind⟩)
      have hne : n ≠ p := by
        rintro rfl
        rw [(h.self n).1] at hm
        cases hm
      have hpl := h.placed p t ts n hl hne
      have hpos := List.count_pos_iff.mpr hq
      rw [hm, List.count_cons_self] at hpl
      omega
    · exact Or.inl (by grind)
  | @unlock p t ts hp =>
    by_cases hn : n = p
    · subst hn
      exact Or.inr (Or.inr (Or.inl ⟨t, ts, hp, rfl⟩))
    · exact Or.inl (by grind)
  | @deliverRelease n' p r ms hm hc hok =>
    by_cases hn : n = n'
    · subst hn
      exact Or.inr (Or.inr (Or.inr ⟨p, r, ms, hm, hok, rfl⟩))
    · exact Or.inl (by grind)
  | _ => exact Or.inl rfl

theorem Lead.step {x : Rank} (hx : Lead net s x) (st : Step net ok s s') : Lead net s' x where
  le p t ts hl := by
    rcases st.live hl with hl | ⟨-, -, hc, -⟩
    · exact hx.le p t ts hl
    · exact (net.lt_rank_of_stamp ((hx.clock p).trans_lt hc)).le
  clock p := (hx.clock p).trans (st.clock_le p)

end steps

/-! ## the first request -/

section first
variable [Subsingleton τ]

theorem First.mono {p n : ν} {m m' : ℕ} (hfst : First net s p n m) (hm : m ≤ m') :
    First net s p n m' := by
  obtain ⟨l, x, l', hq, hx, hlead, hl⟩ := hfst
  refine ⟨l, x, l', hq, hx, hlead, fun y hy => ?_⟩
  obtain ⟨q, r, hqp, hyq, ho, hr⟩ := hl y hy
  exact ⟨q, r, hqp, hyq, ho, hr.trans hm⟩

/-- **The first request is the one of the sender** of a write or a release that comes in time. -/
theorem Order.head (o : Order net s) {p n : ν} {m : ℕ} (hs : Sent s p n m)
    (ht : Timely s n p m) : ∃ x l, s.queue n = x :: l ∧ x.number = net.number p := by
  obtain ⟨l, x, l', hq, hx, -, hl⟩ := o.sent p n m hs
  cases l with
  | nil => exact ⟨x, l', hq, hx⟩
  | cons y l =>
    obtain ⟨q, r, hqp, -, ho, hr⟩ := hl y List.mem_cons_self
    exact absurd hr (Nat.not_le.mpr (ht q hqp r ho))

/-- a thread in its critical section, or with a write or a release at hand for `n`, has no release
on its way to `n` -/
theorem Order.release_notMem (hf : net.Full) (h : Inv net s) (o : Order net s) {p n : ν} {t : τ}
    (hp : (s.phase p t).inside ∨ (s.phase p t).leaving ∨
      ∃ m rest, (s.phase p t).held = some (m, rest) ∧ n ∈ rest) (hne : n ≠ p) (r : ℕ) :
    .release r ∉ s.chan p n := by
  intro hm
  have hpos : 0 < (s.chan p n).countP Msg.isRelease := List.countP_pos_iff.mpr ⟨_, hm, rfl⟩
  have hin : (s.phase p t).inside = false := by
    by_contra hin
    rw [Bool.not_eq_false] at hin
    obtain ⟨ts, hl⟩ := Phase.live_of_ahead (Phase.ahead_of_inside hin)
    have h0 := o.heard p t ts n hl (h.mem_of_ahead (Phase.ahead_of_inside hin) hl n)
    rw [owing_eq t] at h0
    omega
  have howed : n ∈ (s.phase p t).owed (net.peers p) := by
    have hmem := (hf.mem_peers p n).mpr hne
    cases hph : s.phase p t <;> simp_all
  have hone := o.once p n
  have := List.count_pos_iff.mpr howed
  rw [owing_eq t] at hone
  omega

/-- a queue has one request of a node, and loses it as a whole -/
theorem Order.number_of_tail (o : Order net s) {p n : ν} {x y : Rank} {l : List Rank}
    (hq : s.queue n = x :: l) (hx : x.number = net.number p) (hy : y ∈ l) :
    y.number ≠ net.number p := by
  intro hyp
  have hone := o.single p n
  have hpos : 0 < l.countP (·.number = net.number p) :=
    List.countP_pos_iff.mpr ⟨y, hy, by simpa using hyp⟩
  rw [hq, List.countP_cons_of_pos (by simpa using hx)] at hone
  omega

theorem Order.first_release (hf : net.Full) (o : Order net s) {p q n : ν} {m r : ℕ}
    {ms : List Msg} (hfst : First net s p n m) (hqp : q ≠ p) (hr : s.chan q n = .release r :: ms)
    (ht : Timely s n q r) (hlead : ∀ x, Lead net s x → Lead net s' x)
    (he : s' = (s.pop q n).setQueue n (s.queue n).tail) : First net s' p n m := by
  obtain ⟨l, x, l', hq, hx, hx', hl⟩ := hfst
  obtain ⟨y, rest, hhead, hy⟩ :=
    o.head (Or.inr (Or.inl (by rw [hr]; exact List.mem_cons_self))) ht
  cases l with
  | nil =>
    rw [hhead] at hq
    obtain rfl := (List.cons.inj hq).1
    exact absurd (hf.number_inj (hy.symm.trans hx)) hqp
  | cons y' l =>
    obtain rfl := (List.cons.inj (hhead.symm.trans hq)).1
    refine ⟨l, x, l', ?_, hx, hlead x hx', fun z hz => ?_⟩
    · rw [he, setQueue_queue, Function.update_self, hq]
      rfl
    · obtain ⟨q', r', hqp', hz', ho, hr'⟩ := hl z (List.mem_cons_of_mem _ hz)
      -- no other request before is of the node of the release
      have hne : q' ≠ q := by
        rintro rfl
        exact o.number_of_tail hq hy (List.mem_append_left _ hz) hz'
      refine ⟨q', r', hqp', hz', ?_, hr'⟩
      rw [he]
      unfold Out at ho ⊢
      simpa [hne] using ho

theorem First.step (hf : net.Full) (h : Inv net s) (o : Order net s)
    (st : Step net Timely s s') {p n : ν} {m : ℕ} (hne : n ≠ p) (hfst : First net s p n m)
    (hrel : ∀ r ms, s.chan p n = .release r :: ms →
      s' ≠ (s.pop p n).setQueue n (s.queue n).tail) : First net s' p n m := by
  by_cases hout : ∃ q r ms, s.chan q n = .release r :: ms ∧ Timely s n q r ∧
      s' = (s.pop q n).setQueue n (s.queue n).tail
  · obtain ⟨q, r, ms, hr, ht, he⟩ := hout
    have hqp : q ≠ p := by
      rintro rfl
      exact hrel r ms hr he
    exact o.first_release hf hfst hqp hr ht (fun x hx => hx.step st) he
  obtain ⟨l, x, l', hq, hx, hlead, hl⟩ := hfst
  have hl' : ∀ y ∈ l, ∃ q r, q ≠ p ∧ y.number = net.number q ∧ Out s' q n r ∧ r ≤ m := by
    intro y hy
    obtain ⟨q, r, hqp, hyq, ho, hr⟩ := hl y hy
    refine ⟨q, r, hqp, hyq, (ho.step st).resolve_right ?_, hr⟩
    rintro ⟨r', ms, hc, ht, he⟩
    exact hout ⟨q, r', ms, hc, ht, he⟩
  rcases step_queue hf h o st n with he | ⟨q, t, ts, hlive, -, -, -, he⟩ | ⟨t, ts, hp, he⟩ |
    ⟨q, r, ms, hr, ht, he⟩
  · exact ⟨l, x, l', he.trans hq, hx, hlead.step st, hl'⟩
  · -- the new request is behind
    have hle : ∀ y ∈ l ++ [x], id y ≤ id (net.rank q ts) := by
      intro y hy
      have hxle := hlead.le q t ts hlive
      rcases List.mem_append.mp hy with hy | hy
      · have hs := h.sorted n
        rw [hq] at hs
        exact ((List.pairwise_append.mp hs).2.2 y hy x List.mem_cons_self).trans hxle
      · rw [List.mem_singleton.mp hy]
        exact hxle
    refine ⟨l, x, SortedQueue.insert id (net.rank q ts) l', ?_, hx, hlead.step st, hl'⟩
    rw [he, hq, List.append_cons, insert_append hle, List.append_assoc, List.singleton_append]
  · -- at a node in its critical section no other request is first
    obtain ⟨l1, hn⟩ := h.queue_of_critical hp
    cases l with
    | nil =>
      rw [hn] at hq
      rw [← (List.cons.inj hq).1] at hx
      exact absurd (hf.number_inj hx) hne
    | cons y l =>
      obtain ⟨q, r, -, hy, ho, -⟩ := hl y List.mem_cons_self
      rw [hn] at hq
      rw [← (List.cons.inj hq).1] at hy
      obtain rfl := hf.number_inj hy
      exact absurd ho (out_self hf h n r)
  · exact absurd ⟨q, r, ms, hr, ht, he⟩ hout

/-- a thread that enters comes first everywhere, but for releases it knows of -/
theorem first_enter (hf : net.Full) (h : Inv net s) (o : Traffic net s) {p n : ν} {t : τ} {ts : ℕ}
    (hp : s.phase p t = .critical ts) (hne : n ≠ p) : First net s p n (s.clock p) := by
  have hin : (s.phase p t).inside := by rw [hp]; rfl
  have hl : (s.phase p t).live = some ts := by rw [hp]; rfl
  obtain ⟨dead, alive, hd⟩ := h.split n
  obtain ⟨l, rfl⟩ := hd.alive_of_critical h hp
  obtain ⟨dead', alive', hd'⟩ := h.split p
  obtain rfl := hd'.dead_of_critical h hp
  have howe : ∀ q, owing net s q p = 0 := by
    intro q
    have hz : outstanding net s p = 0 := hd'.length.symm
    exact (Finset.sum_eq_zero_iff.mp hz) q (Finset.mem_univ q)
  refine ⟨dead, net.rank p ts, l, hd.queue, rfl, ⟨fun q t' ts' hl' => ?_, fun q => ?_⟩,
    fun y hy => ?_⟩
  · by_contra hle
    obtain ⟨rfl, rfl⟩ := (h.inside p t ts hin hl).2 q t' ts' hl' (not_le.mp hle).le
    obtain rfl := Option.some.inj (hl.symm.trans hl')
    exact hle le_rfl
  · exact h.le_clock_of_ahead (Phase.ahead_of_inside hin) hl q
  · have hyq : y ∈ s.queue n := by
      rw [hd.queue]
      exact List.mem_append_left _ hy
    obtain ⟨q, hq, ⟨t', ts', hl', rfl⟩ | hpos⟩ := o.owner n y hyq
    · exact absurd ((hd.dead _ hy).lt q t' ts' hl') (lt_irrefl _)
    · have hqp : q ≠ p := by
        rintro rfl
        rw [o.heard q t ts n hl (h.mem_of_ahead (Phase.ahead_of_inside hin) hl n)] at hpos
        exact absurd hpos (lt_irrefl _)
      -- the release of `q` has a stamp, and has reached `p`
      have hstamped : ∀ t', (s.phase q t').leaving = false := by
        intro t'
        by_contra hlv
        have h0 := howe q
        rw [owing_eq t'] at h0
        have hmem := List.count_pos_iff.mpr ((hf.mem_peers q p).mpr hqp.symm)
        cases hph : s.phase q t' <;> simp_all
      obtain ⟨r, ho⟩ := out_of_owing hpos hstamped
      exact ⟨q, r, hqp, hq, ho, o.passed q n p r ho hqp.symm (howe q)⟩

end first

/-! ## every step keeps the order -/

section keep
variable [Subsingleton τ]

theorem step_once (hf : net.Full) (h : Inv net s) (o : Order net s) (st : Step net Timely s s')
    (p n : ν) : owing net s' p n ≤ 1 := by
  have hone := o.once p n
  rcases step_owing hf st p n with he | ⟨t, ts, hp, hne, -, he⟩ | ⟨r, ms, -, -, -, -, he⟩
  · omega
  · have h0 := o.heard p t ts n (by rw [hp]; rfl)
      (h.mem_of_ahead (t := t) (by rw [hp]; rfl) (by rw [hp]; rfl) n)
    omega
  · omega

theorem step_heard (hf : net.Full) (h : Inv net s) (o : Order net s) (st : Step net Timely s s')
    {p n : ν} {t : τ} {ts : ℕ} (hl : (s'.phase p t).live = some ts)
    (hm : net.rank p ts ∈ s'.queue n) : owing net s' p n = 0 := by
  have hone := o.once p n
  rcases step_owing hf st p n with he | ⟨t', ts', -, -, rfl, -⟩ | ⟨r, ms, -, -, -, -, he⟩
  · rw [he]
    have hold : net.rank p ts ∈ s.queue n → owing net s p n = 0 := by
      intro hq
      rcases st.live hl with hl | ⟨-, -, hc, -⟩
      · exact o.heard p t ts n hl hq
      · exact absurd (h.stamp_le_of_mem hf hq) (Nat.not_le.mpr hc)
    rcases step_queue hf h o st n with hq | ⟨q, t', ts', -, -, -, h0, hq⟩ | ⟨t', ts', -, rfl⟩ |
      ⟨q, r, ms, -, -, rfl⟩
    · exact hold (hq ▸ hm)
    · rw [hq, mem_insert] at hm
      rcases hm with hm | hm
      · obtain ⟨rfl, -⟩ := hf.rank_inj.mp hm
        exact h0
      · exact hold hm
    · rw [setPhase_queue, setQueue_queue, Function.update_self] at hm
      exact hold (List.mem_of_mem_tail hm)
    · rw [setQueue_queue, Function.update_self] at hm
      exact hold (List.mem_of_mem_tail hm)
  · rw [setPhase_phase, if_pos ⟨rfl, Subsingleton.elim _ _⟩] at hl
    cases hl
  · omega

/-- nothing is out when a release gets its stamp -/
theorem Order.stamp_fresh (hf : net.Full) (h : Inv net s) (o : Order net s) {p n : ν} {t : τ}
    {ts r r' : ℕ} (hp : s.phase p t = .dequeued ts) (ho : Out
      ((s.setClock p r).setPhase p t (.releasing ts r (net.peers p))) p n r') : r' = r := by
  rcases ho with hm | ⟨t', ts', rest, hp', -⟩
  · have hm : .release r' ∈ s.chan p n := hm
    have hne : n ≠ p := by
      rintro rfl
      exact out_self hf h n r' (Or.inl hm)
    have hlv : (s.phase p t).leaving := by rw [hp]; rfl
    exact absurd hm (o.release_notMem hf h (Or.inr (Or.inl hlv)) hne r')
  · rw [setPhase_phase, if_pos ⟨rfl, Subsingleton.elim _ _⟩] at hp'
    exact (Phase.releasing.inj hp').2.1.symm

theorem step_stamp (hf : net.Full) (h : Inv net s) (o : Order net s) (st : Step net Timely s s')
    {p n n' : ν} {r r' : ℕ} (ho : Out s' p n r) (ho' : Out s' p n' r') : r = r' := by
  rcases out_of_step hf st ho with h1 | ⟨t, ts, hp, -, -, rfl⟩
  · rcases out_of_step hf st ho' with h2 | ⟨t, ts, hp, -, -, rfl⟩
    · exact o.stamp p n n' r r' h1 h2
    · exact o.stamp_fresh hf h hp ho
  · exact (o.stamp_fresh hf h hp ho').symm

theorem step_passed (hf : net.Full) (o : Order net s) (st : Step net Timely s s')
    {p n q : ν} {r : ℕ} (ho : Out s' p n r) (hq : q ≠ p) (h0 : owing net s' p q = 0) :
    r ≤ s'.clock q := by
  rcases out_of_step hf st ho with hold | ⟨t, ts, hp, -, -, rfl⟩
  · rcases step_owing hf st p q with he | ⟨t, ts, -, -, -, he⟩ | ⟨r', ms, hm, hc, -, -, -⟩
    · exact (o.passed p n q r hold hq (he ▸ h0)).trans (st.clock_le q)
    · omega
    · -- the release that `q` has taken has the same stamp
      have hout : Out s p q r' := Or.inl (by rw [hm]; exact List.mem_cons_self)
      rw [o.stamp p n q r r' hold hout]
      exact hc.trans (st.clock_le q)
  · have hmem := List.count_pos_iff.mpr ((hf.mem_peers p q).mpr hq)
    rw [owing_eq t, setPhase_phase, if_pos ⟨rfl, rfl⟩] at h0
    simp only [Phase.owed] at h0
    omega

theorem InOrder.snoc {l : List Msg} {m : Msg} (hl : InOrder l)
    (hm : m.isHeld → ∀ a ∈ l, a.isRequest = false ∧ a.isRelease = false) : InOrder (l ++ [m]) := by
  refine List.pairwise_append.mpr ⟨hl, List.pairwise_singleton _ _, fun a ha b hb hab => ?_⟩
  obtain rfl := List.mem_singleton.mp hb
  by_contra hb
  obtain ⟨h1, h2⟩ := hm (Bool.not_eq_false _ ▸ hb) a ha
  rw [h1, h2] at hab
  simp at hab

theorem step_fifo (hf : net.Full) (h : Inv net s) (o : Order net s) (st : Step net Timely s s')
    (p n : ν) : InOrder (s'.chan p n) := by
  have hfifo := o.fifo p n
  have hc : s'.chan p n = s.chan p n ∨ (∃ m, s.chan p n = m :: s'.chan p n) ∨
      ∃ m, s'.chan p n = s.chan p n ++ [m] ∧ (m.isHeld → ∃ t ts k rest,
        s.phase p t = .writing ts k (n :: rest) ∨ s.phase p t = .releasing ts k (n :: rest)) := by
    cases st <;> grind
  rcases hc with he | ⟨m, he⟩ | ⟨m, he, hs⟩
  · rw [he]
    exact hfifo
  · rw [he] at hfifo
    exact hfifo.tail
  · rw [he]
    refine hfifo.snoc fun hm a ha => ?_
    obtain ⟨t, ts, k, rest, hp⟩ := hs hm
    have hne : n ≠ p := by
      refine h.ne_of_rest hf (p := p) (t := t) ?_
      rcases hp with hp | hp <;> rw [hp] <;> exact List.mem_cons_self
    cases a with
    | request ts' =>
      obtain ⟨t', hl⟩ := h.request p n ts' ha
      rw [Subsingleton.elim t' t] at hl
      rcases hp with hp | hp
      · exact absurd ha (h.ahead p t ts' n (by rw [hp]; rfl) hl hne).1
      · rw [hp] at hl
        cases hl
    | release r =>
      have hheld : (s.phase p t).held = some (k, n :: rest) := by
        rcases hp with hp | hp <;> rw [hp] <;> rfl
      exact absurd ha (o.release_notMem hf h (Or.inr (Or.inr ⟨k, _, hheld, List.mem_cons_self⟩))
        hne r)
    | _ => exact ⟨rfl, rfl⟩

theorem step_single (hf : net.Full) (h : Inv net s) (o : Order net s) (st : Step net Timely s s')
    (p n : ν) : (s'.queue n).countP (·.number = net.number p) ≤ 1 := by
  have hone := o.single p n
  have htail : (s.queue n).tail.countP (·.number = net.number p) ≤ 1 :=
    ((s.queue n).tail_sublist.countP_le).trans hone
  rcases step_queue hf h o st n with he | ⟨q, t, ts, hl, -, hnew, h0, he⟩ | ⟨t, ts, -, rfl⟩ |
    ⟨q, r, ms, -, -, rfl⟩
  · rw [he]
    exact hone
  · rw [he, (insert_perm _).countP_eq, List.countP_cons]
    split_ifs with hq
    · -- the node has no other request there
      obtain rfl := hf.number_inj (of_decide_eq_true hq)
      rw [List.countP_eq_zero.mpr fun x hx hxn => ?_]
      obtain ⟨q', hq', ⟨t', ts', hl', rfl⟩ | hpos⟩ := o.owner n x hx
      · obtain rfl := hf.number_inj (of_decide_eq_true hxn)
        rw [Subsingleton.elim t' t, hl] at hl'
        rw [Option.some.inj hl'] at hnew
        exact hnew hx
      · obtain rfl := hf.number_inj (hq'.symm.trans (of_decide_eq_true hxn))
        omega
    · exact hone
  · rw [setPhase_queue, setQueue_queue, Function.update_self]
    exact htail
  · rw [setQueue_queue, Function.update_self]
    exact htail

theorem step_owner (hf : net.Full) (h : Inv net s) (o : Order net s) (st : Step net Timely s s')
    {n : ν} {x : Rank} (hx : x ∈ s'.queue n) : ∃ p, x.number = net.number p ∧
      ((∃ t ts, (s'.phase p t).live = some ts ∧ x = net.rank p ts) ∨ 0 < owing net s' p n) := by
  have hold : x ∈ s.queue n ∨
      ∃ p t ts, (s'.phase p t).live = some ts ∧ x = net.rank p ts := by
    rcases step_queue hf h o st n with he | ⟨q, t, ts, -, hl', -, -, he⟩ | ⟨t, ts, -, rfl⟩ |
      ⟨q, r, ms, -, -, rfl⟩
    · exact Or.inl (he ▸ hx)
    · rw [he, mem_insert] at hx
      exact hx.symm.imp_right fun hx => ⟨q, t, ts, hl', hx⟩
    · rw [setPhase_queue, setQueue_queue, Function.update_self] at hx
      exact Or.inl (List.mem_of_mem_tail hx)
    · rw [setQueue_queue, Function.update_self] at hx
      exact Or.inl (List.mem_of_mem_tail hx)
  rcases hold with hq | ⟨p, t, ts, hl, rfl⟩
  · obtain ⟨p, hp, ⟨t, ts, hl, rfl⟩ | hpos⟩ := o.owner n x hq
    · refine ⟨p, hp, ?_⟩
      rcases st.leave hl with hl' | hs | ⟨hc, hc'⟩
      · exact Or.inl ⟨t, ts, hl', rfl⟩
      · exact absurd hq (h.placed_of_stamped hf hs).2
      · by_cases hn : n = p
        · -- the own queue has lost the request
          subst hn
          have htail : s'.queue n = (s.queue n).tail := by
            cases st <;> grind
          obtain ⟨l, hhead⟩ := h.queue_of_critical hc
          rw [htail, hhead] at hx
          exact absurd hp (o.number_of_tail hhead rfl hx)
        · have hmem := List.count_pos_iff.mpr ((hf.mem_peers p n).mpr hn)
          rw [owing_eq t, hc']
          exact Or.inr (Nat.lt_add_left _ hmem)
    · refine ⟨p, hp, Or.inr ?_⟩
      rcases step_owing hf st p n with he | ⟨_, _, -, -, -, he⟩ | ⟨r, ms, hm, -, ht, rfl, -⟩
      · omega
      · omega
      · obtain ⟨y, l, hhead, hy⟩ :=
          o.head (Or.inr (Or.inl (by rw [hm]; exact List.mem_cons_self))) ht
        rw [setQueue_queue, Function.update_self, hhead] at hx
        exact absurd hp (o.number_of_tail hhead hy hx)
  · exact ⟨p, rfl, Or.inl ⟨t, ts, hl, rfl⟩⟩

/-- after a release has been taken nothing of its thread is under way -/
theorem Order.not_sent_of_release (hf : net.Full) (h : Inv net s) (o : Order net s) {p n : ν}
    {r m : ℕ} {ms : List Msg} (hm : s.chan p n = .release r :: ms) :
    ¬ Sent ((s.pop p n).setQueue n (s.queue n).tail) p n m := by
  have hne : n ≠ p := by
    rintro rfl
    rw [(h.self n).1] at hm
    cases hm
  have hfifo := o.fifo p n
  rw [hm] at hfifo
  have hms : ∀ m ∈ ms, m.isHeld = false := fun m hm' =>
    (List.pairwise_cons.mp hfifo).1 m hm' (Or.inr rfl)
  have hchan : ((s.pop p n).setQueue n (s.queue n).tail).chan p n = ms := by
    rw [setQueue_chan, pop_chan, if_pos ⟨rfl, rfl⟩, hm]
    rfl
  rintro (hw | hr | ⟨t, rest, hp, hn⟩)
  · rw [hchan] at hw
    exact absurd (hms _ hw) (by simp)
  · rw [hchan] at hr
    exact absurd (hms _ hr) (by simp)
  · exact o.release_notMem hf h (Or.inr (Or.inr ⟨m, rest, hp, hn⟩)) hne r
      (by rw [hm]; exact List.mem_cons_self)

/-- a write or a release has been under way, or its stamp is new -/
theorem sent_of_step (st : Step net ok s s') {p n : ν} {m : ℕ} (hs : Sent s' p n m) :
    Sent s p n m ∨ s.clock p ≤ m ∧ n ∈ net.peers p ∧
      ∃ t, (s.phase p t).inside ∨ (s.phase p t).leaving := by
  have hw : .write m ∈ s'.chan p n → .write m ∈ s.chan p n ∨
      ∃ t ts rest, s.phase p t = .writing ts m (n :: rest) := by
    cases st <;> grind
  have hr : .release m ∈ s'.chan p n → .release m ∈ s.chan p n ∨
      ∃ t ts rest, s.phase p t = .releasing ts m (n :: rest) := by
    cases st <;> grind
  have hp : ∀ t rest, (s'.phase p t).held = some (m, rest) →
      (s.phase p t).held = some (m, rest) ∨ (∃ q, (s.phase p t).held = some (m, q :: rest)) ∨
        s.clock p ≤ m ∧ rest = net.peers p ∧ ((s.phase p t).inside ∨ (s.phase p t).leaving) := by
    intro t rest
    cases st <;> grind
  rcases hs with hs | hs | ⟨t, rest, hs, hn⟩
  · rcases hw hs with hs | ⟨t, ts, rest, hs⟩
    · exact Or.inl (Or.inl hs)
    · exact Or.inl (Or.inr (Or.inr ⟨t, _, by rw [hs]; rfl, List.mem_cons_self⟩))
  · rcases hr hs with hs | ⟨t, ts, rest, hs⟩
    · exact Or.inl (Or.inr (Or.inl hs))
    · exact Or.inl (Or.inr (Or.inr ⟨t, _, by rw [hs]; rfl, List.mem_cons_self⟩))
  · rcases hp t rest hs with hs | ⟨q, hs⟩ | ⟨hc, rfl, hp⟩
    · exact Or.inl (Or.inr (Or.inr ⟨t, rest, hs, hn⟩))
    · exact Or.inl (Or.inr (Or.inr ⟨t, _, hs, List.mem_cons_of_mem _ hn⟩))
    · exact Or.inr ⟨hc, hn, t, hp⟩

theorem Sent.ne (hf : net.Full) (h : Inv net s) {p n : ν} {m : ℕ} (hs : Sent s p n m) : n ≠ p := by
  rcases hs with hs | hs | ⟨t, rest, hs, hn⟩
  · rintro rfl
    rw [(h.self n).1] at hs
    cases hs
  · rintro rfl
    rw [(h.self n).1] at hs
    cases hs
  · refine h.ne_of_rest hf (p := p) (t := t) ?_
    cases hp : s.phase p t <;> simp_all

theorem step_sent (hf : net.Full) (h : Inv net s) (o : Order net s) (st : Step net Timely s s')
    {p n : ν} {m : ℕ} (hs : Sent s' p n m) : First net s' p n m := by
  have hrel : ∀ r ms, s.chan p n = .release r :: ms →
      s' ≠ (s.pop p n).setQueue n (s.queue n).tail := by
    rintro r ms hr rfl
    exact o.not_sent_of_release hf h hr hs
  rcases sent_of_step st hs with hold | ⟨hc, hn, t, hp⟩
  · exact (o.sent p n m hold).step hf h o st (hold.ne hf h) hrel
  · have hne := (hf.mem_peers p n).mp hn
    exact ((o.holder p t n hp hne).mono hc).step hf h o st hne hrel

theorem step_traffic (hf : net.Full) (h : Inv net s) (o : Order net s)
    (st : Step net Timely s s') : Traffic net s' where
  fifo := step_fifo hf h o st
  heard _ _ _ _ := step_heard hf h o st
  once := step_once hf h o st
  stamp _ _ _ _ _ := step_stamp hf h o st
  passed _ _ _ _ := step_passed hf o st
  owner _ _ := step_owner hf h o st

theorem step_first_holder (hf : net.Full) (h : Inv net s) (o : Order net s)
    (st : Step net Timely s s') {p n : ν} {t : τ}
    (hp : (s'.phase p t).inside ∨ (s'.phase p t).leaving) (hne : n ≠ p) :
    First net s' p n (s'.clock p) := by
  have hpre : ((s.phase p t).inside ∨ (s.phase p t).leaving) ∨
      ∃ ts, s'.phase p t = .critical ts := by
    cases st <;> grind
  rcases hpre with hpre | ⟨ts, hc⟩
  · have hfst := (o.holder p t n hpre hne).mono (st.clock_le p)
    refine hfst.step hf h o st hne fun r ms hr _ => ?_
    exact o.release_notMem hf h (hpre.imp_right Or.inl) hne r (by rw [hr]; exact List.mem_cons_self)
  · exact first_enter hf (inv_step hf h st) (step_traffic hf h o st) hc hne

theorem order_step (hf : net.Full) (h : Inv net s) (o : Order net s)
    (st : Step net Timely s s') : Order net s' where
  toTraffic := step_traffic hf h o st
  single := step_single hf h o st
  sent _ _ _ := step_sent hf h o st
  holder _ _ _ := step_first_holder hf h o st

theorem order_init : Order net (init : State ν τ) where
  fifo _ _ := List.Pairwise.nil
  heard _ _ _ _ h := by cases h
  once p n := by simp [owing, init]
  stamp p n n' r r' ho := by simp [Out, init] at ho
  passed p n q r ho := by simp [Out, init] at ho
  owner _ _ h := by cases h
  single p n := by simp [init]
  sent p n m hs := by simp [Sent, init] at hs
  holder _ _ _ h := by simp [init] at h

/-- **Runs** whose deliveries of releases and writes are timely -/
theorem order_steps (hf : net.Full) (h : Inv net s) (o : Order net s)
    (st : Relation.ReflTransGen (Step net Timely) s s') : Inv net s' ∧ Order net s' := by
  induction st with
  | refl => exact ⟨h, o⟩
  | tail _ hs ih => exact ⟨inv_step hf ih.1 hs, order_step hf ih.1 ih.2 hs⟩

end keep

/-! ## the length of a queue -/

theorem length_le_sum_countP {l : List Rank} (hl : ∀ x ∈ l, ∃ p, x.number = net.number p) :
    l.length ≤ ∑ p : ν, l.countP (·.number = net.number p) := by
  induction l with
  | nil => exact Nat.zero_le _
  | cons x l ih =>
    obtain ⟨p, hp⟩ := hl x List.mem_cons_self
    have hle := ih fun y hy => hl y (List.mem_cons_of_mem _ hy)
    have hlt : ∑ q : ν, l.countP (·.number = net.number q) <
        ∑ q : ν, (x :: l).countP (·.number = net.number q) := by
      refine Finset.sum_lt_sum (fun q _ => (List.sublist_cons_self x l).countP_le)
        ⟨p, Finset.mem_univ p, ?_⟩
      rw [List.countP_cons_of_pos (by simpa using hp)]
      exact Nat.lt_succ_self _
    rw [List.length_cons]
    omega

/-- no queue is longer than there are nodes -/
theorem Order.length_le (o : Order net s) (n : ν) : (s.queue n).length ≤ Fintype.card ν := by
  have hsum : (s.queue n).length ≤ ∑ p : ν, (s.queue n).countP (·.number = net.number p) := by
    refine length_le_sum_countP fun x hx => ?_
    obtain ⟨p, hp, -⟩ := o.owner n x hx
    exact ⟨p, hp⟩
  refine hsum.trans ((Finset.sum_le_card_nsmul _ _ 1 fun p _ => o.single p n).trans ?_)
  simp

end LamportLock
