import LsmKv.Lib.LamportLock.Inv

/-!
# Mutual exclusion

Each part of the invariant is kept by every step, whatever the other nodes and threads do.

* `step_own`, `step_placed`       where a request is;
* `step_split`, `split_unlock`    the end of a critical section turns its entry into a dead one
                                  everywhere else;
* `step_account`                  replies;
* `step_cleared`, `step_ahead`    what a reply says of the requests that come before;
* `step_inside`                   the critical section;
* `inv_step`, `inv_init`          the invariant.
-/

set_option linter.unusedSectionVars false

namespace LamportLock

open State SortedQueue

variable {ν τ : Type*} [DecidableEq ν] [DecidableEq τ] [Fintype ν] [Fintype τ] {net : Net ν}
  {ok : State ν τ → ν → ν → ℕ → Prop} {s s' : State ν τ}

/-! ## threads, clocks, channels -/

theorem step_rest (h : Inv net s) (st : Step net ok s s') (p : ν) (t : τ) :
    (s'.phase p t).rest <:+ net.peers p := by
  have hp := h.rest p t
  cases st with
  | send | sendWrite | sendRelease => grind [List.IsSuffix.trans, List.suffix_cons]
  | _ => grind [List.suffix_refl]

theorem step_clock_live (h : Inv net s) (st : Step net ok s s') {p : ν} {t : τ} {ts : ℕ}
    (hl : (s'.phase p t).live = some ts) : ts ≤ s'.clock p := by
  rcases st.live hl with hl | ⟨-, -, -, rfl⟩
  · exact (h.clock_live p t ts hl).trans (st.clock_le p)
  · exact le_rfl

theorem step_clock_queue (h : Inv net s) (st : Step net ok s s') {n : ν} {x : Rank}
    (hx : x ∈ s'.queue n) : x.stamp ≤ s'.clock n := by
  refine le_trans ?_ (st.clock_le n)
  have hq := h.clock_queue n
  have hl := h.clock_live n
  cases st <;> grind [mem_insert, Net.stamp_rank, List.mem_of_mem_tail]

theorem step_unique (h : Inv net s) (st : Step net ok s s') {p : ν} {t t' : τ} {ts : ℕ}
    (hl : (s'.phase p t).live = some ts) (hl' : (s'.phase p t').live = some ts) : t = t' := by
  have := h.unique p t t' ts
  have := h.clock_live p t ts
  have := h.clock_live p t' ts
  have := st.live hl
  have := st.live hl'
  cases st <;> grind

theorem step_self (hf : net.Full) (h : Inv net s) (st : Step net ok s s') (p : ν) :
    s'.chan p p = [] ∧ s'.pending p p = false := by
  have hp := h.self p
  have hr := fun t q => h.ne_of_rest hf (p := p) (t := t) (q := q)
  cases st <;> grind

theorem step_sorted (h : Inv net s) (st : Step net ok s s') (n : ν) :
    (s'.queue n).Pairwise (· ≤ ·) := by
  have hn := h.sorted n
  cases st <;> grind [sorted_insert]

theorem step_holder (h : Inv net s) (st : Step net ok s s') {p : ν} {t : τ} {ts : ℕ} {l : List ν}
    (hp : s'.phase p t = .sending ts l) : s'.mutex p = some t := by
  have hh := h.holder p
  cases st <;> grind

/-! ## where a request is -/

theorem step_request (hf : net.Full) (h : Inv net s) (st : Step net ok s s') {p n : ν} {ts : ℕ}
    (hr : .request ts ∈ s'.chan p n) : ∃ t, (s'.phase p t).live = some ts := by
  have hold : .request ts ∈ s.chan p n → ∃ t, (s'.phase p t).live = some ts := by
    intro hm
    obtain ⟨t, ht⟩ := h.request p n ts hm
    rcases st.leave ht with hl | he
    · exact ⟨t, hl⟩
    · exact absurd hm (h.request_of_exit hf (he.imp_right And.left))
  rcases st.chan p n with he | ⟨m, he⟩ | ⟨m, he, hs⟩
  · exact hold (he ▸ hr)
  · exact hold (by rw [he]; exact List.mem_cons_of_mem _ hr)
  · rw [he, List.mem_append, List.mem_singleton] at hr
    rcases hr with hr | hr
    · exact hold hr
    · obtain ⟨t, rest, -, hp⟩ := hs ts hr.symm
      exact ⟨t, by rw [hp]; rfl⟩

theorem step_own (hf : net.Full) (h : Inv net s) (st : Step net ok s s') {p : ν} {t : τ} {ts : ℕ}
    (hl : (s'.phase p t).live = some ts) :
    (s'.queue p).count (net.rank p ts) = (s'.phase p t).entered.toNat := by
  have ho := h.own p t ts
  have hinj := @hf.rank_inj
  cases st with
  | stamp =>
    -- no queue knows of a stamp that is still to come
    have hle : net.rank p ts ∈ s.queue p → ts ≤ s.clock p := h.stamp_le_of_mem hf
    grind [List.count_eq_zero]
  | enqueue =>
    have hu := h.unique p
    grind [count_insert]
  | deliverRequest hm =>
    have hself := (h.self p).1
    grind [count_insert]
  | unlock hp =>
    obtain ⟨l, hq⟩ := h.queue_of_critical hp
    have hu := h.unique p
    grind
  | deliverRelease hm =>
    -- the entry taken comes before all requests that are alive
    obtain ⟨x, dead, alive, hd⟩ := h.tail_of_release hm
    have hq := hd.queue
    have hx := (hd.dead x List.mem_cons_self).lt p t ts
    grind
  | _ => grind

theorem step_placed (hf : net.Full) (h : Inv net s) (st : Step net ok s s') {p n : ν} {t : τ}
    {ts : ℕ} (hl : (s'.phase p t).live = some ts) (hn : n ≠ p) :
    ((s'.phase p t).unsent (net.peers p)).count n + (s'.chan p n).count (.request ts) +
      (s'.queue n).count (net.rank p ts) = 1 := by
  have hpl := h.placed p t ts n
  have hinj := @hf.rank_inj
  cases st with
  | stamp =>
    -- no queue and no channel knows of a stamp that is still to come
    have hle : net.rank p ts ∈ s.queue n → ts ≤ s.clock p := h.stamp_le_of_mem hf
    have hreq := h.request p n ts
    have hclock := h.clock_live p
    have hone := List.count_eq_one_of_mem (hf.nodup p) ((hf.mem_peers p n).mpr hn)
    grind [List.count_eq_zero]
  | enqueue => grind [count_insert]
  | send hp =>
    have hu := h.unique p
    grind
  | unlock hp =>
    obtain ⟨l, hq⟩ := h.queue_of_critical hp
    grind
  | deliverRequest hm => grind [count_insert]
  | deliverRelease hm =>
    obtain ⟨x, dead, alive, hd⟩ := h.tail_of_release hm
    have hq := hd.queue
    have hx := (hd.dead x List.mem_cons_self).lt p t ts
    grind
  | _ => grind

/-! ## dead entries -/

/-- what a thread's step changes in what its node owes -/
theorem owing_setPhase (s : State ν τ) (p n : ν) (t : τ) (ph : Phase ν) :
    owing net (s.setPhase p t ph) p n + ((s.phase p t).owed (net.peers p)).count n =
      owing net s p n + (ph.owed (net.peers p)).count n := by
  have hs := sum_change (f := fun t' => (((s.setPhase p t ph).phase p t').owed
    (net.peers p)).count n) (g := fun t' => ((s.phase p t').owed (net.peers p)).count n) t
    fun t' ht => by rw [setPhase_phase, if_neg fun h => ht h.2]
  rw [setPhase_phase, if_pos ⟨rfl, rfl⟩] at hs
  unfold owing
  rw [setPhase_chan]
  omega

theorem owing_push (s : State ν τ) (p q p' n : ν) (r : ℕ) :
    owing net (s.push p q (.release r)) p' n =
      owing net s p' n + if p' = p ∧ n = q then 1 else 0 := by
  unfold owing
  simp only [push_chan, push_phase]
  split_ifs with h
  · obtain ⟨rfl, rfl⟩ := h
    rw [List.countP_append, List.countP_singleton]
    simp only [Msg.isRelease, if_true]
    omega
  · rfl

theorem owing_sendRelease {p q : ν} {t : τ} {ts r : ℕ} {rest : List ν}
    (hp : s.phase p t = .releasing ts r (q :: rest)) (p' n : ν) :
    owing net ((s.push p q (.release r)).setPhase p t (.releasing ts r rest)) p' n =
      owing net s p' n := by
  by_cases hp' : p' = p
  · subst hp'
    have hs : owing net _ p' n + _ = owing net _ p' n + _ :=
      owing_setPhase (s.push p' q (.release r)) p' n t (.releasing ts r rest)
    rw [push_phase, hp, owing_push] at hs
    simp only [Phase.owed, List.count_cons] at hs
    by_cases hn : n = q
    · simp only [hn] at hs ⊢
      simp at hs
      omega
    · simp [hn, Ne.symm hn] at hs
      omega
  · refine (owing_congr ?_ fun t' => ?_)
    · grind
    · grind

theorem Dead.step {x : Rank} (hx : Dead net s x) (st : Step net ok s s') : Dead net s' x where
  lt p t ts hl := by
    rcases st.live hl with hl | ⟨-, -, hc, -⟩
    · exact hx.lt p t ts hl
    · exact net.lt_rank_of_stamp ((hx.clock p).trans_lt hc)
  clock p := (hx.clock p).trans (st.clock_le p)

/-- a request that stands in a queue is alive until its critical section is over -/
theorem Alive.step {n : ν} {x : Rank} (hx : Alive net s x) (hf : net.Full) (h : Inv net s)
    (st : Step net ok s s') (hn : x ∈ s.queue n) :
    Alive net s' x ∨ ∃ p t ts, s.phase p t = .critical ts ∧ s'.phase p t = .dequeued ts ∧
      x = net.rank p ts := by
  obtain ⟨p, t, ts, hl, rfl⟩ := hx
  rcases st.leave hl with hl' | hs | hc
  · exact Or.inl ⟨p, t, ts, hl', rfl⟩
  · exact absurd hn (h.placed_of_stamped hf hs).2
  · exact Or.inr ⟨p, t, ts, hc.1, hc.2, rfl⟩

/-- the request whose critical section ends is dead from now on -/
theorem dead_of_unlock (h : Inv net s) (st : Step net ok s s') {p : ν} {t : τ} {ts : ℕ}
    (hp : s.phase p t = .critical ts) (hp' : s'.phase p t = .dequeued ts) :
    Dead net s' (net.rank p ts) := by
  have hin : (s.phase p t).inside := by rw [hp]; rfl
  have hl : (s.phase p t).live = some ts := by rw [hp]; rfl
  refine ⟨fun p' t' ts' hl' => ?_, fun n => ?_⟩
  · rcases st.live hl' with hold | ⟨-, -, hc, -⟩
    · by_contra hle
      obtain ⟨rfl, rfl⟩ := (h.inside p t ts hin hl).2 p' t' ts' hold (not_lt.mp hle)
      rw [hp'] at hl'
      cases hl'
    · have hle := h.le_clock_of_ahead (Phase.ahead_of_inside hin) hl p'
      exact net.rank_lt_of_stamp (hle.trans_lt hc)
  · exact (h.le_clock_of_ahead (Phase.ahead_of_inside hin) hl n).trans (st.clock_le n)

/-- a step that leaves the queue and the releases to it as they are -/
theorem Split.frame {n : ν} {dead alive : List Rank} (hd : Split net s n dead alive)
    (hf : net.Full) (h : Inv net s) (st : Step net ok s s') (hq : s'.queue n = s.queue n)
    (ho : ∀ p, owing net s' p n = owing net s p n)
    (hu : ∀ p t ts, s.phase p t = .critical ts → s'.phase p t ≠ .dequeued ts) :
    Split net s' n dead alive where
  queue := hq.trans hd.queue
  length := hd.length.trans (Finset.sum_congr rfl fun p _ => (ho p).symm)
  dead x hx := (hd.dead x hx).step st
  alive x hx := by
    have hm : x ∈ s.queue n := by rw [hd.queue]; exact List.mem_append_right _ hx
    rcases (hd.alive x hx).step hf h st hm with ha | ⟨p, t, ts, hp, hp', -⟩
    · exact ha
    · exact absurd hp' (hu p t ts hp)

/-- a request is put into a queue -/
theorem Split.of_insert {n : ν} {x : Rank} {dead alive : List Rank}
    (hd : Split net s n dead alive) (hf : net.Full) (h : Inv net s) (st : Step net ok s s')
    (hx : Alive net s x) (hx' : Alive net s' x)
    (hq : s'.queue n = SortedQueue.insert id x (s.queue n))
    (ho : ∀ p, owing net s' p n = owing net s p n)
    (hu : ∀ p t ts, s.phase p t = .critical ts → s'.phase p t ≠ .dequeued ts) :
    Split net s' n dead (SortedQueue.insert id x alive) where
  queue := hq.trans (hd.insert hx)
  length := hd.length.trans (Finset.sum_congr rfl fun p _ => (ho p).symm)
  dead y hy := (hd.dead y hy).step st
  alive y hy := by
    rcases mem_insert.mp hy with rfl | hy
    · exact hx'
    · have hm : y ∈ s.queue n := by rw [hd.queue]; exact List.mem_append_right _ hy
      rcases (hd.alive y hy).step hf h st hm with ha | ⟨p, t, ts, hp, hp', -⟩
      · exact ha
      · exact absurd hp' (hu p t ts hp)

/-- a release takes the first dead entry -/
theorem Split.of_release {n p : ν} {x : Rank} {dead alive : List Rank}
    (hd : Split net s n (x :: dead) alive) (st : Step net ok s s')
    (hq : s'.queue n = (s.queue n).tail) (hp : s'.phase = s.phase)
    (ho : owing net s' p n + 1 = owing net s p n)
    (hother : ∀ q, q ≠ p → owing net s' q n = owing net s q n) :
    Split net s' n dead alive where
  queue := by rw [hq, hd.queue]; rfl
  length := by
    have hlen := hd.length
    have hsum := outstanding_change hother
    rw [List.length_cons] at hlen
    omega
  dead y hy := (hd.dead y (List.mem_cons_of_mem _ hy)).step st
  alive y hy := by
    obtain ⟨p', t, ts, hl, rfl⟩ := hd.alive y hy
    exact ⟨p', t, ts, by rw [hp]; exact hl, rfl⟩

theorem split_unlock (hf : net.Full) (h : Inv net s) (st : Step net ok s s') {p n : ν} {t : τ}
    {ts : ℕ} {dead alive : List Rank} (hd : Split net s n dead alive)
    (hp : s.phase p t = .critical ts)
    (he : s' = (s.setQueue p (s.queue p).tail).setPhase p t (.dequeued ts)) :
    ∃ dead alive, Split net s' n dead alive := by
  have hp' : s'.phase p t = .dequeued ts := by rw [he, setPhase_phase, if_pos ⟨rfl, rfl⟩]
  have hcount : (s.queue n).count (net.rank p ts) = 1 :=
    h.count_of_ahead (t := t) (by rw [hp]; rfl) (by rw [hp]; rfl) n
  have hdead := fun x hx => (hd.dead x hx).step st
  -- the other requests stay alive
  have halive : ∀ l, s.queue n = dead ++ net.rank p ts :: l →
      (∀ x ∈ l, Alive net s x) → ∀ x ∈ l, Alive net s' x := by
    intro l hq hl x hx
    have hm : x ∈ s.queue n := by rw [hq]; simp [hx]
    rcases (hl x hx).step hf h st hm with ha | ⟨p', t', ts', hc, hc', rfl⟩
    · exact ha
    · obtain ⟨rfl, rfl⟩ : p' = p ∧ t' = t := by grind
      obtain rfl : ts = ts' := by rw [hp] at hc; exact Phase.critical.inj hc
      rw [hq, List.count_append, List.count_cons_self] at hcount
      have := List.count_pos_iff.mpr hx
      omega
  have hother : ∀ q, q ≠ p → owing net s' q n = owing net s q n := fun q hq =>
    owing_congr (by rw [he]; rfl) fun t' => by rw [he]; grind
  have hsum := outstanding_change hother
  have how : owing net s' p n = owing net s p n + (net.peers p).count n := by
    have hset : owing net _ p n + _ = owing net _ p n + _ :=
      owing_setPhase (s.setQueue p (s.queue p).tail) p n t (.dequeued ts)
    rw [setQueue_phase, hp] at hset
    rw [he]
    exact hset
  by_cases hn : n = p
  · subst hn
    obtain rfl := hd.dead_of_critical h hp
    obtain ⟨l, hq⟩ := h.queue_of_critical hp
    have hzero : (net.peers n).count n = 0 :=
      List.count_eq_zero.mpr fun hm => (hf.mem_peers n n).mp hm rfl
    have hql := hd.queue.symm.trans hq
    rw [List.nil_append] at hql
    refine ⟨[], l, ?_, ?_, hdead, halive l (by rw [hq]; rfl) fun x hx => ?_⟩
    · rw [he, setPhase_queue, setQueue_queue, Function.update_self, hq]
      rfl
    · have := hd.length
      omega
    · exact hd.alive x (by rw [hql]; exact List.mem_cons_of_mem _ hx)
  · obtain ⟨l, rfl⟩ := hd.alive_of_critical h hp
    have hone : (net.peers p).count n = 1 :=
      List.count_eq_one_of_mem (hf.nodup p) ((hf.mem_peers p n).mpr hn)
    refine ⟨dead ++ [net.rank p ts], l, ?_, ?_, fun x hx => ?_, ?_⟩
    · rw [he, setPhase_queue, setQueue_queue, Function.update_of_ne hn, hd.queue]
      simp
    · have := hd.length
      rw [List.length_append, List.length_singleton]
      omega
    · rcases List.mem_append.mp hx with hx | hx
      · exact hdead x hx
      · rw [List.mem_singleton.mp hx]
        exact dead_of_unlock h st hp hp'
    · exact halive l hd.queue fun x hx => hd.alive x (List.mem_cons_of_mem _ hx)

theorem step_split (hf : net.Full) (h : Inv net s) (st : Step net ok s s') (n : ν) :
    ∃ dead alive, Split net s' n dead alive := by
  obtain ⟨dead, alive, hd⟩ := h.split n
  have hst := st
  cases st with
  | unlock hp => exact split_unlock hf h hst hd hp rfl
  | @enqueue p t ts hp =>
    have how : ∀ p', owing net ((s.setQueue p (SortedQueue.insert id (net.rank p ts)
        (s.queue p))).setPhase p t (.queued ts)) p' n = owing net s p' n :=
      fun p' => owing_congr (by grind) fun t => by grind
    by_cases hn : n = p
    · subst hn
      exact ⟨_, _, hd.of_insert hf h hst (x := net.rank n ts) ⟨n, t, ts, by grind, rfl⟩
        ⟨n, t, ts, by grind, rfl⟩ (by grind) how fun p t ts => by grind⟩
    · exact ⟨_, _, hd.frame hf h hst (by grind) how (fun p t ts => by grind)⟩
  | @deliverRequest n' p ts ms hm =>
    have how : ∀ p', owing net (((s.pop p n').setQueue n' (SortedQueue.insert id (net.rank p ts)
        (s.queue n'))).setPending n' p true) p' n = owing net s p' n :=
      fun p' => owing_congr (by grind) fun t => by grind
    by_cases hn : n = n'
    · subst hn
      obtain ⟨t, hl⟩ := h.request p n ts (by rw [hm]; simp)
      exact ⟨_, _, hd.of_insert hf h hst (x := net.rank p ts) ⟨p, t, ts, hl, rfl⟩
        ⟨p, t, ts, hl, rfl⟩ (by grind) how fun p t ts => by grind⟩
    · exact ⟨_, _, hd.frame hf h hst (by grind) how (fun p t ts => by grind)⟩
  | @deliverRelease n' p r ms hm =>
    by_cases hn : n = n'
    · subst hn
      obtain ⟨x, dead, alive, hd⟩ := h.tail_of_release hm
      refine ⟨_, _, hd.of_release (p := p) hst (by grind) rfl ?_ fun q hq => ?_⟩
      rotate_left
      · exact owing_congr (by grind) fun t => by grind
      unfold owing
      grind
    · refine ⟨_, _, hd.frame hf h hst (by grind) (fun p' => ?_) fun p t ts => by grind⟩
      exact owing_congr (by grind) fun t => by grind
  | sendRelease hp =>
    refine ⟨dead, alive, hd.frame hf h hst rfl (fun p' => ?_) fun p t ts => by grind⟩
    exact owing_sendRelease hp p' n
  | _ =>
    refine ⟨dead, alive, hd.frame hf h hst rfl (fun p => ?_) (fun p t ts => by grind)⟩
    exact owing_congr (by grind) fun t => by grind

/-! ## replies -/

theorem step_account (hf : net.Full) (h : Inv net s) (st : Step net ok s s') (p : ν) :
    Account net s' p := by
  have ha := h.account p
  cases st with
  | @acquire p' t ts hp hm =>
    by_cases he : p' = p
    · subst he
      obtain ⟨h0, hz⟩ := ha.free hm
      refine ⟨fun hn => by grind, fun t' ht' => ⟨ts, net.peers p', by grind, fun q => ?_, ?_⟩⟩
      · show (net.peers p').count q + wait s p' q ≤ 1
        rw [hz]
        exact List.nodup_iff_count_le_one.mp (hf.nodup p') q
      · show s.replies p' + ∑ q, ((net.peers p').count q + wait s p' q) = _
        simp only [h0, hz, Nat.zero_add, Nat.add_zero]
        exact sum_count _
    · exact ha.frame (by grind) rfl (fun q => rfl) (by grind)
  | @send p' t ts q l hp =>
    by_cases he : p' = p
    · subst he
      obtain ⟨ts', l', hp', hle, hsum⟩ := ha.held t (h.holder p' t ts _ hp)
      obtain ⟨rfl, rfl⟩ := Phase.sending.inj (hp'.symm.trans hp)
      -- the request takes the place of its receiver among those not yet sent to
      have hw : ∀ q', l.count q' + wait ((s.push p' q (.request ts')).setPhase p' t
          (.sending ts' l)) p' q' = (q :: l).count q' + wait s p' q' := by
        intro q'
        grind [wait]
      refine ⟨fun hn => ?_, fun t' ht' => ⟨ts', l, ?_, fun q' => (hw q').trans_le (hle q'), ?_⟩⟩
      · have := h.holder p' t ts' _ hp
        grind
      · have := h.holder p' t ts' _ hp
        grind
      · simp only [hw]
        exact hsum
    · exact ha.frame (by grind) (by grind) (fun q => by grind [wait]) (by grind)
  | @proceed p' t ts hp hr =>
    by_cases he : p' = p
    · subst he
      obtain ⟨ts', l', hp', -, hsum⟩ := ha.held t (h.holder p' t ts _ hp)
      obtain ⟨rfl, rfl⟩ := Phase.sending.inj (hp'.symm.trans hp)
      have hzero : ∑ q, (([] : List ν).count q + wait s p' q) = 0 := by omega
      refine ⟨fun hn => ⟨by grind, fun q => ?_⟩, fun t' ht' => by grind⟩
      have := Finset.sum_eq_zero_iff.mp hzero q (Finset.mem_univ q)
      exact (Nat.add_eq_zero_iff.mp this).2
    · exact ha.frame (by grind) (by grind) (fun q => by grind [wait]) (by grind)
  | @deliverRequest n p' ts ms hm =>
    refine ha.frame rfl rfl (fun q => ?_) fun t ts l hp => hp
    have := ha.wait_le n
    grind [wait]
  | @deliverReply n p' ms hm =>
    by_cases he : n = p
    · subst he
      have hw : ∀ q, q ≠ p' → wait ((s.pop p' n).setReplies n (s.replies n + 1)) n q =
          wait s n q := by
        intro q hq
        grind [wait]
      have hw' : wait ((s.pop p' n).setReplies n (s.replies n + 1)) n p' + 1 = wait s n p' := by
        grind [wait]
      refine ⟨fun hn => ?_, fun t ht => ?_⟩
      · have := (ha.free hn).2 p'
        omega
      · obtain ⟨ts, l, hp, hle, hsum⟩ := ha.held t ht
        have hchange := sum_change (f := fun q => l.count q + wait
          ((s.pop p' n).setReplies n (s.replies n + 1)) n q)
          (g := fun q => l.count q + wait s n q) p' fun q hq => by rw [hw q hq]
        refine ⟨ts, l, hp, fun q => ?_, ?_⟩
        · by_cases hq : q = p'
          · subst hq
            have := hle q
            omega
          · rw [hw q hq]
            exact hle q
        · rw [setReplies_replies, Function.update_self]
          omega
    · exact ha.frame (by grind) (by grind) (fun q => by grind [wait]) (by grind)
  | _ => exact ha.frame (by grind) (by grind) (fun q => by grind [wait]) (by grind)

/-! ## the order of the requests -/

/-- the requests of `q` that come before `p`'s stay settled, when all that is put into `l` has not
been sent to `p` before -/
theorem Settled.step {p q : ν} {ts : ℕ} {l l' : List Msg} (hs : Settled net s p ts q l)
    (h : Inv net s) (st : Step net ok s s') (hc : ts ≤ s.clock q)
    (hl : ∀ ts', .request ts' ∈ l' → .request ts' ∈ l ∨ ∃ t, (s.phase q t).live = some ts' ∧
      p ∈ (s.phase q t).unsent (net.peers q)) :
    Settled net s' p ts q l' := by
  intro t' ts' hl' hlt
  have hold : (s.phase q t').live = some ts' := by
    refine (st.live hl').resolve_right fun hfresh => ?_
    have := net.rank_lt_of_stamp (p := p) (q := q) (hc.trans_lt hfresh.2.2.1)
    exact absurd hlt this.asymm
  obtain ⟨hu, hn⟩ := hs t' ts' hold hlt
  refine ⟨fun hm => hu ?_, fun hm => ?_⟩
  · cases st <;> grind
  · rcases hl ts' hm with hm | ⟨t, ht, hm⟩
    · exact hn hm
    · exact hu (h.unique q t t' ts' ht hold ▸ hm)

theorem step_cleared (h : Inv net s) (st : Step net ok s s') {p q : ν} {t : τ} {ts : ℕ}
    {l : List ν} (hp : s'.phase p t = .sending ts l) (hne : q ≠ p) (hq : q ∉ l)
    (hm : .request ts ∉ s'.chan p q) (hn : s'.pending q p = false) (hf : net.Full) :
    Settled net s' p ts q ((s'.chan q p).rtakeWhile (· ≠ .reply)) := by
  have hpeer := (hf.mem_peers p q).mpr hne
  have hpre : s.pending q p = false ∧
      (∃ l, s.phase p t = .sending ts l ∧ q ∉ l ∧ .request ts ∉ s.chan p q) ∨
      s.phase p t = .sending ts l ∧ s'.phase = s.phase ∧ s'.chan q p = s.chan q p ++ [.reply] ∧
        ∀ t' ts', (s.phase q t').live = some ts' → p ∈ (s.phase q t').unsent (net.peers q) →
          ¬ net.rank q ts' < net.rank p ts := by
    cases st <;> grind
  rcases hpre with ⟨hn', l', hp', hq', hm'⟩ | ⟨hp', he, hc, hg⟩
  · have hu : q ∉ (s.phase p t).unsent (net.peers p) := by rw [hp']; exact hq'
    have hl : (s.phase p t).live = some ts := by rw [hp']; rfl
    refine (h.cleared p t ts l' q hp' hne hq' hm' hn').step h st
      (h.le_clock_of_sent hl hne hu hm').2 fun ts' hr => ?_
    refine (st.window hr).imp_right fun ⟨t', rest, ht'⟩ => ⟨t', ?_, ?_⟩
    · rw [ht']; rfl
    · rw [ht']; exact List.mem_cons_self
  · rw [hc, List.rtakeWhile_concat_neg _ _ _ (by simp)]
    intro t' ts' hl' hlt
    rw [he] at hl' ⊢
    exact ⟨fun hu => hg t' ts' hl' hu hlt, List.not_mem_nil⟩

theorem step_ahead (h : Inv net s) (st : Step net ok s s') {p q : ν} {t : τ} {ts : ℕ}
    (hp : (s'.phase p t).ahead) (hl : (s'.phase p t).live = some ts) (hq : q ≠ p) :
    .request ts ∉ s'.chan p q ∧ Settled net s' p ts q (s'.chan q p) := by
  have hpre : (s.phase p t).ahead ∧ (s.phase p t).live = some ts ∨
      s.phase p t = .sending ts [] ∧ (net.peers p).length ≤ s.replies p := by
    cases st <;> grind
  have hold : (s.phase p t).live = some ts ∧ (s.phase p t).unsent (net.peers p) = [] ∧
      .request ts ∉ s.chan p q ∧ Settled net s p ts q (s.chan q p) := by
    rcases hpre with ⟨ha, hl⟩ | ⟨hs, hr⟩
    · exact ⟨hl, Phase.unsent_of_ahead ha, h.ahead p t ts q ha hl hq⟩
    · -- all answers have come, so none is under way
      obtain ⟨ts', l', hp', -, hsum⟩ := (h.account p).held t (h.holder p t ts _ hs)
      obtain ⟨rfl, rfl⟩ := Phase.sending.inj (hp'.symm.trans hs)
      have hzero : ∑ q, (([] : List ν).count q + wait s p q) = 0 := by omega
      have hw := (Nat.add_eq_zero_iff.mp
        (Finset.sum_eq_zero_iff.mp hzero q (Finset.mem_univ q))).2
      simp only [wait, Nat.add_eq_zero_iff, List.countP_eq_zero, List.count_eq_zero,
        Bool.toNat_eq_zero] at hw
      have hm : .request ts' ∉ s.chan p q := fun hm => hw.1.1 _ hm rfl
      have hcl := h.cleared p t ts' [] q hs hq List.not_mem_nil hm hw.1.2
      rw [List.rtakeWhile_eq_self_iff.mpr fun m hm => by
        simpa using fun he : m = .reply => hw.2 (he ▸ hm)] at hcl
      exact ⟨by rw [hs]; rfl, by rw [hs]; rfl, hm, hcl⟩
  obtain ⟨hl, hu, hm, hs⟩ := hold
  have hc := (h.le_clock_of_sent hl hq (by rw [hu]; exact List.not_mem_nil) hm).2
  refine ⟨fun hm' => ?_, hs.step h st hc fun ts' hr => ?_⟩
  · rcases st.chan p q with he | ⟨m, he⟩ | ⟨m, he, hnew⟩
    · exact hm (he ▸ hm')
    · exact hm (by rw [he]; exact List.mem_cons_of_mem _ hm')
    · rw [he, List.mem_append, List.mem_singleton] at hm'
      obtain ⟨t', rest, ht', -⟩ := hnew ts (hm'.resolve_left hm).symm
      obtain rfl := h.unique p t t' ts hl (by rw [ht']; rfl)
      rw [ht'] at hu
      cases hu
  · rcases st.chan q p with he | ⟨m, he⟩ | ⟨m, he, hnew⟩
    · exact Or.inl (he ▸ hr)
    · exact Or.inl (by rw [he]; exact List.mem_cons_of_mem _ hr)
    · rw [he, List.mem_append, List.mem_singleton] at hr
      refine hr.imp_right fun hr => ?_
      obtain ⟨t', rest, ht', -⟩ := hnew ts' hr.symm
      exact ⟨t', by rw [ht']; rfl, by rw [ht']; exact List.mem_cons_self⟩

theorem step_inside (hf : net.Full) (h : Inv net s) (st : Step net ok s s') {p : ν} {t : τ} {ts : ℕ}
    (hp : (s'.phase p t).inside) (hl : (s'.phase p t).live = some ts) :
    (s'.queue p).head? = some (net.rank p ts) ∧ ∀ p' t' ts', (s'.phase p' t').live = some ts' →
      net.rank p' ts' ≤ net.rank p ts → p' = p ∧ t' = t := by
  have hpre : (s.phase p t).inside ∧ (s.phase p t).live = some ts ∨
      s.phase p t = .heading ts ∧ (s.queue p).head? = some (net.rank p ts) ∧
      (∀ t' ts', s.phase p t' = .stamped ts' → ¬ ts' < ts) := by
    cases st <;> grind
  have hold : (s.queue p).head? = some (net.rank p ts) ∧ ∀ p' t' ts',
      (s.phase p' t').live = some ts' → net.rank p' ts' ≤ net.rank p ts → p' = p ∧ t' = t := by
    rcases hpre with ⟨hp, hl⟩ | ⟨hp, hh, hg⟩
    · exact h.inside p t ts hp hl
    · exact ⟨hh, fun p' t' ts' hl' hle => inside_of_enter h hp hh hg hl' hle hf⟩
  have ha : (s.phase p t).ahead ∧ (s.phase p t).live = some ts := by
    rcases hpre with ⟨hp, hl⟩ | ⟨hp, -⟩
    · exact ⟨Phase.ahead_of_inside hp, hl⟩
    · rw [hp]; exact ⟨rfl, rfl⟩
  have hle : ∀ p' t' ts', (s.phase p' t').live = some ts' →
      net.rank p ts ≤ net.rank p' ts' := by
    intro p' t' ts' hl'
    rcases le_total (net.rank p ts) (net.rank p' ts') with hle | hle
    · exact hle
    · obtain ⟨rfl, rfl⟩ := hold.2 p' t' ts' hl' hle
      exact (Option.some.inj (ha.2.symm.trans hl')) ▸ le_rfl
  refine ⟨?_, fun p' t' ts' hl' hle' => ?_⟩
  · cases st with
    | @enqueue p' t' ts' hp' =>
      have := hle p' t' ts' (by rw [hp']; rfl)
      grind [head_insert]
    | @deliverRequest n p' ts' ms hm =>
      obtain ⟨t', hl'⟩ := h.request p' n ts' (by rw [hm]; simp)
      have := hle p' t' ts' hl'
      grind [head_insert]
    | @deliverRelease n p' r ms hm =>
      -- at the node of the critical section no entry is dead
      have hne : n ≠ p := by
        rintro rfl
        obtain ⟨x, dead, alive, hd⟩ := h.tail_of_release hm
        have hlt := (hd.dead x (by simp)).lt n t ts ha.2
        have hh := hold.1
        rw [hd.queue] at hh
        exact absurd hlt (by rw [Option.some.inj hh]; exact lt_irrefl _)
      grind
    | @unlock p' t' ts' hp' =>
      have hne : p' ≠ p := by
        rintro rfl
        have hl' : (s.phase p' t').live = some ts' := by rw [hp']; rfl
        have hh := (h.inside p' t' ts' (by rw [hp']; rfl) hl').1
        have hr := Option.some.inj (hold.1.symm.trans hh)
        obtain ⟨-, rfl⟩ := hold.2 p' t' ts' hl' hr.ge
        grind
      grind
    | _ => exact hold.1
  · rcases st.live hl' with hl' | ⟨-, -, hc, -⟩
    · exact hold.2 p' t' ts' hl' hle'
    · have hlt := net.rank_lt_of_stamp (p := p) (q := p')
        ((h.le_clock_of_ahead ha.1 ha.2 p').trans_lt hc)
      exact absurd hle' (not_le.mpr hlt)

/-! ## the invariant -/

theorem inv_step (hf : net.Full) (h : Inv net s) (st : Step net ok s s') : Inv net s' where
  rest := step_rest h st
  clock_live _ _ _ := step_clock_live h st
  clock_queue _ _ := step_clock_queue h st
  unique _ _ _ _ := step_unique h st
  self := step_self hf h st
  request _ _ _ := step_request hf h st
  sorted := step_sorted h st
  own _ _ _ := step_own hf h st
  placed _ _ _ _ := step_placed hf h st
  split := step_split hf h st
  holder _ _ _ _ := step_holder h st
  account := step_account hf h st
  cleared _ _ _ _ _ hp hne hq hm hn := step_cleared h st hp hne hq hm hn hf
  ahead _ _ _ _ := step_ahead h st
  inside _ _ _ := step_inside hf h st

theorem inv_init : Inv net (init : State ν τ) where
  rest _ _ := List.nil_suffix
  clock_live _ _ _ h := by cases h
  clock_queue _ _ h := by cases h
  unique _ _ _ _ h := by cases h
  self _ := ⟨rfl, rfl⟩
  request _ _ _ h := by cases h
  sorted _ := List.Pairwise.nil
  own _ _ _ h := by cases h
  placed _ _ _ _ h := by cases h
  split n := ⟨[], [], rfl, by simp [outstanding, owing, init], by simp, by simp⟩
  holder _ _ _ _ h := by cases h
  account p := ⟨fun _ => ⟨rfl, fun q => rfl⟩, fun _ h => by cases h⟩
  cleared _ _ _ _ _ h := by cases h
  ahead _ _ _ _ h := by cases h
  inside _ _ _ h := by cases h

end LamportLock
