import LsmKv.Lib.LamportLock.Progress
import LsmKv.Lock.Exclusion
import LsmKv.Lock.Trace

/-!
# The lock comes to rest (`blocking_node.c`)

Between two requests of clients, threads go on and messages are handled.

* `Cluster.work`     what is still to be done;
* `Advanced`         what the next step of a thread changes;
* `Stuck`            no thread can go on, and no message can be handled;
* `Withheld`         a node keeps a reply back and has no earlier request that waits;
* `lock_settles`     after at most that many steps the lock is held or free, or one of two things
                     has gone wrong;
* `lock_blocks`      a node that keeps a reply back for good.
-/

set_option linter.unusedSectionVars false

namespace LsmKv

open LamportLock Run

variable {ν τ : Type} [DecidableEq ν] [DecidableEq τ]

/-! ## work -/

/-- a request may still be answered late -/
def PeerMessage.work (m : PeerMessage) : ℕ := if m.messageType = .requestLock then 4 else 1

theorem PeerMessage.work_le (m : PeerMessage) : m.work ≤ 4 := by
  unfold work
  split_ifs <;> omega

theorem PeerMessage.work_pos (m : PeerMessage) : 0 < m.work := by
  unfold work
  split_ifs <;> omega

/-- the steps that a thread may still take, with `k` peers, up to its critical section or the
return of `distributed_unlock` -/
def ThreadPhase.work (k : ℕ) : ThreadPhase ν → ℕ
  | .stamped _ => 6 * k + 4
  | .queued _ => 6 * k + 3
  | .sending _ rest => 6 * rest.length + 2
  | .marking _ _ rest => 6 * rest.length + 3
  | .heading _ => 1
  | .served _ _ _ _ => 10 * k + 4
  | .writing _ _ rest => 5 * rest.length + (5 * k + 3)
  | .dequeued _ => 5 * k + 2
  | .releasing _ _ rest => 5 * rest.length + 1
  | .idle | .critical _ => 0

def outWork (out : List (ν × PeerMessage)) : ℕ := (out.map fun x => x.2.work).sum

/-! ## a thread -/

/-- the request of a thread that stands in the queue of its node -/
def ThreadPhase.standing : ThreadPhase ν → Option PqueueData
  | .queued msg | .sending msg _ | .marking msg _ _ | .heading msg | .critical msg
  | .served msg _ _ _ | .writing msg _ _ => some msg
  | .idle | .stamped _ | .dequeued _ | .releasing _ _ _ => none

/-- the thread goes on to `ph` -/
structure Advanced (k : ℕ) (n : LockNode ν τ) (t : τ) (r : LockNode ν τ × List (ν × PeerMessage))
    (ph : ThreadPhase ν) : Prop where
  threads : r.1.threads = Function.update n.threads t ph
  pending : r.1.pending = n.pending
  work : ph.work k + outWork r.2 < (n.threads t).work k
  /-- its request is put into the queue, or it takes the first one -/
  queue : n.lockQueue.Sublist r.1.lockQueue ∧
      (∀ msg ∈ ph.standing, msg ∈ (n.threads t).standing ∨ msg ∈ r.1.lockQueue) ∨
    ph.standing = none ∧ (n.threads t).abs.inside ∧ r.1.lockQueue = n.lockQueue.tail

section advance
variable {n : LockNode ν τ} {t : τ} {nodeId : ℕ} {peers : List (Fin maxPeers × ν)}
  {r : LockNode ν τ × List (ν × PeerMessage)}

/-- a step that leaves the queue alone -/
theorem advanced_of_eq {k : ℕ} {ph ph' : ThreadPhase ν} {n' : LockNode ν τ}
    {out : List (ν × PeerMessage)} (hp : n.threads t = ph)
    (ht : n'.threads = Function.update n.threads t ph') (hpend : n'.pending = n.pending)
    (hw : ph'.work k + outWork out < ph.work k) (hq : n'.lockQueue = n.lockQueue)
    (hs : ∀ msg ∈ ph'.standing, msg ∈ ph.standing) : Advanced k n t (n', out) ph' where
  threads := ht
  pending := hpend
  work := hp ▸ hw
  queue := Or.inl ⟨hq ▸ List.Sublist.refl _, fun msg hm => Or.inl (hp ▸ hs msg hm)⟩

theorem advance_advanced (h : n.advance nodeId peers t = some r) :
    ∃ ph, Advanced peers.length n t r ph := by
  unfold LockNode.advance at h
  cases hp : n.threads t with
  | idle => rw [hp] at h; cases h
  | critical msg => rw [hp] at h; cases h
  | stamped msg =>
    rw [hp] at h
    cases he : enqueue n.lockQueue msg with
    | none =>
      simp only [he] at h
      obtain rfl := Option.some.inj h
      exact ⟨_, advanced_of_eq hp rfl rfl (Nat.succ_pos _) rfl (by simp [ThreadPhase.standing])⟩
    | some q =>
      simp only [he] at h
      obtain rfl := Option.some.inj h
      rw [enqueue_eq] at he
      obtain ⟨-, he⟩ := Option.ite_none_left_eq_some.mp he
      obtain rfl := Option.some.inj he
      refine ⟨.queued msg, rfl, rfl, ?_, Or.inl ⟨SortedQueue.sublist_insert _, fun m hm => ?_⟩⟩
      · rw [hp]
        exact Nat.lt_succ_self _
      · obtain rfl := Option.some.inj hm
        exact Or.inr (SortedQueue.mem_insert.mpr (Or.inl rfl))
  | queued msg =>
    rw [hp] at h
    obtain ⟨-, h⟩ := Option.ite_none_right_eq_some.mp h
    obtain rfl := Option.some.inj h
    exact ⟨_, advanced_of_eq hp rfl rfl (Nat.lt_succ_self _) rfl fun _ hm => hm⟩
  | sending msg rest =>
    rw [hp] at h
    cases rest with
    | nil =>
      obtain ⟨-, h⟩ := Option.ite_none_right_eq_some.mp h
      obtain rfl := Option.some.inj h
      exact ⟨_, advanced_of_eq hp rfl rfl (Nat.lt_succ_self _) rfl fun _ hm => hm⟩
    | cons a rest =>
      obtain rfl := Option.some.inj h
      refine ⟨.marking msg a.1 rest, advanced_of_eq hp rfl rfl ?_ rfl fun _ hm => hm⟩
      have hle := msg.message.work_le
      show 6 * rest.length + 3 + (msg.message.work + 0) < 6 * (rest.length + 1) + 2
      omega
  | marking msg i rest =>
    rw [hp] at h
    obtain rfl := Option.some.inj h
    exact ⟨_, advanced_of_eq hp rfl rfl (Nat.lt_succ_self _) rfl fun _ hm => hm⟩
  | heading msg =>
    rw [hp] at h
    obtain ⟨-, h⟩ := Option.ite_none_right_eq_some.mp h
    obtain rfl := Option.some.inj h
    exact ⟨_, advanced_of_eq hp rfl rfl Nat.one_pos rfl fun _ hm => hm⟩
  | served msg w key value =>
    rw [hp] at h
    obtain rfl := Option.some.inj h
    refine ⟨.writing msg ⟨.serverWrite, n.stamp.timestamp, nodeId, key, value, w⟩ peers,
      advanced_of_eq hp rfl rfl ?_ rfl fun _ hm => hm⟩
    show 5 * peers.length + (5 * peers.length + 3) + 0 < 10 * peers.length + 4
    omega
  | writing msg write rest =>
    rw [hp] at h
    cases rest with
    | nil =>
      obtain rfl := Option.some.inj h
      refine ⟨.dequeued msg, rfl, rfl, ?_, Or.inr ⟨rfl, by rw [hp]; rfl, rfl⟩⟩
      rw [hp]
      show 5 * peers.length + 2 + 0 < 5 * 0 + (5 * peers.length + 3)
      omega
    | cons a rest =>
      obtain ⟨i, q⟩ := a
      obtain rfl := Option.some.inj h
      refine ⟨.writing msg write rest, advanced_of_eq hp rfl rfl ?_ rfl fun _ hm => hm⟩
      have hle := write.work_le
      show 5 * rest.length + (5 * peers.length + 3) + (write.work + 0) <
        5 * (rest.length + 1) + (5 * peers.length + 3)
      omega
  | dequeued msg =>
    rw [hp] at h
    obtain rfl := Option.some.inj h
    exact ⟨_, advanced_of_eq hp rfl rfl (Nat.lt_succ_self _) rfl fun _ hm => hm⟩
  | releasing msg release rest =>
    rw [hp] at h
    cases rest with
    | nil =>
      obtain rfl := Option.some.inj h
      exact ⟨_, advanced_of_eq hp rfl rfl (Nat.succ_pos _) rfl fun _ hm => hm⟩
    | cons a rest =>
      obtain ⟨i, q⟩ := a
      obtain rfl := Option.some.inj h
      refine ⟨.releasing msg release rest, advanced_of_eq hp rfl rfl ?_ rfl fun _ hm => hm⟩
      have hle := release.work_le
      show 5 * rest.length + 1 + (release.work + 0) < 5 * (rest.length + 1) + 1
      omega

end advance

/-! ## a message -/

section handle
variable {n : LockNode ν τ} {m : PeerMessage} {q : ν} {id id' : ℕ}
  {r : LockNode ν τ × List (ν × PeerMessage)}

/-- what a message does to the queue -/
theorem handle_queue (h : n.handlePeerMessage id m q id' = some r) :
    r.1.threads = n.threads ∧ (n.lockQueue.Sublist r.1.lockQueue ∨
      m.messageType = .releaseLock ∧ r.1.lockQueue = n.lockQueue.tail) := by
  unfold LockNode.handlePeerMessage at h
  cases hty : m.messageType with
  | requestLock =>
    have hin : n.lockQueue.Sublist ((enqueue n.lockQueue ⟨n.next, m⟩).getD n.lockQueue) := by
      rw [enqueue_eq]
      split_ifs
      · exact List.Sublist.refl _
      · exact SortedQueue.sublist_insert _
    simp only [hty] at h
    split at h
    · cases h
    · split at h
      all_goals obtain rfl := Option.some.inj h
      all_goals exact ⟨rfl, Or.inl hin⟩
  | releaseLock =>
    simp only [hty] at h
    obtain rfl := Option.some.inj h
    exact ⟨rfl, Or.inr ⟨rfl, rfl⟩⟩
  | replyLock =>
    simp only [hty] at h
    split at h
    · obtain rfl := Option.some.inj h
      split_ifs
      all_goals exact ⟨rfl, Or.inl (List.Sublist.refl _)⟩
    · cases h
  | serverWrite =>
    simp only [hty] at h
    split at h
    · cases h
    · split at h
      · obtain ⟨store, -, rfl⟩ := Option.map_eq_some_iff.mp h
        exact ⟨rfl, Or.inl (List.Sublist.refl _)⟩
      · obtain rfl := Option.some.inj h
        exact ⟨rfl, Or.inl (List.Sublist.refl _)⟩

theorem handle_out (hty : m.messageType = .releaseLock ∨ m.messageType = .serverWrite)
    (h : n.handlePeerMessage id m q id' = some r) : r.2 = [] := by
  unfold LockNode.handlePeerMessage at h
  rcases hty with hty | hty
  · simp only [hty] at h
    obtain rfl := Option.some.inj h
    rfl
  · simp only [hty] at h
    split at h
    · cases h
    · split at h
      · obtain ⟨store, -, rfl⟩ := Option.map_eq_some_iff.mp h
        rfl
      · obtain rfl := Option.some.inj h
        rfl

variable [Fintype ν] [Fintype τ]

/-- the steps of the threads of a node, and the replies that it has kept back -/
def LockNode.work (k : ℕ) (n : LockNode ν τ) : ℕ :=
  ∑ t, (n.threads t).work k + ∑ q, 2 * (n.pending q).toNat

theorem work_of_threads {k : ℕ} {n n' : LockNode ν τ} {t : τ} {ph : ThreadPhase ν}
    (ht : n'.threads = Function.update n.threads t ph) (hp : n'.pending = n.pending) :
    n'.work k + (n.threads t).work k = n.work k + ph.work k := by
  have hsum := sum_change (f := fun t' => (n'.threads t').work k)
    (g := fun t' => (n.threads t').work k) t fun t' hne => by
      show (n'.threads t').work k = (n.threads t').work k
      rw [ht, Function.update_of_ne hne]
  have hself : (n'.threads t).work k = ph.work k := by rw [ht, Function.update_self]
  unfold LockNode.work
  rw [hp]
  omega

theorem work_of_pending {k : ℕ} {n n' : LockNode ν τ} {q : ν} {b : Bool}
    (ht : n'.threads = n.threads) (hp : n'.pending = Function.update n.pending q b) :
    n'.work k + 2 * (n.pending q).toNat = n.work k + 2 * b.toNat := by
  have hsum := sum_change (f := fun q' => 2 * (n'.pending q').toNat)
    (g := fun q' => 2 * (n.pending q').toNat) q fun q' hne => by
      show 2 * (n'.pending q').toNat = 2 * (n.pending q').toNat
      rw [hp, Function.update_of_ne hne]
  have hself : n'.pending q = b := by rw [hp, Function.update_self]
  unfold LockNode.work
  rw [ht]
  rw [hself] at hsum
  omega

theorem outWork_reply {reply : PeerMessage} (h : reply.messageType = .replyLock) :
    outWork [(q, reply)] = 1 := by
  show reply.work + 0 = 1
  unfold PeerMessage.work
  rw [h]
  rfl

/-- **A message is work done**: a reply that it brings about costs less. -/
theorem handle_work {k : ℕ} (h : n.handlePeerMessage id m q id' = some r) :
    r.1.work k + outWork r.2 < n.work k + m.work := by
  cases hty : m.messageType with
  | requestLock =>
    have hm : m.work = 4 := by unfold PeerMessage.work; rw [hty]; rfl
    obtain ⟨hthr, -, -, ⟨hpend, reply, hreply, hout⟩ | ⟨hpend, hout⟩⟩ :=
      LockNode.handle_request hty h
    · have hw : r.1.work k = n.work k := by unfold LockNode.work; rw [hthr, hpend]
      rw [hout, outWork_reply hreply, hw, hm]
      omega
    · have hw := work_of_pending (k := k) hthr hpend
      rw [Bool.toNat_true] at hw
      rw [hout, hm]
      show r.1.work k + 0 < _
      omega
  | replyLock =>
    have hm := m.work_pos
    obtain ⟨hthr, -, -, hpend, ⟨hset, reply, hreply, hout⟩ | ⟨hunset, hout⟩⟩ :=
      LockNode.handle_reply hty h
    · have hw := work_of_pending (k := k) hthr hpend
      rw [hset, Bool.toNat_true, Bool.toNat_false] at hw
      rw [hout, outWork_reply hreply]
      omega
    · have hw := work_of_pending (k := k) hthr hpend
      rw [hunset] at hw
      rw [hout]
      show r.1.work k + 0 < _
      omega
  | releaseLock =>
    have hm := m.work_pos
    have hw : r.1.work k = n.work k := by
      unfold LockNode.work
      rw [(handle_queue h).1, (LockNode.handle_other (Or.inl hty) h).pending]
    rw [handle_out (Or.inl hty) h, hw]
    show n.work k + 0 < _
    omega
  | serverWrite =>
    have hm := m.work_pos
    have hw : r.1.work k = n.work k := by
      unfold LockNode.work
      rw [(handle_queue h).1, (LockNode.handle_other (Or.inr hty) h).pending]
    rw [handle_out (Or.inr hty) h, hw]
    show n.work k + 0 < _
    omega

end handle

/-! ## the cluster -/

section cluster
variable [Fintype ν] [Fintype τ] {d : Deployment ν} {c c' : Cluster ν τ}

/-- the messages from a node -/
def sentWork (c : Cluster ν τ) (p : ν) : ℕ := ∑ q, ((c.chan p q).map PeerMessage.work).sum

/-- what is still to be done -/
def Cluster.work (d : Deployment ν) (c : Cluster ν τ) : ℕ :=
  ∑ p, ((c.nodes p).work (d.peers p).length + sentWork c p)

/-- what a change at one node makes of it -/
theorem work_change (d : Deployment ν) (c c' : Cluster ν τ) (p : ν)
    (hn : ∀ p', p' ≠ p → c'.nodes p' = c.nodes p')
    (hs : ∀ p', p' ≠ p → sentWork c' p' = sentWork c p') :
    c'.work d + ((c.nodes p).work (d.peers p).length + sentWork c p) =
      c.work d + ((c'.nodes p).work (d.peers p).length + sentWork c' p) := by
  refine sum_change (f := fun p' => (c'.nodes p').work (d.peers p').length + sentWork c' p')
    (g := fun p' => (c.nodes p').work (d.peers p').length + sentWork c p') p fun p' hne => ?_
  show (c'.nodes p').work _ + sentWork c' p' = (c.nodes p').work _ + sentWork c p'
  rw [hn p' hne, hs p' hne]

theorem work_setNode (d : Deployment ν) (c : Cluster ν τ) (p : ν) (n : LockNode ν τ) :
    (c.setNode p n).work d + (c.nodes p).work (d.peers p).length =
      c.work d + n.work (d.peers p).length := by
  have h := work_change d c (c.setNode p n) p
    (fun p' hne => by rw [Cluster.setNode_nodes, Function.update_of_ne hne]) fun _ _ => rfl
  have hself : (c.setNode p n).nodes p = n := by rw [Cluster.setNode_nodes, Function.update_self]
  have hsent : sentWork (c.setNode p n) p = sentWork c p := rfl
  rw [hself, hsent] at h
  omega

/-- a channel that a step changes -/
theorem work_chan (d : Deployment ν) (c c' : Cluster ν τ) (p q : ν) (hn : c'.nodes = c.nodes)
    (hc : ∀ p' q', ¬ (p' = p ∧ q' = q) → c'.chan p' q' = c.chan p' q') :
    c'.work d + ((c.chan p q).map PeerMessage.work).sum =
      c.work d + ((c'.chan p q).map PeerMessage.work).sum := by
  have hp := work_change d c c' p (fun _ _ => by rw [hn]) fun p' hne => by
    unfold sentWork
    exact Finset.sum_congr rfl fun q' _ => by rw [hc p' q' fun h => hne h.1]
  have hq := sum_change (f := fun q' => ((c'.chan p q').map PeerMessage.work).sum)
    (g := fun q' => ((c.chan p q').map PeerMessage.work).sum) q fun q' hne => by
      show ((c'.chan p q').map _).sum = ((c.chan p q').map _).sum
      rw [hc p q' fun h => hne h.2]
  rw [hn] at hp
  unfold sentWork at hp
  omega

theorem work_push (d : Deployment ν) (c : Cluster ν τ) (p q : ν) (m : PeerMessage) :
    (c.push p q m).work d = c.work d + m.work := by
  have h := work_chan d c (c.push p q m) p q rfl fun p' q' hne => by
    rw [Cluster.push_chan, if_neg hne]
  rw [Cluster.push_chan, if_pos ⟨rfl, rfl⟩, List.map_append, List.sum_append] at h
  simp only [List.map_cons, List.map_nil, List.sum_cons, List.sum_nil] at h
  omega

theorem work_pop (d : Deployment ν) {c : Cluster ν τ} {p q : ν} {m : PeerMessage}
    {ms : List PeerMessage} (hm : c.chan p q = m :: ms) :
    (c.pop p q).work d + m.work = c.work d := by
  have h := work_chan d c (c.pop p q) p q rfl fun p' q' hne => by
    rw [Cluster.pop_chan, if_neg hne]
  rw [Cluster.pop_chan, if_pos ⟨rfl, rfl⟩, hm, List.tail_cons, List.map_cons, List.sum_cons] at h
  omega

theorem work_put (d : Deployment ν) (c : Cluster ν τ) (p : ν)
    (r : LockNode ν τ × List (ν × PeerMessage)) :
    (c.put p r).work d + (c.nodes p).work (d.peers p).length =
      c.work d + (r.1.work (d.peers p).length + outWork r.2) := by
  have hout : ∀ (out : List (ν × PeerMessage)) (c : Cluster ν τ),
      (out.foldl (fun c x => c.push p x.1 x.2) c).work d = c.work d + outWork out := by
    intro out
    induction out with
    | nil => exact fun c => rfl
    | cons x out ih =>
      intro c
      rw [List.foldl_cons, ih, work_push]
      exact Nat.add_assoc ..
  have hnode := work_setNode d c p r.1
  have hput : (c.put p r).work d = (c.setNode p r.1).work d + outWork r.2 := hout r.2 _
  omega

/-- the steps that need no client -/
def LockAct.Internal : LockAct ν τ → Prop
  | .advance _ _ | .deliver _ _ => True
  | .lock _ _ | .serve _ _ _ _ => False

/-- **Every step without a client is work done.** -/
theorem work_step {a : LockAct ν τ} (ha : a.Internal) (h : c.step d a = some c') :
    c'.work d < c.work d := by
  cases a with
  | lock p t => exact ha.elim
  | serve p t txid line => exact ha.elim
  | advance p t =>
    obtain ⟨r, hr, rfl⟩ := Option.map_eq_some_iff.mp h
    obtain ⟨ph, had⟩ := advance_advanced hr
    have hput := work_put d c p r
    have hnode := work_of_threads (k := (d.peers p).length) had.threads had.pending
    have hlt := had.work
    omega
  | deliver q p =>
    obtain ⟨m, ms, r, hm, hr, rfl⟩ := Cluster.step_deliver h
    have hput := work_put d (c.pop q p) p r
    have hpop := work_pop d hm
    have hnode : (c.pop q p).nodes p = c.nodes p := rfl
    have hlt := handle_work (k := (d.peers p).length) hr
    rw [hnode] at hput
    omega

end cluster

/-! ## the requests in the queues -/

section standing
variable [Fintype ν] [Fintype τ] {d : Deployment ν} {c c' : Cluster ν τ}

/-- the request of every thread stands in the queue of its node -/
def Queued (c : Cluster ν τ) : Prop :=
  ∀ p t, ∀ msg ∈ ((c.nodes p).threads t).standing, msg ∈ (c.nodes p).lockQueue

theorem ThreadPhase.request_of_standing {ph : ThreadPhase ν} {msg : PqueueData}
    (h : ph.standing = some msg) : ph.request = some msg := by
  cases ph <;> simp_all [standing, request]

theorem ThreadPhase.entered_of_standing {ph : ThreadPhase ν} {msg : PqueueData}
    (h : ph.standing = some msg) : ph.abs.entered = true := by
  cases ph <;> simp_all [standing, abs]

/-- a request is known by its rank -/
theorem live_of_standing (ht : NodeTagged d c) {p : ν} {t : τ} {msg : PqueueData}
    (h : ((c.nodes p).threads t).standing = some msg) :
    (c.abs.phase p t).live = some msg.message.timestamp ∧
      msg.rank = d.net.rank p msg.message.timestamp := by
  have hreq := ThreadPhase.request_of_standing h
  refine ⟨?_, rank_of_nodeId ((ht.thread p t).request hreq)⟩
  rw [Cluster.abs_phase, ThreadPhase.live_abs, hreq]
  rfl

theorem Queued.init : Queued (Cluster.init : Cluster ν τ) := fun _ _ _ hm => by cases hm

theorem Queued.put (hq : Queued c) {p : ν} {r : LockNode ν τ × List (ν × PeerMessage)}
    (hr : ∀ t, ∀ msg ∈ (r.1.threads t).standing, msg ∈ r.1.lockQueue) : Queued (c.put p r) := by
  intro p' t
  rw [Cluster.put_nodes, Function.update_apply]
  split_ifs
  · exact hr t
  · exact hq p' t

/-- a thread that gets another request, or none, with a queue that loses nothing -/
theorem Queued.thread (hq : Queued c) {p : ν} (t : τ) (ph : ThreadPhase ν)
    {r : LockNode ν τ × List (ν × PeerMessage)}
    (ht : r.1.threads = Function.update (c.nodes p).threads t ph)
    (hsub : (c.nodes p).lockQueue.Sublist r.1.lockQueue)
    (hph : ∀ msg ∈ ph.standing,
      msg ∈ ((c.nodes p).threads t).standing ∨ msg ∈ r.1.lockQueue) : Queued (c.put p r) := by
  refine hq.put fun t' msg hm => ?_
  rw [ht, Function.update_apply] at hm
  split_ifs at hm
  · exact (hph msg hm).elim (fun h => hsub.subset (hq p t msg h)) id
  · exact hsub.subset (hq p t' msg hm)

/-- the first request of a queue is taken, and it is that of no other thread of the node -/
theorem Queued.mem_tail (hq : Queued c) {p : ν} {t : τ} {msg : PqueueData}
    (hm : ((c.nodes p).threads t).standing = some msg)
    (hne : ∀ x, (c.nodes p).lockQueue.head? = some x → x ≠ msg) :
    msg ∈ (c.nodes p).lockQueue.tail := by
  have hmem := hq p t msg hm
  cases hl : (c.nodes p).lockQueue with
  | nil => rw [hl] at hmem; cases hmem
  | cons x l =>
    rw [hl] at hmem hne
    exact (List.mem_cons.mp hmem).resolve_left (hne x rfl).symm

theorem queued_step (hd : d.Full) (hi : Inv d.net c.abs) (ht : NodeTagged d c) (hq : Queued c)
    {a : LockAct ν τ} (h : c.step d a = some c') : Queued c' := by
  cases a with
  | lock p t =>
    obtain ⟨n, hn, rfl⟩ := Option.map_eq_some_iff.mp h
    unfold LockNode.distributedLock at hn
    split at hn
    · obtain rfl := Option.some.inj hn
      exact hq.thread t _ (r := (_, [])) rfl (List.Sublist.refl _) fun msg hm => by cases hm
    · cases hn
  | serve p t txid line =>
    obtain ⟨n, hn, rfl⟩ := Option.map_eq_some_iff.mp h
    unfold LockNode.serve at hn
    split at hn
    · rename_i msg hp
      simp only [Option.bind_eq_bind, Option.bind_eq_some_iff] at hn
      obtain ⟨⟨wt, k, v⟩, -, ⟨resp, store⟩, -, hn⟩ := hn
      obtain rfl := Option.some.inj hn
      refine hq.thread t (.served msg wt k v) (r := (_, [])) rfl
        (List.Sublist.refl _) fun msg' hm => Or.inl ?_
      rw [hp]
      exact hm
    · cases hn
  | advance p t =>
    obtain ⟨r, hr, rfl⟩ := Option.map_eq_some_iff.mp h
    obtain ⟨ph, had⟩ := advance_advanced hr
    rcases had.queue with ⟨hsub, hph⟩ | ⟨hnone, hin, htail⟩
    · exact hq.thread _ _ had.threads hsub hph
    · refine hq.put fun t' msg hm => ?_
      rw [had.threads, Function.update_apply] at hm
      split_ifs at hm with hne
      · rw [hnone] at hm
        cases hm
      · rw [htail]
        refine hq.mem_tail hm fun x hx he => hne ?_
        -- the first one is the request of the critical section
        obtain ⟨ts, hl⟩ := Phase.live_of_ahead (Phase.ahead_of_inside hin)
        have hhead := (hi.inside p t ts hin hl).1
        rw [Cluster.abs_queue, List.head?_map, hx, he] at hhead
        obtain ⟨hl', hrank⟩ := live_of_standing ht hm
        rw [Option.map_some, hrank] at hhead
        obtain ⟨-, hts⟩ := hd.net.rank_inj.mp (Option.some.inj hhead)
        exact hi.unique p t' t ts (hts ▸ hl') hl
  | deliver q p =>
    obtain ⟨m, ms, r, hm, hr, rfl⟩ := Cluster.step_deliver h
    obtain ⟨hthr, hqueue⟩ := handle_queue hr
    have hpop : Queued (c.pop q p) := hq
    refine hpop.put fun t msg hmsg => ?_
    rw [hthr] at hmsg
    rcases hqueue with hsub | ⟨hty, htail⟩
    · exact hsub.subset (hq p t msg hmsg)
    · rw [htail]
      refine hq.mem_tail hmsg fun x hx he => ?_
      -- and here it is no request that is alive
      obtain ⟨hl, hrank⟩ := live_of_standing ht hmsg
      have hchan : c.abs.chan q p = .release m.timestamp :: ms.map PeerMessage.abs := by
        rw [Cluster.abs_chan, hm, List.map_cons, PeerMessage.abs, hty]
      obtain ⟨y, dead, alive, hs⟩ := hi.tail_of_release hchan
      have hhead : (c.abs.queue p).head? = some y := by rw [hs.queue]; rfl
      rw [Cluster.abs_queue, List.head?_map, hx, he, Option.map_some, hrank] at hhead
      obtain rfl := Option.some.inj hhead
      exact absurd ((hs.dead _ List.mem_cons_self).lt p t _ hl) (lt_irrefl _)

end standing

/-! ## at rest -/

section rest
variable [Fintype ν] [Fintype τ] {d : Deployment ν} {c c' : Cluster ν τ}

/-- no thread can go on, and no message can be handled -/
def Cluster.Stuck (d : Deployment ν) (c : Cluster ν τ) : Prop :=
  ∀ a : LockAct ν τ, a.Internal → c.step d a = none

/-- `p` has no defined result for a write of `q` -/
def Untaken (d : Deployment ν) (c : Cluster ν τ) (q p : ν) : Prop :=
  ∃ m ms, c.chan q p = m :: ms ∧ m.messageType = .serverWrite ∧
    (c.nodes p).handlePeerMessage (d.nodeId p) m q (d.nodeId q) = none

/-- `n` keeps back the reply to a request of `p`, and has no earlier one that waits for replies -/
def Withheld (c : Cluster ν τ) (n p : ν) : Prop :=
  (c.nodes n).pending p = true ∧ ∃ t, ∃ msg ∈ ((c.nodes p).threads t).asking,
    ∀ t', ∀ msg' ∈ ((c.nodes n).threads t').asking, ¬ msg'.rank < msg.rank

theorem advance_blocked {n : LockNode ν τ} {nodeId : ℕ} {peers : List (Fin maxPeers × ν)} {t : τ}
    (h : n.advance nodeId peers t = none) : n.threads t = .idle ∨
      (∃ msg, n.threads t = .critical msg) ∨
      (∃ msg, n.threads t = .queued msg ∧ n.mMutex ≠ none) ∨
      (∃ msg, n.threads t = .sending msg [] ∧ n.repliesReceived < repliesQuorum) ∨
      ∃ msg, n.threads t = .heading msg ∧ peek n.lockQueue ≠ some msg := by
  unfold LockNode.advance at h
  cases hp : n.threads t with
  | idle => exact Or.inl rfl
  | critical msg => exact Or.inr (Or.inl ⟨msg, rfl⟩)
  | stamped msg => rw [hp] at h; cases he : enqueue n.lockQueue msg <;> simp [he] at h
  | queued msg =>
    rw [hp] at h
    exact Or.inr (Or.inr (Or.inl ⟨msg, rfl, fun hm => by simp [hm] at h⟩))
  | sending msg rest =>
    rw [hp] at h
    cases rest with
    | nil =>
      refine Or.inr (Or.inr (Or.inr (Or.inl ⟨msg, rfl, Nat.lt_of_not_le fun hq => ?_⟩)))
      simp [hq] at h
    | cons a rest => cases h
  | heading msg =>
    rw [hp] at h
    exact Or.inr (Or.inr (Or.inr (Or.inr ⟨msg, rfl, fun hm => by simp [hm] at h⟩)))
  | marking msg i rest => rw [hp] at h; cases h
  | served msg w key value => rw [hp] at h; cases h
  | writing msg write rest => rw [hp] at h; cases rest <;> cases h
  | dequeued msg => rw [hp] at h; cases h
  | releasing msg release rest => rw [hp] at h; cases rest <;> cases h

/-- all messages but writes can be handled -/
theorem handle_blocked {n : LockNode ν τ} {m : PeerMessage} {q : ν} {id id' : ℕ}
    (hid : id' < maxPeers) (h : n.handlePeerMessage id m q id' = none) :
    m.messageType = .serverWrite := by
  unfold LockNode.handlePeerMessage at h
  cases hty : m.messageType with
  | serverWrite => rfl
  | requestLock =>
    simp only [hty] at h
    rw [if_neg (Nat.not_le.mpr hid)] at h
    split at h <;> cases h
  | releaseLock => simp only [hty] at h; cases h
  | replyLock =>
    simp only [hty] at h
    rw [dif_pos hid] at h
    cases h

theorem Cluster.Stuck.chan (hs : c.Stuck d) (hids : ∀ p, d.nodeId p < maxPeers)
    (htaken : ∀ q p, ¬ Untaken d c q p) (q p : ν) : c.chan q p = [] := by
  cases hm : c.chan q p with
  | nil => rfl
  | cons m ms =>
    have hnone := hs (.deliver q p) trivial
    unfold Cluster.step at hnone
    simp only [hm] at hnone
    have hhandle := Option.map_eq_none_iff.mp hnone
    exact absurd ⟨m, ms, hm, handle_blocked (hids q) hhandle, hhandle⟩ (htaken q p)

/-- the first request of a queue is known by its rank -/
theorem Queued.peek (hi : Inv d.net c.abs) (ht : NodeTagged d c) (hq : Queued c)
    {p : ν} {t : τ} {msg : PqueueData} (hm : ((c.nodes p).threads t).standing = some msg)
    (hhead : (c.abs.queue p).head? = some (d.net.rank p msg.message.timestamp)) :
    peek (c.nodes p).lockQueue = some msg := by
  have hmem := hq p t msg hm
  obtain ⟨hl, hrank⟩ := live_of_standing ht hm
  have hown := hi.own p t _ hl
  have hent : (c.abs.phase p t).entered = true := ThreadPhase.entered_of_standing hm
  rw [hent] at hown
  cases hqueue : (c.nodes p).lockQueue with
  | nil => rw [hqueue] at hmem; cases hmem
  | cons x l =>
    rw [Cluster.abs_queue, hqueue, List.map_cons] at hown hhead
    have hx : x.rank = d.net.rank p msg.message.timestamp := Option.some.inj hhead
    rw [hqueue] at hmem
    rcases List.mem_cons.mp hmem with he | hl'
    · rw [he]
      rfl
    · -- the rank would stand in the queue twice
      have hpos : 0 < (l.map PqueueData.rank).count (d.net.rank p msg.message.timestamp) :=
        List.count_pos_iff.mpr (hrank ▸ List.mem_map_of_mem hl')
      rw [hx, List.count_cons_self, Bool.toNat_true] at hown
      omega

theorem Cluster.Stuck.quiet (hd : d.Full) (hi : Inv d.net c.abs) (ht : NodeTagged d c)
    (hq : Queued c) (hs : c.Stuck d) (hchan : ∀ q p, c.chan q p = []) : Quiet d.net c.abs := by
  have hadv : ∀ p t, (c.nodes p).advance (d.nodeId p) (d.peers p) t = none := fun p t =>
    Option.map_eq_none_iff.mp (hs (.advance p t) trivial)
  refine ⟨fun p q => ?_, fun p t => ?_, fun p t ts hp => ?_, fun p t ts hp => ?_,
    fun p t ts hp => ?_⟩
  · rw [Cluster.abs_chan, hchan]
    rfl
  · rw [Cluster.abs_phase]
    rcases advance_blocked (hadv p t) with h | ⟨msg, h⟩ | ⟨msg, h, -⟩ | ⟨msg, h, -⟩ | ⟨msg, h, -⟩
    all_goals
      rw [h]
      trivial
  all_goals
    rw [Cluster.abs_phase] at hp
    rcases advance_blocked (hadv p t) with h | ⟨msg, h⟩ | ⟨msg, h, hm⟩ | ⟨msg, h, hr⟩ | ⟨msg, h, hk⟩
    all_goals
      rw [h] at hp
      cases hp
  · exact hm
  · have hlen : (d.net.peers p).length = repliesQuorum :=
      (List.length_map _).trans (hd.quorum p)
    rw [hlen]
    exact hr
  · exact fun hhead => hk (hq.peek hi ht (by rw [h]; rfl) hhead)

theorem defers_of_withheld (ht : NodeTagged d c) (hw : ∀ n p, ¬ Withheld c n p) :
    Defers d.net c.abs := by
  intro n p t ts l hpend hp
  obtain ⟨msg, ha, rfl⟩ := ThreadPhase.asking_of_abs hp
  by_contra hnone
  refine hw n p ⟨hpend, t, msg, ha, fun t' msg' ha' hlt => hnone ?_⟩
  have hid := (ht.thread p t).request (ThreadPhase.request_of_asking ha)
  have hid' := (ht.thread n t').request (ThreadPhase.request_of_asking ha')
  rw [rank_of_nodeId hid, rank_of_nodeId hid'] at hlt
  cases hp' : (c.nodes n).threads t' with
  | sending msg1 rest =>
    rw [hp'] at ha'
    obtain rfl := Option.some.inj ha'
    exact ⟨t', _, _, by rw [Cluster.abs_phase, hp']; rfl, hlt⟩
  | marking msg1 i rest =>
    rw [hp'] at ha'
    obtain rfl := Option.some.inj ha'
    exact ⟨t', _, _, by rw [Cluster.abs_phase, hp']; rfl, hlt⟩
  | _ => rw [hp'] at ha'; cases ha'

/-- what holds in the states of a run -/
structure LockKept (d : Deployment ν) (c : Cluster ν τ) : Prop where
  tagged : NodeTagged d c
  inv : Inv d.net c.abs
  queued : Queued c

theorem kept_run (hd : d.Full) {as : List (LockAct ν τ)}
    (hok : Guarded (Cluster.step d) (LockOk d) Cluster.init as)
    (hr : run (Cluster.step d) Cluster.init as = some c) : LockKept d c := by
  refine inv_of_guarded (fun c a c' (hi : LockKept d c) hc h => ?_) ?_ hok hr
  · have hs : Relation.ReflTransGen (Step d.net fun _ _ _ _ => True) c.abs c'.abs :=
      refine_step hd hi.inv hi.tagged h hc fun _ _ _ _ _ _ _ _ => trivial
    exact ⟨tagged_step hi.tagged h, inv_steps hd.net hi.inv hs,
      queued_step hd hi.inv hi.tagged hi.queued h⟩
  · exact ⟨tagged_init, inv_init, Queued.init⟩

/-- **The lock does not block.**  From every state of a run that meets the condition, threads and
messages go on for at most `work` steps.  Where they can go on no longer, all threads are idle or
one is in its critical section, or else a write is not taken or a reply withheld. -/
theorem lock_settles (hd : d.Full) (hids : ∀ p, d.nodeId p < maxPeers) {as bs : List (LockAct ν τ)}
    (hok : Guarded (Cluster.step d) (LockOk d) Cluster.init (as ++ bs))
    (hr : run (Cluster.step d) Cluster.init as = some c) (hint : ∀ b ∈ bs, b.Internal)
    (hr' : run (Cluster.step d) c bs = some c') :
    bs.length ≤ c.work d ∧ (c'.Stuck d →
      (∀ p t, (c'.nodes p).threads t = .idle) ∨
      (∃ p t msg, (c'.nodes p).threads t = .critical msg) ∨
      (∃ q p, Untaken d c' q p) ∨ ∃ n p, Withheld c' n p) := by
  constructor
  · have hlen := length_le_of_guarded (fun _ _ _ ha hs => work_step ha hs)
      (guarded_of_forall fun b hb _ => hint b hb) hr'
    exact (Nat.le_add_right _ _).trans hlen
  · intro hs
    have hrun : run (Cluster.step d) Cluster.init (as ++ bs) = some c' := by
      rw [run_append, hr]
      exact hr'
    have hk := kept_run hd hok hrun
    by_cases htaken : ∃ q p, Untaken d c' q p
    · exact Or.inr (Or.inr (Or.inl htaken))
    by_cases hheld : ∃ n p, Withheld c' n p
    · exact Or.inr (Or.inr (Or.inr hheld))
    by_cases hcrit : ∃ p t msg, (c'.nodes p).threads t = .critical msg
    · exact Or.inr (Or.inl hcrit)
    have hchan := hs.chan hids fun q p h => htaken ⟨q, p, h⟩
    have hquiet := hs.quiet hd hk.inv hk.tagged hk.queued hchan
    have hfree : ∀ p t ts, c'.abs.phase p t ≠ .critical ts := by
      intro p t ts hp
      rw [Cluster.abs_phase] at hp
      have hadv : (c'.nodes p).advance (d.nodeId p) (d.peers p) t = none :=
        Option.map_eq_none_iff.mp (hs (.advance p t) trivial)
      rcases advance_blocked hadv with h | ⟨msg, h⟩ | ⟨msg, h, -⟩ | ⟨msg, h, -⟩ | ⟨msg, h, -⟩
      all_goals
        rw [h] at hp
        cases hp
      exact hcrit ⟨p, t, msg, h⟩
    have hdefers := defers_of_withheld hk.tagged fun n p h => hheld ⟨n, p, h⟩
    refine Or.inl fun p t => ?_
    have hidle := hk.inv.idle_of_quiet hquiet hdefers hfree p t
    rw [Cluster.abs_phase] at hidle
    cases hp : (c'.nodes p).threads t with
    | idle => rfl
    | _ => rw [hp] at hidle; cases hidle

end rest

/-! ## three nodes -/

/-- Node `q` gets the lock and asks the others; `p` asks while `q` has it and waits; `q` puts
`a`. -/
def askedTwice (p q r : ν) : List (LockAct ν Unit) :=
  [[.lock q ()], List.replicate 6 (.advance q ()),
    [.deliver q p, .deliver q r, .deliver p q, .deliver r q, .advance q (), .advance q ()],
    [.lock p ()], List.replicate 6 (.advance p ()),
    [.deliver p q, .deliver p r, .deliver q p, .deliver r p, .advance p ()],
    [.serve q () 7 "PUT a 1".toList]].flatten

/-- `q` sends the write and the release, and `p` is at the head of its queue -/
def handedOn (p q r : ν) : List (LockAct ν Unit) :=
  [List.replicate 6 (.advance q ()), [.deliver q p, .deliver q p, .deliver q r, .advance p ()],
    [.advance q (), .deliver q r, .advance q ()]].flatten

theorem stuck_of_isNone {d : Deployment ν} {c : Cluster ν τ}
    (hadv : ∀ p t, (c.step d (.advance p t)).isNone)
    (hdel : ∀ q p, (c.step d (.deliver q p)).isNone) : c.Stuck d := by
  intro a ha
  cases a with
  | advance p t => exact Option.isNone_iff_eq_none.mp (hadv p t)
  | deliver q p => exact Option.isNone_iff_eq_none.mp (hdel q p)
  | _ => exact ha.elim

/-- Two nodes ask.  Where nothing can go on any longer, the second one is in its critical section
and the first is idle. -/
theorem lock_settles_granted : ∃ c c',
    run (Cluster.step threeNodes) Cluster.init (askedTwice 0 1 2) = some c ∧
      run (Cluster.step threeNodes) c (handedOn 0 1 2) = some c' ∧
      (handedOn (0 : Fin 3) 1 2).length ≤ c.work threeNodes ∧ c'.Stuck threeNodes ∧
      ((c'.nodes 0).threads ()).Holds ∧ ((c'.nodes 1).distributedLock 1 ()).isSome ∧
      ((∀ p t, (c'.nodes p).threads t = .idle) ∨
        (∃ p t msg, (c'.nodes p).threads t = .critical msg) ∨
        (∃ q p, Untaken threeNodes c' q p) ∨ ∃ n p, Withheld c' n p) := by
  have h : (run (Cluster.step threeNodes) Cluster.init
      (askedTwice 0 1 2 ++ handedOn 0 1 2)).map (fun c =>
        (decide ((∀ p t, (c.step threeNodes (.advance p t)).isNone) ∧
          ∀ q p, (c.step threeNodes (.deliver q p)).isNone),
          decide ((c.nodes 0).threads ()).Holds, ((c.nodes 1).distributedLock 1 ()).isSome))
        = some (true, true, true) := by
    decide +kernel
  obtain ⟨c', hc', he⟩ := Option.map_eq_some_iff.mp h
  obtain ⟨hnone, he⟩ := Prod.mk.inj he
  obtain ⟨hholds, hidle⟩ := Prod.mk.inj he
  obtain ⟨hadv, hdel⟩ := of_decide_eq_true hnone
  have hstuck := stuck_of_isNone hadv hdel
  rw [run_append] at hc'
  obtain ⟨c, hc, hrun⟩ := Option.bind_eq_some_iff.mp hc'
  have hint : ∀ b ∈ handedOn (0 : Fin 3) 1 2, b.Internal := by
    simp [handedOn, LockAct.Internal]
  obtain ⟨hlen, hrest⟩ := lock_settles threeNodes_full (by decide) (by decide +kernel) hc hint hrun
  exact ⟨c, c', hc, hrun, hlen, hstuck, of_decide_eq_true hholds, hidle, hrest hstuck⟩

/-- Node `p` takes the reply of `q` before it asks `r`, and marks what it has asked `r` where it
looks for `q`.  It writes and releases the lock, and `q` asks for it. -/
def blockedRun (p q r : ν) : List (LockAct ν Unit) :=
  [[.lock p ()], List.replicate 4 (.advance p ()), [.deliver p q, .deliver q p],
    List.replicate 2 (.advance p ()), [.deliver p r, .deliver r p],
    List.replicate 2 (.advance p ()), [.serve p () 7 "PUT a 1".toList],
    List.replicate 8 (.advance p ()),
    [.deliver p q, .deliver p q, .deliver p r, .deliver p r, .lock q ()],
    List.replicate 6 (.advance q ()), [.deliver q p, .deliver q r, .deliver r q]].flatten

/-- **Node 0 keeps its reply to node 1 back for good.** -/
theorem lock_blocks : threeNodes.Full ∧
    Guarded (Cluster.step threeNodes) (LockOk threeNodes) Cluster.init (blockedRun 0 1 2) ∧
    ∃ c, run (Cluster.step threeNodes) Cluster.init (blockedRun 0 1 2) = some c ∧
      c.Stuck threeNodes ∧ (c.nodes 0).threads () = .idle ∧
      ((c.nodes 1).threads ()).asking.isSome ∧ Withheld c 0 1 := by
  refine ⟨threeNodes_full, by decide +kernel, ?_⟩
  have h : (run (Cluster.step threeNodes) Cluster.init (blockedRun 0 1 2)).map (fun c =>
      (decide ((∀ p t, (c.step threeNodes (.advance p t)).isNone) ∧
        ∀ q p, (c.step threeNodes (.deliver q p)).isNone),
        (c.nodes 0).pending 1, ((c.nodes 1).threads ()).asking.isSome,
        ((c.nodes 0).distributedLock 0 ()).isSome)) = some (true, true, true, true) := by
    decide +kernel
  obtain ⟨c, hc, he⟩ := Option.map_eq_some_iff.mp h
  obtain ⟨hstuck, he⟩ := Prod.mk.inj he
  obtain ⟨hpend, he⟩ := Prod.mk.inj he
  obtain ⟨hask, hidle⟩ := Prod.mk.inj he
  have hidle : (c.nodes 0).threads () = .idle := by
    cases hp : (c.nodes 0).threads () with
    | idle => rfl
    | _ => rw [LockNode.distributedLock, hp] at hidle; cases hidle
  obtain ⟨hadv, hdel⟩ := of_decide_eq_true hstuck
  obtain ⟨msg, hmsg⟩ := Option.isSome_iff_exists.mp hask
  refine ⟨c, hc, stuck_of_isNone hadv hdel, hidle, hask, hpend, (), msg, hmsg,
    fun t' msg' hm => ?_⟩
  rw [hidle] at hm
  cases hm

end LsmKv
