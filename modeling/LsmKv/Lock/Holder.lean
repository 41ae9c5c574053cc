import LsmKv.Lib.LamportLock.Holder
import LsmKv.Lock.Exclusion

/-!
# The holder of the lock, as its peers see it

A peer tells the holder from the head of its own `lock_queue`, and a RELEASE_LOCK takes whatever
stands there.  Both are right only if the RELEASE_LOCK of the holder before has come, on a
channel of its own.

* `InTime`               no other node's release with a timestamp up to that of the message is
                         still to come;
* `HolderOk`             the condition on a step of a node with one handler thread;
* `Accepted`             the message finds the request of its sender at the head of the queue;
* `holder_accepted`      it holds of every write and release of a run that meets the condition;
* `write_overtakes`      a write that comes before the release of the holder before.
-/

set_option linter.unusedSectionVars false

namespace LsmKv

open LamportLock Run

variable {ν τ : Type} [DecidableEq ν] [DecidableEq τ]

/-! ## the queue -/

section requests
variable {d : Deployment ν} {c c' : Cluster ν τ}

/-- what stands in the queues are requests -/
def OnlyRequests (q : List PqueueData) : Prop := ∀ x ∈ q, x.message.messageType = .requestLock

theorem OnlyRequests.enqueue {q q' : List PqueueData} {x : PqueueData} (hq : OnlyRequests q)
    (hx : x.message.messageType = .requestLock) (he : enqueue q x = some q') :
    OnlyRequests q' := by
  rw [enqueue_eq] at he
  split_ifs at he
  obtain rfl := Option.some.inj he
  intro y hy
  rcases SortedQueue.mem_insert.mp hy with rfl | hy
  · exact hx
  · exact hq y hy

theorem OnlyRequests.dequeue {q : List PqueueData} (hq : OnlyRequests q) :
    OnlyRequests (dequeue q).2 := fun x hx => hq x (List.mem_of_mem_tail hx)

/-- a thread queues its request, or takes the first one -/
theorem advance_queue {n : LockNode ν τ} {id : ℕ} {peers : List (Fin maxPeers × ν)} {t : τ}
    {r : LockNode ν τ × List (ν × PeerMessage)} (h : n.advance id peers t = some r) :
    r.1.lockQueue = n.lockQueue ∨ r.1.lockQueue = (dequeue n.lockQueue).2 ∨
      ∃ msg, n.threads t = .stamped msg ∧ enqueue n.lockQueue msg = some r.1.lockQueue := by
  unfold LockNode.advance at h
  split at h
  · rename_i msg hp
    cases he : enqueue n.lockQueue msg with
    | none =>
      rw [he] at h
      obtain rfl := Option.some.inj h
      exact Or.inl rfl
    | some q =>
      rw [he] at h
      obtain rfl := Option.some.inj h
      exact Or.inr (Or.inr ⟨msg, hp, he⟩)
  · obtain ⟨-, h⟩ := Option.ite_none_right_eq_some.mp h
    obtain rfl := Option.some.inj h
    exact Or.inl rfl
  · obtain rfl := Option.some.inj h
    exact Or.inl rfl
  · obtain rfl := Option.some.inj h
    exact Or.inl rfl
  · obtain ⟨-, h⟩ := Option.ite_none_right_eq_some.mp h
    obtain rfl := Option.some.inj h
    exact Or.inl rfl
  · obtain ⟨-, h⟩ := Option.ite_none_right_eq_some.mp h
    obtain rfl := Option.some.inj h
    exact Or.inl rfl
  · obtain rfl := Option.some.inj h
    exact Or.inl rfl
  · obtain rfl := Option.some.inj h
    exact Or.inl rfl
  · -- the request is dequeued
    obtain rfl := Option.some.inj h
    exact Or.inr (Or.inl rfl)
  · obtain rfl := Option.some.inj h
    exact Or.inl rfl
  · obtain rfl := Option.some.inj h
    exact Or.inl rfl
  · obtain rfl := Option.some.inj h
    exact Or.inl rfl
  · cases h
  · cases h

theorem advance_requests {n : LockNode ν τ} {id : ℕ} {peers : List (Fin maxPeers × ν)} {t : τ}
    {r : LockNode ν τ × List (ν × PeerMessage)} (hq : OnlyRequests n.lockQueue)
    (hn : (n.threads t).OfNode id) (h : n.advance id peers t = some r) :
    OnlyRequests r.1.lockQueue := by
  rcases advance_queue h with he | he | ⟨msg, hp, he⟩
  · rw [he]
    exact hq
  · rw [he]
    exact hq.dequeue
  · rw [hp] at hn
    exact hq.enqueue hn.1 he

theorem handle_requests {n : LockNode ν τ} {id id' : ℕ} {m : PeerMessage} {q : ν}
    {r : LockNode ν τ × List (ν × PeerMessage)} (hq : OnlyRequests n.lockQueue)
    (h : n.handlePeerMessage id m q id' = some r) : OnlyRequests r.1.lockQueue := by
  unfold LockNode.handlePeerMessage at h
  cases hty : m.messageType with
  | requestLock =>
    have hin : OnlyRequests ((enqueue n.lockQueue ⟨n.next, m⟩).getD n.lockQueue) := by
      cases he : enqueue n.lockQueue ⟨n.next, m⟩ with
      | none => exact hq
      | some q' => exact hq.enqueue hty he
    simp only [hty] at h
    split at h
    · cases h
    · split at h
      all_goals obtain rfl := Option.some.inj h
      all_goals exact hin
  | releaseLock =>
    simp only [hty] at h
    obtain rfl := Option.some.inj h
    exact hq.dequeue
  | replyLock =>
    simp only [hty] at h
    split at h
    · obtain rfl := Option.some.inj h
      split_ifs
      all_goals exact hq
    · cases h
  | serverWrite =>
    simp only [hty] at h
    split at h
    · cases h
    · split at h
      · obtain ⟨store, -, rfl⟩ := Option.map_eq_some_iff.mp h
        exact hq
      · obtain rfl := Option.some.inj h
        exact hq

theorem requests_put {p : ν} {r : LockNode ν τ × List (ν × PeerMessage)}
    (hq : ∀ p, OnlyRequests (c.nodes p).lockQueue) (hr : OnlyRequests r.1.lockQueue) (p' : ν) :
    OnlyRequests ((c.put p r).nodes p').lockQueue := by
  rw [Cluster.put_nodes, Function.update_apply]
  split_ifs
  · exact hr
  · exact hq p'

theorem requests_step {a : LockAct ν τ} (ht : NodeTagged d c)
    (hq : ∀ p, OnlyRequests (c.nodes p).lockQueue) (h : c.step d a = some c') (p : ν) :
    OnlyRequests (c'.nodes p).lockQueue := by
  cases a with
  | lock p' t =>
    obtain ⟨n, hn, rfl⟩ := Option.map_eq_some_iff.mp h
    refine requests_put (r := (n, [])) hq ?_ p
    unfold LockNode.distributedLock at hn
    split at hn
    · obtain rfl := Option.some.inj hn
      exact hq p'
    · cases hn
  | advance p' t =>
    obtain ⟨r, hr, rfl⟩ := Option.map_eq_some_iff.mp h
    exact requests_put hq (advance_requests (hq p') (ht.thread p' t) hr) p
  | serve p' t txid line =>
    obtain ⟨n, hn, rfl⟩ := Option.map_eq_some_iff.mp h
    refine requests_put (r := (n, [])) hq ?_ p
    unfold LockNode.serve at hn
    split at hn
    · simp only [Option.bind_eq_bind, Option.bind_eq_some_iff] at hn
      obtain ⟨⟨wt, k, v⟩, -, ⟨resp, store⟩, -, hn⟩ := hn
      obtain rfl := Option.some.inj hn
      exact hq p'
    · cases hn
  | deliver q p' =>
    obtain ⟨m, ms, r, -, hr, rfl⟩ := Cluster.step_deliver h
    exact requests_put (c := c.pop q p') hq (handle_requests (hq p') hr) p

end requests

/-! ## the condition -/

/-- the timestamp of the release at hand, and the peers that it has still to be sent to -/
def ThreadPhase.release : ThreadPhase ν → Option (ℕ × List ν)
  | .releasing _ release rest => some (release.timestamp, rest.map Prod.snd)
  | .idle | .stamped _ | .queued _ | .sending _ _ | .marking _ _ _ | .heading _ | .critical _
  | .served _ _ _ _ | .writing _ _ _ | .dequeued _ => none

/-- No other node has a release, with a timestamp up to that of `m`, on its way to `p` or still to
be sent there. -/
def InTime (c : Cluster ν τ) (q p : ν) (m : PeerMessage) : Prop :=
  ∀ j, j ≠ q →
    (∀ r ∈ c.chan j p, r.messageType = .releaseLock → m.timestamp < r.timestamp) ∧
    ∀ t, ∀ x ∈ ((c.nodes j).threads t).release, p ∈ x.2 → m.timestamp < x.1

instance decInTime [Fintype ν] [Fintype τ] (c : Cluster ν τ) (q p : ν) (m : PeerMessage) :
    Decidable (InTime c q p m) :=
  inferInstanceAs (Decidable (∀ j, j ≠ q → _ ∧
    ∀ t, ∀ x ∈ ((c.nodes j).threads t).release, _ → _))

/-- No stamp of a request wraps around, replies are given under `AnswerOk`, and a write or a
release does not come before an earlier release of another node. -/
def HolderOk (d : Deployment ν) (c : Cluster ν Unit) : LockAct ν Unit → Prop
  | .lock p _ => (c.nodes p).timestamp + 1 < 2 ^ 32
  | .advance _ _ => True
  | .serve _ _ _ _ => True
  | .deliver q p => ∀ m ∈ (c.chan q p).head?,
      (m.messageType = .requestLock ∧ ¬ (c.nodes p).defers m (d.nodeId q) ∨
        m.messageType = .replyLock ∧ (c.nodes p).pending q = true → AnswerOk d c p q) ∧
      (m.messageType = .releaseLock ∨ m.messageType = .serverWrite → InTime c q p m)

instance decHolderOk [Fintype ν] (d : Deployment ν) (c : Cluster ν Unit) :
    (a : LockAct ν Unit) → Decidable (HolderOk d c a)
  | .lock _ _ => inferInstanceAs (Decidable (_ < _))
  | .advance _ _ => inferInstanceAs (Decidable True)
  | .serve _ _ _ _ => inferInstanceAs (Decidable True)
  | .deliver q p => inferInstanceAs (Decidable (∀ m ∈ (c.chan q p).head?, (_ → _) ∧ (_ → _)))

theorem InTime.timely {c : Cluster ν τ} {q p : ν} {m : PeerMessage} (h : InTime c q p m)
    (clk : ℕ) : Timely (c.abs.setClock p clk) p q m.timestamp := by
  rintro j hj r (hr | ⟨t, ts, rest, hp, hn⟩)
  · have hr : .release r ∈ (c.chan j p).map PeerMessage.abs := hr
    obtain ⟨m', hm', he⟩ := List.mem_map.mp hr
    unfold PeerMessage.abs at he
    cases hty : m'.messageType with
    | releaseLock =>
      rw [hty] at he
      obtain rfl := Msg.release.inj he
      exact (h j hj).1 m' hm' hty
    | _ => rw [hty] at he; cases he
  · have hp : ((c.nodes j).threads t).abs = .releasing ts r rest := hp
    refine (h j hj).2 t (r, rest) ?_ hn
    cases hph : (c.nodes j).threads t with
    | releasing msg release rest' =>
      rw [hph] at hp
      obtain ⟨-, rfl, rfl⟩ := Phase.releasing.inj hp
      exact rfl
    | _ => rw [hph] at hp; cases hp

/-! ## the run -/

section holder
variable [Fintype ν] {d : Deployment ν} {c c' : Cluster ν Unit}

theorem card_of_full (hd : d.Full) (p : ν) : Fintype.card ν = repliesQuorum + 1 := by
  have hne : ((d.peers p).map Prod.snd).toFinset = Finset.univ.erase p := by
    ext q
    rw [List.mem_toFinset, hd.mem_peers, Finset.mem_erase]
    simp
  have hcard := List.toFinset_card_of_nodup (hd.nodup p)
  rw [hne, Finset.card_erase_of_mem (Finset.mem_univ p), List.length_map, hd.quorum,
    Finset.card_univ] at hcard
  have hpos : 0 < Fintype.card ν := Fintype.card_pos_iff.mpr ⟨p⟩
  omega

/-- with one thread a node, and as many entries as nodes, the lock's condition is met -/
theorem HolderOk.lockOk (hd : d.Full) (ho : Order d.net c.abs) {a : LockAct ν Unit}
    (h : HolderOk d c a) : LockOk d c a := by
  cases a with
  | lock p t => exact h
  | advance p t =>
    intro msg hm t' msg' hm'
    cases hph : (c.nodes p).threads t' with
    | stamped _ =>
      have hm : msg ∈ ((c.nodes p).threads t').waiting := hm
      rw [hph] at hm
      cases hm
    | _ => rw [hph] at hm'; cases hm'
  | serve p t txid line => trivial
  | deliver q p =>
    intro m hm
    refine ⟨fun _ => ?_, (h m hm).1⟩
    have hlen := ho.length_le p
    rw [Cluster.abs_queue, List.length_map, card_of_full hd p] at hlen
    exact hlen.trans_lt (by decide)

/-- what holds in the states of a run -/
structure Held (d : Deployment ν) (c : Cluster ν Unit) : Prop where
  tagged : NodeTagged d c
  inv : Inv d.net c.abs
  order : Order d.net c.abs
  requests : ∀ p, OnlyRequests (c.nodes p).lockQueue

theorem held_step (hd : d.Full) (hi : Held d c) {a : LockAct ν Unit} (hok : HolderOk d c a)
    (h : c.step d a = some c') : Held d c' := by
  have hs : Relation.ReflTransGen (Step d.net Timely) c.abs c'.abs := by
    refine refine_step hd hi.inv hi.tagged h (hok.lockOk hd hi.order) ?_
    rintro q p m ms rfl hm hty clk
    exact ((hok m (by rw [hm]; rfl)).2 hty).timely clk
  obtain ⟨hinv, horder⟩ := order_steps hd.net hi.inv hi.order hs
  exact ⟨tagged_step hi.tagged h, hinv, horder, requests_step hi.tagged hi.requests h⟩

theorem held_init : Held d (Cluster.init : Cluster ν Unit) :=
  ⟨tagged_init, inv_init, order_init, fun _ _ hx => by cases hx⟩

/-- The message `m` of `q` finds the request of `q` at the head of the queue of `p`: a write is
given to the store, and a release takes that request. -/
structure Accepted (d : Deployment ν) (c : Cluster ν Unit) (q p : ν) (m : PeerMessage) : Prop where
  head : ∃ x l, (c.nodes p).lockQueue = x :: l ∧ x.message.messageType = .requestLock ∧
    x.message.nodeId = d.nodeId q
  write : m.messageType = .serverWrite →
    (c.nodes p).handlePeerMessage (d.nodeId p) m q (d.nodeId q) =
      (handleServerWrite (c.nodes p).store m.writeType m.key m.value).map fun store =>
        ({ (c.nodes p).updateTimestamp m.timestamp with store := store }, [])
  release : m.messageType = .releaseLock → ∃ x l, (c.nodes p).lockQueue = x :: l ∧
    x.message.nodeId = d.nodeId q ∧
      (c.nodes p).handlePeerMessage (d.nodeId p) m q (d.nodeId q) =
        some ({ (c.nodes p).updateTimestamp m.timestamp with lockQueue := l }, [])

/-- a write or a release that is delivered is accepted -/
def Accepts (d : Deployment ν) (c : Cluster ν Unit) : LockAct ν Unit → Prop
  | .deliver q p => ∀ m ∈ (c.chan q p).head?,
      m.messageType = .releaseLock ∨ m.messageType = .serverWrite → Accepted d c q p m
  | .lock _ _ | .advance _ _ | .serve _ _ _ _ => True

theorem Held.head (hi : Held d c) {q p : ν} {m : PeerMessage} {ms : List PeerMessage}
    (hm : c.chan q p = m :: ms) (hty : m.messageType = .releaseLock ∨ m.messageType = .serverWrite)
    (ht : InTime c q p m) : ∃ x l, (c.nodes p).lockQueue = x :: l ∧
      x.message.messageType = .requestLock ∧ x.message.nodeId = d.nodeId q := by
  have hchan : c.abs.chan q p = m.abs :: ms.map PeerMessage.abs := by
    rw [Cluster.abs_chan, hm]
    rfl
  have hsent : Sent c.abs q p m.timestamp := by
    unfold Sent
    rw [hchan]
    rcases hty with hty | hty
    · exact Or.inr (Or.inl (by simp [PeerMessage.abs, hty]))
    · exact Or.inl (by simp [PeerMessage.abs, hty])
  have htimely : Timely c.abs p q m.timestamp := by
    have := ht.timely (c.abs.clock p)
    rwa [State.setClock_self rfl] at this
  obtain ⟨y, l, hq, hy⟩ := hi.order.head hsent htimely
  rw [Cluster.abs_queue] at hq
  obtain ⟨x, l', hx, rfl, -⟩ := List.map_eq_cons_iff.mp hq
  exact ⟨x, l', hx, hi.requests p x (by rw [hx]; exact List.mem_cons_self), hy⟩

theorem Held.accepts (hi : Held d c) {a : LockAct ν Unit} (hok : HolderOk d c a) :
    Accepts d c a := by
  cases a with
  | deliver q p =>
    intro m hm hty
    obtain ⟨ms, hms⟩ := List.head?_eq_some_iff.mp hm
    obtain ⟨x, l, hq, hx, hid⟩ := hi.head hms hty ((hok m hm).2 hty)
    have hq' : ((c.nodes p).updateTimestamp m.timestamp).lockQueue = x :: l := hq
    have hnode : m.nodeId = x.message.nodeId := by
      rw [hid]
      exact hi.tagged.chan q p m (by rw [hms]; exact List.mem_cons_self)
    refine ⟨⟨x, l, hq, hx, hid⟩, fun hw => ?_, fun hr => ⟨x, l, hq, hid, ?_⟩⟩
    · unfold LockNode.handlePeerMessage
      simp only [hw, hq', peek, List.head?_cons, if_pos hnode]
      rfl
    · unfold LockNode.handlePeerMessage
      simp only [hr, hq', dequeue, List.tail_cons]
  | _ => trivial

/-- **Every write and every release finds the request of its sender at the head of the queue**, in
every run whose steps meet the condition. -/
theorem holder_accepted (hd : d.Full) {as : List (LockAct ν Unit)}
    (hok : Guarded (Cluster.step d) (HolderOk d) Cluster.init as) :
    Guarded (Cluster.step d) (Accepts d) Cluster.init as :=
  hok.of_inv (fun _ _ _ hi hok hs => held_step hd hi hok hs) (fun _ _ hi hok => hi.accepts hok)
    held_init

end holder

/-! ## three nodes -/

/-- Node `q` gets the lock, and `p` waits; `q` writes and releases the lock, and its release has
reached `p` and not `r`; `p` gets the lock, and its write is on its way. -/
def overtakingRun (p q r : ν) : List (LockAct ν Unit) :=
  [[.lock q ()], List.replicate 6 (.advance q ()),
    [.deliver q p, .deliver q r, .deliver p q, .deliver r q, .advance q (), .advance q ()],
    [.lock p ()], List.replicate 6 (.advance p ()),
    [.deliver p q, .deliver p r, .deliver q p, .deliver r p, .advance p ()],
    [.serve q () 7 "PUT a 1".toList], List.replicate 6 (.advance q ()),
    [.deliver q p, .deliver q p, .deliver q r, .advance p (), .serve p () 8 "PUT a 2".toList],
    List.replicate 3 (.advance p ())].flatten

/-- **The write of the holder comes to node 2 before the release**, and is not taken. -/
theorem write_overtakes : threeNodes.Full ∧ ∃ c,
    run (Cluster.step threeNodes) Cluster.init (overtakingRun 0 1 2) = some c ∧
      ((c.nodes 0).threads ()).Holds ∧ ¬ Accepts threeNodes c (.deliver 0 2) := by
  refine ⟨threeNodes_full, ?_⟩
  have h : (run (Cluster.step threeNodes) Cluster.init (overtakingRun 0 1 2)).map (fun c =>
      (decide ((c.nodes 0).threads ()).Holds, (c.chan 0 2).head?.map PeerMessage.messageType,
        (c.nodes 2).lockQueue.head?.map fun x => x.message.nodeId)) =
          some (true, some .serverWrite, some 1) := by decide +kernel
  obtain ⟨c, hc, he⟩ := Option.map_eq_some_iff.mp h
  obtain ⟨hholds, he⟩ := Prod.mk.inj he
  obtain ⟨hchan, hhead⟩ := Prod.mk.inj he
  refine ⟨c, hc, of_decide_eq_true hholds, fun hacc => ?_⟩
  obtain ⟨m, hm, hty⟩ := Option.map_eq_some_iff.mp hchan
  obtain ⟨x, l, hq, -, hid⟩ := (hacc m hm (Or.inr hty)).head
  rw [hq] at hhead
  exact absurd (hid.symm.trans (Option.some.inj hhead)) (by decide)

/-- the release comes first -/
def inOrderRun (p q r : ν) : List (LockAct ν Unit) :=
  overtakingRun p q r ++ [.advance q (), .deliver q r, .deliver p r]

theorem holder_accepted_inOrderRun :
    (run (Cluster.step threeNodes) Cluster.init (inOrderRun 0 1 2)).isSome ∧
      Guarded (Cluster.step threeNodes) (Accepts threeNodes) Cluster.init (inOrderRun 0 1 2) :=
  ⟨by decide +kernel, holder_accepted threeNodes_full (by decide +kernel)⟩

end LsmKv
