import LsmKv.Lock
import LsmKv.Lib.LamportLock.Exclusion

/-!
# The nodes as users of the lock

* `Cluster.abs`          the state of the lock: ranks for messages with their addresses;
* `LockOk`, `AnswerOk`   the condition on a step: when a reply is given, no earlier request of the
                         own node is still to be sent to its receiver;
* `refine_lock`, `refine_advance`, `refine_serve`, `refine_deliver`   each step, as steps of the
                         lock;
* `NodeTagged`           every message carries the id of its sender;
* `refine_step`          every step that meets the condition is made of steps of the lock.
-/

set_option linter.unusedSectionVars false

namespace LsmKv

open LamportLock LamportLock.State SortedQueue Run

section views
variable {ν τ : Type}

/-- the nodes of a deployment as those of the lock -/
def Deployment.net (d : Deployment ν) : Net ν := ⟨d.nodeId, fun p => (d.peers p).map Prod.snd⟩

theorem Deployment.Full.net {d : Deployment ν} (h : d.Full) : d.net.Full :=
  ⟨h.nodeId_inj, h.mem_peers, h.nodup⟩

def PeerMessage.abs (m : PeerMessage) : Msg :=
  match m.messageType with
  | .requestLock => .request m.timestamp
  | .replyLock => .reply
  | .releaseLock => .release m.timestamp
  | .serverWrite => .write m.timestamp

namespace ThreadPhase

def abs : ThreadPhase ν → LamportLock.Phase ν
  | .idle => .idle
  | .stamped msg => .stamped msg.message.timestamp
  | .queued msg => .queued msg.message.timestamp
  | .sending msg rest => .sending msg.message.timestamp (rest.map Prod.snd)
  | .marking msg _ rest => .sending msg.message.timestamp (rest.map Prod.snd)
  | .heading msg => .heading msg.message.timestamp
  | .critical msg => .critical msg.message.timestamp
  | .served msg _ _ _ => .critical msg.message.timestamp
  | .writing msg write rest =>
    .writing msg.message.timestamp write.timestamp (rest.map Prod.snd)
  | .dequeued msg => .dequeued msg.message.timestamp
  | .releasing msg release rest =>
    .releasing msg.message.timestamp release.timestamp (rest.map Prod.snd)

/-- the request of the thread, until it is dequeued -/
def request : ThreadPhase ν → Option PqueueData
  | .stamped msg | .queued msg | .sending msg _ | .marking msg _ _ | .heading msg
  | .critical msg | .served msg _ _ _ | .writing msg _ _ => some msg
  | .idle | .dequeued _ | .releasing _ _ _ => none

/-- the peers that the request has not been sent to -/
def unsent (peers : List (Fin maxPeers × ν)) : ThreadPhase ν → List ν
  | .stamped _ | .queued _ => peers.map Prod.snd
  | .sending _ rest | .marking _ _ rest => rest.map Prod.snd
  | .idle | .heading _ | .critical _ | .served _ _ _ _ | .writing _ _ _ | .dequeued _
  | .releasing _ _ _ => []

/-- the request of the thread that holds `m_mutex` -/
def asking : ThreadPhase ν → Option PqueueData
  | .sending msg _ | .marking msg _ _ => some msg
  | .idle | .stamped _ | .queued _ | .heading _ | .critical _ | .served _ _ _ _
  | .writing _ _ _ | .dequeued _ | .releasing _ _ _ => none

/-- what the thread has made is its node's -/
def OfNode (nodeId : ℕ) : ThreadPhase ν → Prop
  | .stamped msg | .queued msg | .sending msg _ | .marking msg _ _ | .heading msg
  | .critical msg | .served msg _ _ _ | .dequeued msg =>
    msg.message.messageType = .requestLock ∧ msg.message.nodeId = nodeId
  | .writing msg write _ =>
    (msg.message.messageType = .requestLock ∧ msg.message.nodeId = nodeId) ∧
      write.messageType = .serverWrite ∧ write.nodeId = nodeId
  | .releasing msg release _ =>
    (msg.message.messageType = .requestLock ∧ msg.message.nodeId = nodeId) ∧
      release.messageType = .releaseLock ∧ release.nodeId = nodeId
  | .idle => True

/-- the request of a thread that waits for the head of the queue -/
def waiting : ThreadPhase ν → Option PqueueData
  | .heading msg => some msg
  | .idle | .stamped _ | .queued _ | .sending _ _ | .marking _ _ _ | .critical _ | .served _ _ _ _
  | .writing _ _ _ | .dequeued _ | .releasing _ _ _ => none

/-- the request of a thread that has yet to queue it -/
def unqueued : ThreadPhase ν → Option PqueueData
  | .stamped msg => some msg
  | .idle | .queued _ | .sending _ _ | .marking _ _ _ | .heading _ | .critical _ | .served _ _ _ _
  | .writing _ _ _ | .dequeued _ | .releasing _ _ _ => none

/-- between the return of `distributed_lock` and the call of `distributed_unlock` -/
def Holds : ThreadPhase ν → Prop
  | .critical _ | .served _ _ _ _ | .writing _ _ _ => True
  | .idle | .stamped _ | .queued _ | .sending _ _ | .marking _ _ _ | .heading _ | .dequeued _
  | .releasing _ _ _ => False

instance decHolds : (ph : ThreadPhase ν) → Decidable ph.Holds
  | .critical _ | .served _ _ _ _ | .writing _ _ _ => isTrue trivial
  | .idle | .stamped _ | .queued _ | .sending _ _ | .marking _ _ _ | .heading _ | .dequeued _
  | .releasing _ _ _ => isFalse id

theorem Holds.abs {ph : ThreadPhase ν} (h : ph.Holds) : ph.abs.inside := by
  cases ph <;> simp_all [Holds, ThreadPhase.abs]

theorem live_abs (ph : ThreadPhase ν) :
    ph.abs.live = ph.request.map fun msg => msg.message.timestamp := by
  cases ph <;> rfl

theorem unsent_abs (peers : List (Fin maxPeers × ν)) (ph : ThreadPhase ν) :
    ph.abs.unsent (peers.map Prod.snd) = ph.unsent peers := by
  cases ph <;> rfl

theorem asking_of_abs {ph : ThreadPhase ν} {ts : ℕ} {rest : List ν}
    (h : ph.abs = .sending ts rest) : ∃ msg, ph.asking = some msg ∧ msg.message.timestamp = ts := by
  cases ph <;> simp_all [abs, asking]

theorem stamped_of_abs {ph : ThreadPhase ν} {ts : ℕ} (h : ph.abs = .stamped ts) :
    ∃ msg, ph = .stamped msg ∧ msg.message.timestamp = ts := by
  cases ph <;> simp_all [abs]

theorem OfNode.request {ph : ThreadPhase ν} {nodeId : ℕ} {msg : PqueueData}
    (h : ph.OfNode nodeId) (hm : ph.request = some msg) : msg.message.nodeId = nodeId := by
  cases ph <;> simp_all [OfNode, ThreadPhase.request]

theorem request_of_asking {ph : ThreadPhase ν} {msg : PqueueData} (h : ph.asking = some msg) :
    ph.request = some msg := by
  cases ph <;> simp_all [asking, ThreadPhase.request]

end ThreadPhase

end views

variable {ν τ : Type} [DecidableEq ν] [DecidableEq τ]

/-- the state of the lock -/
@[simps] def Cluster.abs (c : Cluster ν τ) : State ν τ where
  clock p := (c.nodes p).timestamp
  queue p := (c.nodes p).lockQueue.map PqueueData.rank
  mutex p := (c.nodes p).mMutex
  replies p := (c.nodes p).repliesReceived
  pending n p := (c.nodes n).pending p
  phase p t := ((c.nodes p).threads t).abs
  chan p q := (c.chan p q).map PeerMessage.abs

/-- every message carries the id of its sender -/
structure NodeTagged (d : Deployment ν) (c : Cluster ν τ) : Prop where
  thread : ∀ p t, ((c.nodes p).threads t).OfNode (d.nodeId p)
  chan : ∀ p q, ∀ m ∈ c.chan p q, m.nodeId = d.nodeId p

namespace Cluster
variable {d : Deployment ν} {c c' : Cluster ν τ}

theorem abs_push (p q : ν) (m : PeerMessage) : (c.push p q m).abs = c.abs.push p q m.abs := by
  ext1 <;> try rfl
  funext p' q'
  simp only [abs_chan, push, State.push_chan]
  split_ifs
  · simp
  · rfl

theorem abs_pop (p q : ν) : (c.pop p q).abs = c.abs.pop p q := by
  ext1 <;> try rfl
  funext p' q'
  simp only [abs_chan, pop, State.pop_chan]
  split_ifs
  · simp
  · rfl

/-- a thread of a node goes on -/
theorem abs_setThread (p : ν) (t : τ) (n : LockNode ν τ) (ph : ThreadPhase ν)
    (ht : n.threads = Function.update (c.nodes p).threads t ph)
    (hp : n.pending = (c.nodes p).pending) :
    (c.setNode p n).abs = ((((c.abs.setClock p n.timestamp).setQueue p
      (n.lockQueue.map PqueueData.rank)).setMutex p n.mMutex).setReplies p
        n.repliesReceived).setPhase p t ph.abs := by
  refine State.ext (field_setNode LockNode.timestamp c p n)
    (field_setNode (fun n => n.lockQueue.map PqueueData.rank) c p n)
    (field_setNode LockNode.mMutex c p n) (field_setNode LockNode.repliesReceived c p n) ?_ ?_ rfl
  · funext p' q'
    exact congrFun (field_eq LockNode.pending rfl hp p') q'
  · funext p' t'
    rw [abs_phase, setNode_nodes, Function.update_apply, State.setPhase_phase]
    by_cases he : p' = p
    · rw [if_pos he, ht, Function.update_apply, he]
      by_cases het : t' = t
      · rw [if_pos het, if_pos ⟨rfl, het⟩]
      · rw [if_neg het, if_neg fun h => het h.2]
        rfl
    · rw [if_neg he, if_neg fun h => he h.1]
      rfl

/-- a thread of a node goes on and does nothing else -/
theorem abs_thread (p : ν) (t : τ) (ph : ThreadPhase ν) :
    (c.setNode p ((c.nodes p).setThread t ph)).abs = c.abs.setPhase p t ph.abs := by
  rw [abs_setThread p t _ ph, setClock_self, setQueue_self, setMutex_self, setReplies_self]
  all_goals rfl

/-- a thread sends a message -/
theorem abs_send (p q : ν) (t : τ) (ph : ThreadPhase ν) (m : PeerMessage) :
    ((c.setNode p ((c.nodes p).setThread t ph)).push p q m).abs
      = (c.abs.setPhase p t ph.abs).push p q m.abs := by
  rw [abs_push, abs_thread]

/-- a node handles a message of a peer -/
theorem abs_setPeer (p q : ν) (b : Bool) (n : LockNode ν τ)
    (ht : n.threads = (c.nodes p).threads) (hm : n.mMutex = (c.nodes p).mMutex)
    (hp : n.pending = Function.update (c.nodes p).pending q b) :
    (c.setNode p n).abs = (((c.abs.setClock p n.timestamp).setQueue p
      (n.lockQueue.map PqueueData.rank)).setReplies p n.repliesReceived).setPending p q b := by
  refine State.ext (field_setNode LockNode.timestamp c p n)
    (field_setNode (fun n => n.lockQueue.map PqueueData.rank) c p n)
    (funext (field_eq LockNode.mMutex rfl hm)) (field_setNode LockNode.repliesReceived c p n)
    ?_ ?_ rfl
  · funext p' q'
    rw [abs_pending, setNode_nodes, Function.update_apply, State.setPending_pending]
    by_cases he : p' = p
    · rw [if_pos he, hp, Function.update_apply, he]
      by_cases heq : q' = q
      · rw [if_pos heq, if_pos ⟨rfl, heq⟩]
      · rw [if_neg heq, if_neg fun h => heq h.2]
        rfl
    · rw [if_neg he, if_neg fun h => he h.1]
      rfl
  · funext p' t'
    exact field_eq (fun n => (n.threads t').abs) rfl (by rw [ht]) p'

/-- a node handles a message, and keeps its replies for later -/
theorem abs_setData (p : ν) (n : LockNode ν τ) (ht : n.threads = (c.nodes p).threads)
    (hm : n.mMutex = (c.nodes p).mMutex) (hp : n.pending = (c.nodes p).pending) :
    (c.setNode p n).abs = ((c.abs.setClock p n.timestamp).setQueue p
      (n.lockQueue.map PqueueData.rank)).setReplies p n.repliesReceived := by
  rw [abs_setPeer p p ((c.nodes p).pending p) n ht hm (hp.trans (Function.update_eq_self _ _).symm),
    setPending_self]
  rfl

end Cluster

/-! ## the condition -/

/-- When node `n` answers the request of `p`, no thread of `n` has an earlier request that it has
stamped but not sent to `p`. -/
def AnswerOk (d : Deployment ν) (c : Cluster ν τ) (n p : ν) : Prop :=
  ∀ t, ∀ msg ∈ ((c.nodes p).threads t).asking, ∀ t', ∀ msg' ∈ ((c.nodes n).threads t').request,
    p ∈ ((c.nodes n).threads t').unsent (d.peers n) → ¬ msg'.rank < msg.rank

/-- No stamp wraps around, no thread passes the head of its own queue while another one of its
node has an earlier stamp and has not been queued, no request comes to a full queue, and replies
are given under `AnswerOk`. -/
def LockOk (d : Deployment ν) (c : Cluster ν τ) : LockAct ν τ → Prop
  | .lock p _ => (c.nodes p).timestamp + 1 < 2 ^ 32
  | .advance p t => ∀ msg ∈ ((c.nodes p).threads t).waiting, ∀ t',
      ∀ msg' ∈ ((c.nodes p).threads t').unqueued,
        ¬ msg'.message.timestamp < msg.message.timestamp
  | .serve _ _ _ _ => True
  | .deliver q p => ∀ m ∈ (c.chan q p).head?,
      (m.messageType = .requestLock → (c.nodes p).lockQueue.length < maxPqueue) ∧
      (m.messageType = .requestLock ∧ ¬ (c.nodes p).defers m (d.nodeId q) ∨
        m.messageType = .replyLock ∧ (c.nodes p).pending q = true → AnswerOk d c p q)

instance decAnswerOk [Fintype τ] (d : Deployment ν) (c : Cluster ν τ) (n p : ν) :
    Decidable (AnswerOk d c n p) :=
  inferInstanceAs (Decidable (∀ t, ∀ msg ∈ ((c.nodes p).threads t).asking, ∀ t',
    ∀ msg' ∈ ((c.nodes n).threads t').request, _ → _))

instance decLockOk [Fintype τ] (d : Deployment ν) (c : Cluster ν τ) :
    (a : LockAct ν τ) → Decidable (LockOk d c a)
  | .lock _ _ => inferInstanceAs (Decidable (_ < _))
  | .advance p t => inferInstanceAs (Decidable (∀ msg ∈ ((c.nodes p).threads t).waiting, ∀ t',
      ∀ msg' ∈ ((c.nodes p).threads t').unqueued, ¬ _))
  | .serve _ _ _ _ => inferInstanceAs (Decidable True)
  | .deliver q p => inferInstanceAs (Decidable (∀ m ∈ (c.chan q p).head?, _ ∧ (_ → _)))

/-! ## every step is a step of the lock -/

section refine
variable {d : Deployment ν} {c c' : Cluster ν τ} {ok : State ν τ → ν → ν → ℕ → Prop}

theorem timestamp_stamp {n : LockNode ν τ} (h : n.timestamp + 1 < 2 ^ 32) :
    n.stamp.timestamp = n.timestamp + 1 := by
  unfold LockNode.stamp LockNode.updateTimestamp
  rw [Nat.mod_eq_of_lt h]
  simp

theorem le_updateTimestamp (n : LockNode ν τ) (ts : ℕ) :
    n.timestamp ≤ (n.updateTimestamp ts).timestamp ∧ ts ≤ (n.updateTimestamp ts).timestamp := by
  unfold LockNode.updateTimestamp
  split_ifs <;> simp <;> omega

open Relation Cluster

theorem rank_of_nodeId {x : PqueueData} {p : ν} (h : x.message.nodeId = d.nodeId p) :
    x.rank = d.net.rank p x.message.timestamp := by
  rw [PqueueData.rank, h]
  rfl

theorem map_rank_insert {x : PqueueData} {q : List PqueueData} {p : ν}
    (h : x.message.nodeId = d.nodeId p) :
    (SortedQueue.insert PqueueData.rank x q).map PqueueData.rank =
      SortedQueue.insert id (d.net.rank p x.message.timestamp) (q.map PqueueData.rank) := by
  rw [map_insert, rank_of_nodeId h]

theorem refine_lock {p : ν} {t : τ} {n : LockNode ν τ}
    (h : (c.nodes p).distributedLock (d.nodeId p) t = some n)
    (hc : (c.nodes p).timestamp + 1 < 2 ^ 32) : Step d.net ok c.abs (c.setNode p n).abs := by
  unfold LockNode.distributedLock at h
  split at h
  · rename_i hp
    obtain rfl := Option.some.inj h
    rw [abs_setThread p t _ (.stamped ⟨_, lockMessage _ _ _⟩), setQueue_self, setMutex_self,
      setReplies_self]
    · refine Step.stamp (by rw [abs_phase, hp]; rfl) ?_
      rw [abs_clock]
      exact (timestamp_stamp hc).symm ▸ Nat.lt_succ_self _
    all_goals rfl
  · cases h

theorem le_stamp (n : LockNode ν τ) : n.timestamp ≤ n.stamp.timestamp :=
  (le_updateTimestamp n _).1

theorem refine_advance {p : ν} {t : τ} {r : LockNode ν τ × List (ν × PeerMessage)}
    (hd : d.Full) (ht : NodeTagged d c)
    (h : (c.nodes p).advance (d.nodeId p) (d.peers p) t = some r)
    (hc : LockOk d c (.advance p t)) :
    ReflTransGen (Step d.net ok) c.abs (c.put p r).abs := by
  have hn := ht.thread p t
  have hphase : c.abs.phase p t = ((c.nodes p).threads t).abs := rfl
  unfold LockNode.advance at h
  cases hp : (c.nodes p).threads t with
  | idle => rw [hp] at h; cases h
  | critical msg => rw [hp] at h; cases h
  | stamped msg =>
    rw [hp] at h hn hphase
    simp only [enqueue_eq] at h
    by_cases hfull : maxPqueue ≤ (c.nodes p).lockQueue.length
    · rw [if_pos hfull] at h
      obtain rfl := Option.some.inj h
      refine .single ?_
      show Step d.net ok c.abs (c.setNode p ((c.nodes p).setThread t .idle)).abs
      rw [abs_thread]
      exact Step.drop hphase
    · rw [if_neg hfull] at h
      obtain rfl := Option.some.inj h
      refine .single ?_
      show Step d.net ok c.abs (c.setNode p _).abs
      rw [abs_setThread p t _ (.queued msg), setClock_self, setMutex_self, setReplies_self,
        map_rank_insert hn.2]
      · exact Step.enqueue hphase
      all_goals rfl
  | queued msg =>
    rw [hp] at h hphase
    simp only [Option.ite_none_right_eq_some] at h
    obtain ⟨hm, h⟩ := h
    obtain rfl := Option.some.inj h
    refine .single ?_
    show Step d.net ok c.abs (c.setNode p _).abs
    rw [abs_setThread p t _ (.sending msg _), setClock_self, setQueue_self, setReplies_self]
    · exact Step.acquire hphase hm
    all_goals rfl
  | sending msg rest =>
    cases rest with
    | nil =>
      rw [hp] at h hphase
      simp only [Option.ite_none_right_eq_some] at h
      obtain ⟨hq, h⟩ := h
      obtain rfl := Option.some.inj h
      refine .single ?_
      show Step d.net ok c.abs (c.setNode p _).abs
      rw [abs_setThread p t _ (.heading msg), setClock_self, setQueue_self]
      · refine Step.proceed hphase (le_of_eq_of_le ?_ hq)
        exact (List.length_map _).trans (hd.quorum p)
      all_goals rfl
    | cons a rest =>
      rw [hp] at h hn hphase
      obtain rfl := Option.some.inj h
      refine .single ?_
      have hm : msg.message.abs = .request msg.message.timestamp := by rw [PeerMessage.abs, hn.1]
      show Step d.net ok c.abs ((c.setNode p ((c.nodes p).setThread t _)).push p a.2 _).abs
      rw [abs_send, hm]
      exact Step.send hphase
  | marking msg i rest =>
    rw [hp] at h hphase
    obtain rfl := Option.some.inj h
    show ReflTransGen (Step d.net ok) c.abs (c.setNode p _).abs
    rw [abs_setThread p t _ (.sending msg rest), setClock_self, setQueue_self, setMutex_self,
      setReplies_self, setPhase_self]
    all_goals first | rfl | exact hphase
  | heading msg =>
    rw [hp] at h hn hphase
    simp only [Option.ite_none_right_eq_some] at h
    obtain ⟨hq, h⟩ := h
    obtain rfl := Option.some.inj h
    refine .single ?_
    show Step d.net ok c.abs (c.setNode p ((c.nodes p).setThread t _)).abs
    rw [abs_thread]
    refine Step.enter hphase ?_ fun t' ts' ht' => ?_
    · rw [abs_queue, List.head?_map, show (c.nodes p).lockQueue.head? = some msg from hq,
        Option.map_some, rank_of_nodeId hn.2]
    · obtain ⟨msg', hp', rfl⟩ := ThreadPhase.stamped_of_abs ht'
      exact hc msg (by rw [hp]; rfl) t' msg' (by rw [hp']; rfl)
  | served msg w k v =>
    rw [hp] at h hphase
    obtain rfl := Option.some.inj h
    refine .single ?_
    show Step d.net ok c.abs (c.setNode p _).abs
    rw [abs_setThread p t _ (.writing msg ⟨_, _, _, _, _, _⟩ _), setQueue_self, setMutex_self,
      setReplies_self]
    · exact Step.startWrite hphase (le_stamp _)
    all_goals rfl
  | writing msg w rest =>
    cases rest with
    | nil =>
      rw [hp] at h hphase
      obtain rfl := Option.some.inj h
      refine .tail (.single (Step.endWrite hphase)) ?_
      have he := setPhase_setPhase (c.abs.setQueue p (c.abs.queue p).tail) p t
        (.critical msg.message.timestamp) (.dequeued msg.message.timestamp)
      have hun : Step d.net ok (c.abs.setPhase p t (.critical msg.message.timestamp))
          (((c.abs.setQueue p (c.abs.queue p).tail).setPhase p t
            (.critical msg.message.timestamp)).setPhase p t (.dequeued msg.message.timestamp)) :=
        Step.unlock (t := t) (by rw [setPhase_phase, if_pos ⟨rfl, rfl⟩])
      rw [he] at hun
      show Step d.net ok _ (c.setNode p _).abs
      rw [abs_setThread p t _ (.dequeued msg), setClock_self, setMutex_self, setReplies_self,
        dequeue, List.map_tail]
      · exact hun
      all_goals rfl
    | cons a rest =>
      rw [hp] at h hn hphase
      obtain rfl := Option.some.inj h
      refine .single ?_
      have hm : w.abs = .write w.timestamp := by rw [PeerMessage.abs, hn.2.1]
      show Step d.net ok c.abs ((c.setNode p ((c.nodes p).setThread t _)).push p a.2 _).abs
      rw [abs_send, hm]
      exact Step.sendWrite hphase
  | dequeued msg =>
    rw [hp] at h hphase
    obtain rfl := Option.some.inj h
    refine .single ?_
    show Step d.net ok c.abs (c.setNode p _).abs
    rw [abs_setThread p t _ (.releasing msg (lockMessage _ _ _) _), setQueue_self, setMutex_self,
      setReplies_self]
    · exact Step.stampRelease hphase (le_stamp _)
    all_goals rfl
  | releasing msg r rest =>
    cases rest with
    | nil =>
      rw [hp] at h hphase
      obtain rfl := Option.some.inj h
      refine .single ?_
      show Step d.net ok c.abs (c.setNode p ((c.nodes p).setThread t .idle)).abs
      rw [abs_thread]
      exact Step.endRelease hphase
    | cons a rest =>
      rw [hp] at h hn hphase
      obtain rfl := Option.some.inj h
      refine .single ?_
      have hm : r.abs = .release r.timestamp := by rw [PeerMessage.abs, hn.2.1]
      show Step d.net ok c.abs ((c.setNode p ((c.nodes p).setThread t _)).push p a.2 _).abs
      rw [abs_send, hm]
      exact Step.sendRelease hphase

theorem refine_serve {p : ν} {t : τ} {txid : Int} {line : CStr} {n : LockNode ν τ}
    (h : (c.nodes p).serve t txid line = some n) : (c.setNode p n).abs = c.abs := by
  unfold LockNode.serve at h
  split at h
  · rename_i msg hp
    simp only [Option.bind_eq_bind, Option.bind_eq_some_iff] at h
    obtain ⟨⟨wt, k, v⟩, -, ⟨resp, store⟩, -, h⟩ := h
    obtain rfl := Option.some.inj h
    have hphase : c.abs.phase p t = ((c.nodes p).threads t).abs := rfl
    rw [hp] at hphase
    rw [abs_setThread p t _ (.served msg wt k v), setClock_self, setQueue_self, setMutex_self,
      setReplies_self, setPhase_self]
    all_goals first | rfl | exact hphase
  · cases h

/-- the guard of the lock, from that of the program -/
theorem AnswerOk.abs (ht : NodeTagged d c) {n p : ν} (h : AnswerOk d c n p) {t : τ} {ts : ℕ}
    {rest : List ν} (hp : c.abs.phase p t = .sending ts rest) {t' : τ} {ts' : ℕ}
    (hl : (c.abs.phase n t').live = some ts')
    (hu : p ∈ (c.abs.phase n t').unsent (d.net.peers n)) :
    ¬ d.net.rank n ts' < d.net.rank p ts := by
  obtain ⟨msg, ha, rfl⟩ := ThreadPhase.asking_of_abs hp
  rw [abs_phase, ThreadPhase.live_abs, Option.map_eq_some_iff] at hl
  obtain ⟨msg', hr, rfl⟩ := hl
  have hid := (ht.thread p t).request (ThreadPhase.request_of_asking ha)
  have hid' := (ht.thread n t').request hr
  rw [← rank_of_nodeId hid, ← rank_of_nodeId hid']
  refine h t msg ha t' msg' hr ?_
  rw [← ThreadPhase.unsent_abs]
  exact hu

theorem pending_of_request [Fintype ν] [Fintype τ] {s : State ν τ} (hi : Inv d.net s) {p q : ν}
    {ts : ℕ} {ms : List Msg} (hm : s.chan q p = .request ts :: ms) : s.pending p q = false := by
  have hw := (hi.account q).wait_le p
  rw [wait, hm] at hw
  cases hp : s.pending p q with
  | false => rfl
  | true =>
    rw [hp, List.countP_cons_of_pos rfl, Bool.toNat_true] at hw
    omega

theorem abs_phase_setNode {p : ν} {n : LockNode ν τ} (ht : n.threads = (c.nodes p).threads) :
    (c.setNode p n).abs.phase = c.abs.phase := by
  funext p' t
  rw [abs_phase, abs_phase, setNode_nodes, Function.update_apply]
  split_ifs with h
  · rw [ht, h]
  · rfl

/-- a reply that is owed is given by `handle_request_lock` -/
theorem refine_answer {p q : ν} {n n' : LockNode ν τ} {id : ℕ} {s : State ν τ}
    (hs : s = (c.setNode p n).abs.setPending p q true)
    (hclk : n'.timestamp = n.stamp.timestamp) (hq : n'.lockQueue = n.lockQueue)
    (hm : n'.mMutex = n.mMutex) (hr : n'.repliesReceived = n.repliesReceived)
    (hthr : n'.threads = n.threads) (hp : n'.pending = Function.update n.pending q false)
    (hold : n.threads = (c.nodes p).threads)
    (hg : ∀ t ts rest, c.abs.phase q t = .sending ts rest → ∀ t' ts',
      (c.abs.phase p t').live = some ts' → q ∈ (c.abs.phase p t').unsent (d.net.peers p) →
        ¬ d.net.rank p ts' < d.net.rank q ts) :
    ReflTransGen (Step d.net ok) s
      (c.put p (n', [(q, lockMessage .replyLock id n.stamp.timestamp)])).abs := by
  subst hs
  have hnode : (c.setNode p n).nodes p = n := by rw [setNode_nodes, Function.update_self]
  have htick : Step d.net ok ((c.setNode p n).abs.setPending p q true)
      (((c.setNode p n).abs.setPending p q true).setClock p n.stamp.timestamp) := by
    refine Step.tick ?_
    rw [setPending_clock, abs_clock, hnode]
    exact le_stamp n
  rw [← abs_phase_setNode hold] at hg
  have hans : Step d.net ok (((c.setNode p n).abs.setPending p q true).setClock p
      n.stamp.timestamp) _ :=
    Step.answer (by rw [setClock_pending, setPending_pending, if_pos ⟨rfl, rfl⟩]) hg
  have hset : (c.setNode p n').abs =
      ((c.setNode p n).abs.setClock p n.stamp.timestamp).setPending p q false := by
    have htwice : (c.setNode p n).setNode p n' = c.setNode p n' := by
      rw [setNode, setNode, setNode, Function.update_idem]
    rw [← htwice, abs_setPeer p q false n', setQueue_self, setReplies_self, hclk]
    · rw [setClock_replies, abs_replies, hnode, hr]
    · rw [setClock_queue, abs_queue, hnode, hq]
    all_goals rw [hnode]; assumption
  have hpp := setPending_setPending ((c.setNode p n).abs.setClock p n.stamp.timestamp) p q true
    false
  refine .tail (.single htick) ?_
  show Step d.net ok _ ((c.setNode p n').push p q _).abs
  rw [abs_push, hset, ← hpp]
  exact hans

variable [Fintype ν] [Fintype τ]

theorem refine_deliver {q p : ν} {m : PeerMessage} {ms : List PeerMessage}
    {r : LockNode ν τ × List (ν × PeerMessage)} (hi : Inv d.net c.abs) (ht : NodeTagged d c)
    (hm : c.chan q p = m :: ms)
    (h : (c.nodes p).handlePeerMessage (d.nodeId p) m q (d.nodeId q) = some r)
    (hc : LockOk d c (.deliver q p))
    (hok : m.messageType = .releaseLock ∨ m.messageType = .serverWrite →
      ∀ clk, ok (c.abs.setClock p clk) p q m.timestamp) :
    ReflTransGen (Step d.net ok) c.abs ((c.pop q p).put p r).abs := by
  have hid := ht.chan q p m (by rw [hm]; exact List.mem_cons_self)
  have hclk := le_updateTimestamp (c.nodes p) m.timestamp
  obtain ⟨hfull, hans⟩ := hc m (by rw [hm]; rfl)
  -- first the timestamp is taken over
  have htick : Step d.net ok c.abs _ := Step.tick hclk.1
  have hchan : (c.abs.setClock p ((c.nodes p).updateTimestamp m.timestamp).timestamp).chan q p =
      m.abs :: ms.map PeerMessage.abs := by
    rw [setClock_chan, abs_chan, hm]
    rfl
  have hle : m.timestamp ≤ (c.abs.setClock p
      ((c.nodes p).updateTimestamp m.timestamp).timestamp).clock p := by
    rw [setClock_clock, Function.update_self]
    exact hclk.2
  unfold LockNode.handlePeerMessage at h
  cases hty : m.messageType with
  | requestLock =>
    have hma : m.abs = .request m.timestamp := by rw [PeerMessage.abs, hty]
    have henq : enqueue ((c.nodes p).updateTimestamp m.timestamp).lockQueue ⟨(c.nodes p).next, m⟩ =
        some (SortedQueue.insert PqueueData.rank ⟨(c.nodes p).next, m⟩ (c.nodes p).lockQueue) := by
      rw [enqueue_eq]
      exact if_neg (not_le.mpr (hfull hty))
    rw [hma] at hchan
    have hpend := pending_of_request hi hchan
    have hdel : Step d.net ok _ _ := Step.deliverRequest hchan hle
    simp only [hty] at h
    simp only [show ((c.nodes p).updateTimestamp m.timestamp).next = (c.nodes p).next from rfl,
      henq, Option.getD_some] at h
    split at h
    · cases h
    · split at h
      · obtain rfl := Option.some.inj h
        refine .tail (.single htick) ?_
        show Step d.net ok _ ((c.pop q p).setNode p _).abs
        rw [abs_setPeer p q true, abs_pop, setReplies_self, map_rank_insert hid]
        · exact hdel
        all_goals rfl
      · rename_i hdef
        obtain rfl := Option.some.inj h
        refine .trans (.tail (.single htick) hdel) ?_
        refine refine_answer (n := { (c.nodes p).updateTimestamp m.timestamp with
            lockQueue := SortedQueue.insert PqueueData.rank ⟨(c.nodes p).next, m⟩
              (c.nodes p).lockQueue
            next := (c.nodes p).next + 1 }) ?_ rfl rfl rfl rfl rfl ?_ rfl ?_
        · rw [abs_setData, abs_pop, setReplies_self, map_rank_insert hid]
          all_goals rfl
        · exact (Function.update_eq_self_iff.mpr hpend.symm).symm
        · exact fun t ts rest hp t' ts' => (hans (Or.inl ⟨hty, hdef⟩)).abs ht hp
  | releaseLock =>
    have hma : m.abs = .release m.timestamp := by rw [PeerMessage.abs, hty]
    rw [hma] at hchan
    simp only [hty] at h
    obtain rfl := Option.some.inj h
    refine .tail (.single htick) ?_
    show Step d.net ok _ ((c.pop q p).setNode p _).abs
    rw [abs_setData, abs_pop, setReplies_self, dequeue, List.map_tail]
    · exact Step.deliverRelease hchan hle (hok (Or.inl hty) _)
    all_goals rfl
  | replyLock =>
    have hma : m.abs = .reply := by rw [PeerMessage.abs, hty]
    rw [hma] at hchan
    have hdel : Step d.net ok _ _ := Step.deliverReply hchan
    simp only [hty] at h
    split at h
    · cases hpend : ((c.nodes p).updateTimestamp m.timestamp).pending q with
      | false =>
        rw [hpend] at h
        obtain rfl := Option.some.inj h
        refine .tail (.single htick) ?_
        show Step d.net ok _ ((c.pop q p).setNode p _).abs
        rw [abs_setPeer p q false, abs_pop, setQueue_self, setPending_self]
        · exact hdel
        · exact hpend
        all_goals rfl
      | true =>
        rw [hpend] at h
        obtain rfl := Option.some.inj h
        refine .trans (.tail (.single htick) hdel) ?_
        refine refine_answer (n := { (c.nodes p).updateTimestamp m.timestamp with
            repliesReceived := (c.nodes p).repliesReceived + 1 }) ?_ rfl rfl rfl rfl rfl rfl rfl ?_
        · rw [abs_setData, abs_pop, setQueue_self, setPending_self]
          all_goals first | rfl | exact hpend
        · exact fun t ts rest hp t' ts' => (hans (Or.inr ⟨hty, hpend⟩)).abs ht hp
    · cases h
  | serverWrite =>
    have hma : m.abs = .write m.timestamp := by rw [PeerMessage.abs, hty]
    rw [hma] at hchan
    have hdel : Step d.net ok _ _ := Step.deliverWrite hchan hle (hok (Or.inr hty) _)
    simp only [hty] at h
    refine .tail (.single htick) ?_
    cases hpk : peek ((c.nodes p).updateTimestamp m.timestamp).lockQueue with
    | none => rw [hpk] at h; cases h
    | some head =>
      rw [hpk] at h
      simp only at h
      split at h
      · obtain ⟨store, -, h⟩ := Option.map_eq_some_iff.mp h
        obtain rfl := h
        show Step d.net ok _ ((c.pop q p).setNode p _).abs
        rw [abs_setData, abs_pop, setReplies_self, setQueue_self]
        · exact hdel
        all_goals rfl
      · obtain rfl := Option.some.inj h
        show Step d.net ok _ ((c.pop q p).setNode p _).abs
        rw [abs_setData, abs_pop, setReplies_self, setQueue_self]
        · exact hdel
        all_goals rfl

end refine

/-! ## tags -/

section tags
variable {d : Deployment ν} {c c' : Cluster ν τ}

theorem setThread_ofNode {n : LockNode ν τ} {id : ℕ} (hn : ∀ t, (n.threads t).OfNode id) {t : τ}
    {ph : ThreadPhase ν} (hp : ph.OfNode id) (t' : τ) :
    ((n.setThread t ph).threads t').OfNode id := by
  show (Function.update n.threads t ph t').OfNode id
  rw [Function.update_apply]
  split_ifs
  · exact hp
  · exact hn t'

theorem advance_ofNode {n : LockNode ν τ} {id : ℕ} {peers : List (Fin maxPeers × ν)} {t : τ}
    {r : LockNode ν τ × List (ν × PeerMessage)} (hn : ∀ t, (n.threads t).OfNode id)
    (h : n.advance id peers t = some r) :
    (∀ t', (r.1.threads t').OfNode id) ∧ ∀ x ∈ r.2, x.2.nodeId = id := by
  have ht := hn t
  unfold LockNode.advance at h
  split at h
  all_goals rename_i hp
  all_goals rw [hp] at ht
  · split at h
    all_goals obtain rfl := Option.some.inj h
    · exact ⟨setThread_ofNode hn trivial, by simp⟩
    · exact ⟨setThread_ofNode hn ht, by simp⟩
  · obtain ⟨-, h⟩ := Option.ite_none_right_eq_some.mp h
    obtain rfl := Option.some.inj h
    exact ⟨setThread_ofNode hn ht, by simp⟩
  · obtain rfl := Option.some.inj h
    exact ⟨setThread_ofNode hn ht, by simpa using ht.2⟩
  · obtain rfl := Option.some.inj h
    exact ⟨setThread_ofNode hn ht, by simp⟩
  · obtain ⟨-, h⟩ := Option.ite_none_right_eq_some.mp h
    obtain rfl := Option.some.inj h
    exact ⟨setThread_ofNode hn ht, by simp⟩
  · obtain ⟨-, h⟩ := Option.ite_none_right_eq_some.mp h
    obtain rfl := Option.some.inj h
    exact ⟨setThread_ofNode hn ht, by simp⟩
  · obtain rfl := Option.some.inj h
    exact ⟨setThread_ofNode hn ⟨ht, rfl, rfl⟩, by simp⟩
  · obtain rfl := Option.some.inj h
    exact ⟨setThread_ofNode hn ht, by simpa using ht.2.2⟩
  · obtain rfl := Option.some.inj h
    exact ⟨setThread_ofNode hn ht.1, by simp⟩
  · obtain rfl := Option.some.inj h
    exact ⟨setThread_ofNode hn ⟨ht, rfl, rfl⟩, by simp⟩
  · obtain rfl := Option.some.inj h
    exact ⟨setThread_ofNode hn ht, by simpa using ht.2.2⟩
  · obtain rfl := Option.some.inj h
    exact ⟨setThread_ofNode hn trivial, by simp⟩
  · cases h
  · cases h

theorem handle_ofNode {n : LockNode ν τ} {id id' : ℕ} {m : PeerMessage} {q : ν}
    {r : LockNode ν τ × List (ν × PeerMessage)} (h : n.handlePeerMessage id m q id' = some r) :
    r.1.threads = n.threads ∧ ∀ x ∈ r.2, x.2.nodeId = id := by
  unfold LockNode.handlePeerMessage at h
  cases hty : m.messageType with
  | requestLock =>
    simp only [hty] at h
    split at h
    · cases h
    · split at h
      · obtain rfl := Option.some.inj h
        exact ⟨rfl, by simp⟩
      · obtain rfl := Option.some.inj h
        exact ⟨rfl, by simp [LockNode.handleRequestLock, lockMessage]⟩
  | releaseLock =>
    simp only [hty] at h
    obtain rfl := Option.some.inj h
    exact ⟨rfl, by simp⟩
  | replyLock =>
    simp only [hty] at h
    split at h
    · obtain rfl := Option.some.inj h
      split_ifs
      · exact ⟨rfl, by simp [LockNode.handleRequestLock, lockMessage]⟩
      · exact ⟨rfl, by simp⟩
    · cases h
  | serverWrite =>
    simp only [hty] at h
    split at h
    · cases h
    · split at h
      · obtain ⟨store, -, rfl⟩ := Option.map_eq_some_iff.mp h
        exact ⟨rfl, by simp⟩
      · obtain rfl := Option.some.inj h
        exact ⟨rfl, by simp⟩

theorem NodeTagged.setNode (ht : NodeTagged d c) {p : ν} {n : LockNode ν τ}
    (hn : ∀ t, (n.threads t).OfNode (d.nodeId p)) : NodeTagged d (c.setNode p n) where
  thread p' t := by
    rw [Cluster.setNode_nodes, Function.update_apply]
    split_ifs with h
    · exact h ▸ hn t
    · exact ht.thread p' t
  chan := ht.chan

theorem NodeTagged.push (ht : NodeTagged d c) {p q : ν} {m : PeerMessage}
    (hm : m.nodeId = d.nodeId p) : NodeTagged d (c.push p q m) where
  thread := ht.thread
  chan p' q' m' h := by
    rw [Cluster.push_chan] at h
    split_ifs at h with he
    · rcases List.mem_append.mp h with h | h
      · exact he.1 ▸ ht.chan p q m' h
      · rw [List.mem_singleton.mp h, hm, he.1]
    · exact ht.chan p' q' m' h

theorem NodeTagged.pop (ht : NodeTagged d c) (p q : ν) : NodeTagged d (c.pop p q) where
  thread := ht.thread
  chan p' q' m' h := by
    rw [Cluster.pop_chan] at h
    split_ifs at h with he
    · exact he.1 ▸ ht.chan p q m' (List.mem_of_mem_tail h)
    · exact ht.chan p' q' m' h

theorem NodeTagged.put (ht : NodeTagged d c) {p : ν} {r : LockNode ν τ × List (ν × PeerMessage)}
    (hn : ∀ t, (r.1.threads t).OfNode (d.nodeId p)) (hr : ∀ x ∈ r.2, x.2.nodeId = d.nodeId p) :
    NodeTagged d (c.put p r) := by
  obtain ⟨n, out⟩ := r
  have hc := ht.setNode hn
  unfold Cluster.put
  generalize c.setNode p n = c at hc
  induction out generalizing c with
  | nil => exact hc
  | cons x out ih =>
    exact ih hn (fun y hy => hr y (List.mem_cons_of_mem _ hy)) _
      (hc.push (hr x List.mem_cons_self))

theorem tagged_step {a : LockAct ν τ} (ht : NodeTagged d c) (h : c.step d a = some c') :
    NodeTagged d c' := by
  cases a with
  | lock p t =>
    obtain ⟨n, hn, rfl⟩ := Option.map_eq_some_iff.mp h
    refine ht.setNode ?_
    unfold LockNode.distributedLock at hn
    split at hn
    · obtain rfl := Option.some.inj hn
      exact setThread_ofNode (ht.thread p) ⟨rfl, rfl⟩
    · cases hn
  | advance p t =>
    obtain ⟨r, hr, rfl⟩ := Option.map_eq_some_iff.mp h
    have := advance_ofNode (ht.thread p) hr
    exact ht.put this.1 this.2
  | serve p t txid line =>
    obtain ⟨n, hn, rfl⟩ := Option.map_eq_some_iff.mp h
    refine ht.setNode ?_
    have hp := ht.thread p t
    unfold LockNode.serve at hn
    split at hn
    · rename_i hph
      rw [hph] at hp
      simp only [Option.bind_eq_bind, Option.bind_eq_some_iff] at hn
      obtain ⟨⟨wt, k, v⟩, -, ⟨resp, store⟩, -, hn⟩ := hn
      obtain rfl := Option.some.inj hn
      exact setThread_ofNode (ht.thread p) hp
    · cases hn
  | deliver q p =>
    obtain ⟨m, ms, r, -, hr, rfl⟩ := Cluster.step_deliver h
    obtain ⟨hthr, hout⟩ := handle_ofNode hr
    refine (ht.pop q p).put (fun t => ?_) hout
    rw [hthr]
    exact ht.thread p t

theorem tagged_init : NodeTagged d (Cluster.init : Cluster ν τ) :=
  ⟨fun _ _ => trivial, fun _ _ _ h => by cases h⟩

end tags

/-! ## all steps -/

section steps
variable [Fintype ν] [Fintype τ] {d : Deployment ν} {c c' : Cluster ν τ}

/-- **Every step is made of steps of the lock.** -/
theorem refine_step {ok : State ν τ → ν → ν → ℕ → Prop} (hd : d.Full) (hi : Inv d.net c.abs)
    (ht : NodeTagged d c) {a : LockAct ν τ} (h : c.step d a = some c') (hc : LockOk d c a)
    (hok : ∀ q p m ms, a = .deliver q p → c.chan q p = m :: ms →
      m.messageType = .releaseLock ∨ m.messageType = .serverWrite →
        ∀ clk, ok (c.abs.setClock p clk) p q m.timestamp) :
    Relation.ReflTransGen (Step d.net ok) c.abs c'.abs := by
  cases a with
  | lock p t =>
    obtain ⟨n, hn, rfl⟩ := Option.map_eq_some_iff.mp h
    exact .single (refine_lock hn hc)
  | advance p t =>
    obtain ⟨r, hr, rfl⟩ := Option.map_eq_some_iff.mp h
    exact refine_advance hd ht hr hc
  | serve p t txid line =>
    obtain ⟨n, hn, rfl⟩ := Option.map_eq_some_iff.mp h
    rw [refine_serve hn]
  | deliver q p =>
    obtain ⟨m, ms, r, hm, hr, rfl⟩ := Cluster.step_deliver h
    exact refine_deliver hi ht hm hr hc (hok q p m ms rfl hm)

theorem inv_steps {net : Net ν} {ok : State ν τ → ν → ν → ℕ → Prop} (hf : net.Full)
    {s s' : State ν τ} (h : Inv net s) (st : Relation.ReflTransGen (Step net ok) s s') :
    Inv net s' := by
  induction st with
  | refl => exact h
  | tail _ hs ih => exact inv_step hf ih hs

end steps

end LsmKv
