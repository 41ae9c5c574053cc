import LsmKv.Lib.Rounds
import LsmKv.Lib.Run
import LsmKv.Lock.Abstract

/-!
# What the nodes have asked and been told

A cluster with the rounds of its nodes.  A round goes from the locking of `m_mutex` to the end of
the wait loop, and the address of a request stands for it.

* `Cluster.sent`         the messages that a step sends;
* `Cluster.trace`        what a step means for the rounds;
* `Traced`, `Traced.step`   the cluster, its rounds, and for each peer the requests handled and the
                         replies sent;
* `Traced.run_cluster`   every run of the cluster is the run of a traced one;
* `advance_cases`, `handle_request`, `handle_reply`, `handle_other`   what a step changes;
* `Follows`              the cluster and the rounds agree;
* `follows_step`         they go on to do so, if no thread leaves the wait loop too early.
-/

set_option linter.unusedSectionVars false

namespace LsmKv

open Rounds Run

variable {ν τ : Type} [DecidableEq ν] [DecidableEq τ]

/-! ## the rounds of a run -/

/-- how many of the messages are for `q` and of the type `ty` -/
def countTo (ty : PeerMessageType) (out : List (ν × PeerMessage)) (q : ν) : ℕ :=
  out.countP fun x => decide (x.1 = q ∧ x.2.messageType = ty)

/-- what the next step of a thread of `p` means for the rounds -/
def ThreadPhase.trace (p : ν) (s : Rounds.State ν ℕ) : ThreadPhase ν → Rounds.State ν ℕ
  | .queued msg => s.start p msg.addr
  | .sending msg ((_, q) :: _) => s.ask p q msg.addr
  | .sending _ [] => s.finish p
  | .idle | .stamped _ | .marking _ _ _ | .heading _ | .critical _ | .served _ _ _ _
  | .writing _ _ _ | .dequeued _ | .releasing _ _ _ => s

/-- what it means that `p` has taken the message from `q`, and `replies` to `q` or not -/
def PeerMessage.trace (q p : ν) (replies : Bool) (s : Rounds.State ν ℕ) (m : PeerMessage) :
    Rounds.State ν ℕ :=
  match m.messageType with
  | .requestLock => if replies then s.answer q p else s.defer q p
  | .replyLock => (if replies then s.settle q p else s).count p q
  | .releaseLock => s
  | .serverWrite => s

/-- the node that takes the step -/
def LockAct.node : LockAct ν τ → ν
  | .lock p _ => p
  | .advance p _ => p
  | .serve p _ _ _ => p
  | .deliver _ p => p

namespace Cluster

/-- the messages of the type `ty` on their way from `p` to `q` -/
def onWay (c : Cluster ν τ) (ty : PeerMessageType) (p q : ν) : ℕ :=
  (c.chan p q).countP fun m => decide (m.messageType = ty)

/-- the messages that the step sends -/
def sent (d : Deployment ν) (c : Cluster ν τ) : LockAct ν τ → List (ν × PeerMessage)
  | .lock _ _ => []
  | .advance p t => (((c.nodes p).advance (d.nodeId p) (d.peers p) t).map Prod.snd).getD []
  | .serve _ _ _ _ => []
  | .deliver q p => (((c.chan q p).head?.bind fun m =>
      (c.nodes p).handlePeerMessage (d.nodeId p) m q (d.nodeId q)).map Prod.snd).getD []

/-- what the step means for the rounds -/
def trace (d : Deployment ν) (c : Cluster ν τ) (s : Rounds.State ν ℕ) :
    LockAct ν τ → Rounds.State ν ℕ
  | .lock _ _ => s
  | .advance p t => ((c.nodes p).threads t).trace p s
  | .serve _ _ _ _ => s
  | .deliver q p =>
    match (c.chan q p).head? with
    | some m => m.trace q p (decide (0 < countTo .replyLock (c.sent d (.deliver q p)) q)) s
    | none => s

/-- the REQUEST_LOCKs of `q` that `p` handles in the step -/
def handles (c : Cluster ν τ) (a : LockAct ν τ) (p q : ν) : ℕ :=
  match a with
  | .deliver q' p' => if p = p' ∧ q = q' ∧
      (c.chan q p).head?.map PeerMessage.messageType = some .requestLock then 1 else 0
  | .lock _ _ | .advance _ _ | .serve _ _ _ _ => 0

/-- the REPLY_LOCKs that `p` sends to `q` in the step -/
def replies (d : Deployment ν) (c : Cluster ν τ) (a : LockAct ν τ) (p q : ν) : ℕ :=
  if p = a.node then countTo .replyLock (c.sent d a) q else 0

end Cluster

structure Traced (ν τ : Type) where
  cluster : Cluster ν τ
  rounds : Rounds.State ν ℕ
  /-- the REQUEST_LOCKs of `q` that `p` has handled -/
  received : ν → ν → ℕ
  /-- the REPLY_LOCKs that `p` has sent to `q` -/
  replied : ν → ν → ℕ

namespace Traced

def init : Traced ν τ := ⟨Cluster.init, State.init, fun _ _ => 0, fun _ _ => 0⟩

def step (d : Deployment ν) (x : Traced ν τ) (a : LockAct ν τ) : Option (Traced ν τ) :=
  (x.cluster.step d a).map fun c =>
    { cluster := c
      rounds := x.cluster.trace d x.rounds a
      received := fun p q => x.received p q + x.cluster.handles a p q
      replied := fun p q => x.replied p q + x.cluster.replies d a p q }

/-- **Every run of the cluster** is the run of a traced one, and the other way round. -/
theorem run_cluster (d : Deployment ν) (x : Traced ν τ) (as : List (LockAct ν τ)) :
    (run (step d) x as).map cluster = run (Cluster.step d) x.cluster as := by
  induction as generalizing x with
  | nil => rfl
  | cons a as ih =>
    rw [run_cons, run_cons, Option.map_bind]
    unfold step
    rw [Option.bind_map]
    exact congrArg _ (funext fun c => ih _)

end Traced

/-! ## what a step changes -/

/-- the request of a call that holds `m_mutex`, and the peers it has still to be sent to -/
def ThreadPhase.call : ThreadPhase ν → Option (ℕ × List ν)
  | .sending msg rest => some (msg.addr, rest.map Prod.snd)
  | .marking msg _ rest => some (msg.addr, rest.map Prod.snd)
  | .idle | .stamped _ | .queued _ | .heading _ | .critical _ | .served _ _ _ _
  | .writing _ _ _ | .dequeued _ | .releasing _ _ _ => none

/-- the request of a thread in the wait loop for the replies -/
def ThreadPhase.awaiting : ThreadPhase ν → Option PqueueData
  | .sending msg [] => some msg
  | .sending _ (_ :: _) | .idle | .stamped _ | .queued _ | .marking _ _ _ | .heading _
  | .critical _ | .served _ _ _ _ | .writing _ _ _ | .dequeued _ | .releasing _ _ _ => none

theorem ThreadPhase.eq_of_awaiting {ph : ThreadPhase ν} {msg : PqueueData}
    (h : ph.awaiting = some msg) : ph = .sending msg [] := by
  cases ph with
  | sending msg' rest =>
    cases rest with
    | nil => rw [Option.some.inj h]
    | cons a rest => cases h
  | _ => cases h

namespace LockNode

/-- The step changes nothing that the rounds are about. -/
structure Quiet (n : LockNode ν τ) (r : LockNode ν τ × List (ν × PeerMessage)) : Prop where
  call : ∀ t, (r.1.threads t).call = (n.threads t).call
  mMutex : r.1.mMutex = n.mMutex
  repliesReceived : r.1.repliesReceived = n.repliesReceived
  pending : r.1.pending = n.pending
  out : ∀ x ∈ r.2, x.2.messageType ≠ .requestLock ∧ x.2.messageType ≠ .replyLock

/-- the steps of `advance` -/
inductive Advance (peers : List (Fin maxPeers × ν)) (n : LockNode ν τ) (t : τ)
    (r : LockNode ν τ × List (ν × PeerMessage)) : Prop where
  | quiet (h : n.Quiet r) (hs : ∀ p s, (n.threads t).trace p s = s)
  | start (msg : PqueueData) (hp : n.threads t = .queued msg) (hm : n.mMutex = none)
      (hr : r = ({ n.setThread t (.sending msg peers) with mMutex := some t }, []))
  | ask (msg : PqueueData) (i : Fin maxPeers) (q : ν) (rest : List (Fin maxPeers × ν))
      (hp : n.threads t = .sending msg ((i, q) :: rest))
      (hr : r = (n.setThread t (.marking msg i rest), [(q, msg.message)]))
  | leave (msg : PqueueData) (hp : n.threads t = .sending msg [])
      (hq : repliesQuorum ≤ n.repliesReceived)
      (hr : r = ({ n.setThread t (.heading msg) with repliesReceived := 0, mMutex := none }, []))

variable {n : LockNode ν τ} {t : τ}

/-- a thread goes on, and neither its call nor the rest of the node changes -/
theorem quiet_setThread (ph : ThreadPhase ν) {n' : LockNode ν τ} {out : List (ν × PeerMessage)}
    (hc : ph.call = (n.threads t).call) (ht : n'.threads = Function.update n.threads t ph)
    (hm : n'.mMutex = n.mMutex) (hr : n'.repliesReceived = n.repliesReceived)
    (hp : n'.pending = n.pending)
    (ho : ∀ x ∈ out, x.2.messageType ≠ .requestLock ∧ x.2.messageType ≠ .replyLock) :
    n.Quiet (n', out) := by
  refine ⟨fun t' => ?_, hm, hr, hp, ho⟩
  rw [ht, Function.update_apply]
  split_ifs with he
  · rw [he]
    exact hc
  · rfl

theorem distributedLock_quiet {n' : LockNode ν τ} {id : ℕ}
    (h : n.distributedLock id t = some n') : n.Quiet (n', []) := by
  unfold distributedLock at h
  split at h
  · rename_i hp
    obtain rfl := Option.some.inj h
    exact quiet_setThread _ (by rw [hp]; rfl) rfl rfl rfl rfl (by simp)
  · cases h

theorem serve_quiet {n' : LockNode ν τ} {txid : Int} {line : CStr}
    (h : n.serve t txid line = some n') : n.Quiet (n', []) := by
  unfold serve at h
  split at h
  · rename_i msg hp
    simp only [Option.bind_eq_bind, Option.bind_eq_some_iff] at h
    obtain ⟨⟨wt, k, v⟩, -, ⟨resp, store⟩, -, h⟩ := h
    obtain rfl := Option.some.inj h
    exact quiet_setThread (.served msg wt k v) (by rw [hp]; rfl) rfl rfl rfl rfl (by simp)
  · cases h

theorem advance_cases {r : LockNode ν τ × List (ν × PeerMessage)} {id : ℕ}
    {peers : List (Fin maxPeers × ν)} (hn : (n.threads t).OfNode id)
    (h : n.advance id peers t = some r) : Advance peers n t r := by
  unfold advance at h
  cases hp : n.threads t with
  | idle => rw [hp] at h; cases h
  | critical msg => rw [hp] at h; cases h
  | stamped msg =>
    refine .quiet ?_ fun p s => by rw [hp]; rfl
    rw [hp] at h
    cases he : enqueue n.lockQueue msg with
    | none =>
      simp only [he] at h
      obtain rfl := Option.some.inj h
      exact quiet_setThread _ (by rw [hp]; rfl) rfl rfl rfl rfl (by simp)
    | some q =>
      simp only [he] at h
      obtain rfl := Option.some.inj h
      exact quiet_setThread (.queued msg) (by rw [hp]; rfl) rfl rfl rfl rfl (by simp)
  | queued msg =>
    rw [hp] at h
    obtain ⟨hm, h⟩ := Option.ite_none_right_eq_some.mp h
    exact .start msg hp hm (Option.some.inj h).symm
  | sending msg rest =>
    rw [hp] at h
    cases rest with
    | nil =>
      obtain ⟨hq, h⟩ := Option.ite_none_right_eq_some.mp h
      exact .leave msg hp hq (Option.some.inj h).symm
    | cons a rest => exact .ask msg a.1 a.2 rest hp (Option.some.inj h).symm
  | marking msg i rest =>
    refine .quiet ?_ fun p s => by rw [hp]; rfl
    rw [hp] at h
    obtain rfl := Option.some.inj h
    exact quiet_setThread (.sending msg rest) (by rw [hp]; rfl) rfl rfl rfl rfl (by simp)
  | heading msg =>
    refine .quiet ?_ fun p s => by rw [hp]; rfl
    rw [hp] at h
    obtain ⟨-, h⟩ := Option.ite_none_right_eq_some.mp h
    obtain rfl := Option.some.inj h
    exact quiet_setThread _ (by rw [hp]; rfl) rfl rfl rfl rfl (by simp)
  | served msg w k v =>
    refine .quiet ?_ fun p s => by rw [hp]; rfl
    rw [hp] at h
    obtain rfl := Option.some.inj h
    exact quiet_setThread (.writing msg ⟨_, _, _, _, _, _⟩ _) (by rw [hp]; rfl) rfl rfl rfl
      rfl (by simp)
  | writing msg w rest =>
    refine .quiet ?_ fun p s => by rw [hp]; rfl
    rw [hp] at h hn
    cases rest with
    | nil =>
      obtain rfl := Option.some.inj h
      exact quiet_setThread (.dequeued msg) (by rw [hp]; rfl) rfl rfl rfl rfl (by simp)
    | cons a rest =>
      obtain rfl := Option.some.inj h
      exact quiet_setThread _ (by rw [hp]; rfl) rfl rfl rfl rfl (by simp [hn.2.1])
  | dequeued msg =>
    refine .quiet ?_ fun p s => by rw [hp]; rfl
    rw [hp] at h
    obtain rfl := Option.some.inj h
    exact quiet_setThread (.releasing msg (lockMessage _ _ _) _) (by rw [hp]; rfl) rfl rfl
      rfl rfl (by simp)
  | releasing msg release rest =>
    refine .quiet ?_ fun p s => by rw [hp]; rfl
    rw [hp] at h hn
    cases rest with
    | nil =>
      obtain rfl := Option.some.inj h
      exact quiet_setThread _ (by rw [hp]; rfl) rfl rfl rfl rfl (by simp)
    | cons a rest =>
      obtain rfl := Option.some.inj h
      exact quiet_setThread _ (by rw [hp]; rfl) rfl rfl rfl rfl (by simp [hn.2.1])

/-- a request is answered, or deferred -/
theorem handle_request {m : PeerMessage} {q : ν} {id id' : ℕ}
    {r : LockNode ν τ × List (ν × PeerMessage)} (hty : m.messageType = .requestLock)
    (h : n.handlePeerMessage id m q id' = some r) :
    r.1.threads = n.threads ∧ r.1.mMutex = n.mMutex ∧
      r.1.repliesReceived = n.repliesReceived ∧
      (r.1.pending = n.pending ∧ (∃ reply, reply.messageType = .replyLock ∧ r.2 = [(q, reply)]) ∨
        r.1.pending = Function.update n.pending q true ∧ r.2 = []) := by
  unfold handlePeerMessage at h
  simp only [hty] at h
  split at h
  · cases h
  · split at h
    · obtain rfl := Option.some.inj h
      exact ⟨rfl, rfl, rfl, Or.inr ⟨rfl, rfl⟩⟩
    · obtain rfl := Option.some.inj h
      exact ⟨rfl, rfl, rfl, Or.inl ⟨rfl, _, rfl, rfl⟩⟩

/-- a reply is counted, after the deferred request is answered -/
theorem handle_reply {m : PeerMessage} {q : ν} {id id' : ℕ}
    {r : LockNode ν τ × List (ν × PeerMessage)} (hty : m.messageType = .replyLock)
    (h : n.handlePeerMessage id m q id' = some r) :
    r.1.threads = n.threads ∧ r.1.mMutex = n.mMutex ∧
      r.1.repliesReceived = n.repliesReceived + 1 ∧
      r.1.pending = Function.update n.pending q false ∧
      (n.pending q = true ∧ (∃ reply, reply.messageType = .replyLock ∧ r.2 = [(q, reply)]) ∨
        n.pending q = false ∧ r.2 = []) := by
  unfold handlePeerMessage at h
  simp only [hty] at h
  split at h
  · cases hpend : n.pending q with
    | false =>
      have hpend' : (n.updateTimestamp m.timestamp).pending q = false := hpend
      rw [hpend'] at h
      obtain rfl := Option.some.inj h
      exact ⟨rfl, rfl, rfl, rfl, Or.inr ⟨rfl, rfl⟩⟩
    | true =>
      have hpend' : (n.updateTimestamp m.timestamp).pending q = true := hpend
      rw [hpend'] at h
      obtain rfl := Option.some.inj h
      exact ⟨rfl, rfl, rfl, rfl, Or.inl ⟨rfl, _, rfl, rfl⟩⟩
  · cases h

theorem handle_other {m : PeerMessage} {q : ν} {id id' : ℕ}
    {r : LockNode ν τ × List (ν × PeerMessage)}
    (hty : m.messageType = .releaseLock ∨ m.messageType = .serverWrite)
    (h : n.handlePeerMessage id m q id' = some r) : n.Quiet r := by
  unfold handlePeerMessage at h
  rcases hty with hty | hty
  · simp only [hty] at h
    obtain rfl := Option.some.inj h
    exact ⟨fun _ => rfl, rfl, rfl, rfl, by simp⟩
  · simp only [hty] at h
    split at h
    · cases h
    · split at h
      · obtain ⟨store, -, rfl⟩ := Option.map_eq_some_iff.mp h
        exact ⟨fun _ => rfl, rfl, rfl, rfl, by simp⟩
      · obtain rfl := Option.some.inj h
        exact ⟨fun _ => rfl, rfl, rfl, rfl, by simp⟩

end LockNode

/-! ## what is on its way -/

section onWay
variable {c : Cluster ν τ} {p q : ν} {ty : PeerMessageType}

theorem countTo_single {m : PeerMessage} (q' : ν) :
    countTo ty [(q, m)] q' = if q' = q ∧ m.messageType = ty then 1 else 0 := by
  unfold countTo
  rw [List.countP_singleton]
  simp only [decide_eq_true_eq, eq_comm (a := q) (b := q')]

theorem countTo_self {m : PeerMessage} (h : m.messageType = ty) : countTo ty [(q, m)] q = 1 := by
  rw [countTo_single, if_pos ⟨rfl, h⟩]

theorem countTo_eq_zero {out : List (ν × PeerMessage)} (h : ∀ x ∈ out, x.2.messageType ≠ ty) :
    countTo ty out q = 0 := by
  refine List.countP_eq_zero.mpr fun x hx he => ?_
  exact h x hx (of_decide_eq_true he).2

namespace Cluster

theorem onWay_push (c : Cluster ν τ) (m : PeerMessage) (p' q' : ν) :
    (c.push p q m).onWay ty p' q' =
      c.onWay ty p' q' + if p' = p ∧ q' = q ∧ m.messageType = ty then 1 else 0 := by
  unfold onWay
  rw [push_chan]
  by_cases h : p' = p ∧ q' = q
  · rw [if_pos h, List.countP_append, List.countP_singleton, h.1, h.2]
    simp
  · rw [if_neg h, if_neg fun h' => h ⟨h'.1, h'.2.1⟩]
    rfl

theorem onWay_put (c : Cluster ν τ) (p : ν) (r : LockNode ν τ × List (ν × PeerMessage))
    (p' q' : ν) : (c.put p r).onWay ty p' q' =
      c.onWay ty p' q' + if p' = p then countTo ty r.2 q' else 0 := by
  have hfold : ∀ (l : List (ν × PeerMessage)) (c : Cluster ν τ),
      (l.foldl (fun c x => c.push p x.1 x.2) c).onWay ty p' q' =
        c.onWay ty p' q' + if p' = p then countTo ty l q' else 0 := by
    intro l
    induction l with
    | nil =>
      intro c
      simp [countTo]
    | cons x l ih =>
      intro c
      rw [List.foldl_cons, ih, onWay_push, add_assoc]
      congr 1
      unfold countTo
      rw [List.countP_cons]
      by_cases h : p' = p
      · simp only [h, true_and, decide_eq_true_eq, eq_comm (a := q')]
        exact Nat.add_comm _ _
      · simp [h]
  exact hfold r.2 _

theorem onWay_pop (ty : PeerMessageType) {m : PeerMessage} {ms : List PeerMessage}
    (hm : c.chan q p = m :: ms) (p' q' : ν) : (c.pop q p).onWay ty p' q' +
      (if p' = q ∧ q' = p ∧ m.messageType = ty then 1 else 0) = c.onWay ty p' q' := by
  unfold onWay
  rw [pop_chan]
  by_cases h : p' = q ∧ q' = p
  · rw [if_pos h, h.1, h.2, hm, List.countP_cons]
    simp
  · rw [if_neg h, if_neg fun h' => h ⟨h'.1, h'.2.1⟩]
    rfl

theorem onWay_pop_of_ne {m : PeerMessage} {ms : List PeerMessage} (hm : c.chan q p = m :: ms)
    (hty : m.messageType ≠ ty) (p' q' : ν) : (c.pop q p).onWay ty p' q' = c.onWay ty p' q' := by
  rw [← onWay_pop ty hm p' q', if_neg fun he => hty he.2.2, add_zero]

theorem onWay_pos {m : PeerMessage} {ms : List PeerMessage} (hm : c.chan q p = m :: ms)
    (hty : m.messageType = ty) : 0 < c.onWay ty q p := by
  unfold onWay
  rw [hm]
  exact List.countP_pos_iff.mpr ⟨m, List.mem_cons_self, decide_eq_true hty⟩

end Cluster

end onWay

/-! ## the cluster and its rounds -/

/-- The messages, the variables of the nodes and the calls are as the rounds say. -/
structure Follows (d : Deployment ν) (c : Cluster ν τ) (s : Rounds.State ν ℕ) : Prop where
  requests : ∀ p q, c.onWay .requestLock p q = (s.asked p q).length
  replies : ∀ p q, c.onWay .replyLock q p = (s.answers p q).length
  pending : ∀ p q, (c.nodes q).pending p = (s.deferred p q).isSome
  counted : ∀ p, (c.nodes p).repliesReceived = (s.counted p).length
  call : ∀ p t k rest, ((c.nodes p).threads t).call = some (k, rest) →
    (c.nodes p).mMutex = some t ∧
      ∃ pre, s.round p = some (k, pre) ∧ pre ++ rest = (d.peers p).map Prod.snd
  free : ∀ p, (c.nodes p).mMutex = none → s.round p = none
  round : All s

namespace Follows
variable {d : Deployment ν} {c : Cluster ν τ} {s : Rounds.State ν ℕ} {p q : ν} {t : τ}
  {n : LockNode ν τ}

theorem init : Follows d (Cluster.init : Cluster ν τ) State.init where
  requests _ _ := rfl
  replies _ _ := rfl
  pending _ _ := rfl
  counted _ := rfl
  call p t k rest h := by cases h
  free _ _ := rfl
  round := inv_init

/-- no two calls of a node at a time -/
theorem call_unique (h : Follows d c s) {a : ℕ × List ν}
    (ht : ((c.nodes p).threads t).call = some a) {t' : τ} (hne : t' ≠ t) :
    ((c.nodes p).threads t').call = none := by
  cases hc : ((c.nodes p).threads t').call with
  | none => rfl
  | some b =>
    have hboth := (h.call p t' _ _ hc).1.symm.trans (h.call p t _ _ ht).1
    exact absurd (Option.some.inj hboth) hne

/-- a step that changes nothing of what the rounds are about -/
theorem quiet (h : Follows d c s) {r : LockNode ν τ × List (ν × PeerMessage)}
    (hr : (c.nodes p).Quiet r) : Follows d (c.put p r) s := by
  have hn : ∀ p', (c.nodes p').Quiet ((c.put p r).nodes p', []) := by
    intro p'
    rw [Cluster.put_nodes, Function.update_apply]
    split_ifs with he
    · subst he
      exact ⟨hr.call, hr.mMutex, hr.repliesReceived, hr.pending, by simp⟩
    · exact ⟨fun _ => rfl, rfl, rfl, rfl, by simp⟩
  have hway : ∀ ty p' q', ty = .requestLock ∨ ty = .replyLock →
      (c.put p r).onWay ty p' q' = c.onWay ty p' q' := by
    intro ty p' q' hty
    rw [Cluster.onWay_put, countTo_eq_zero, ite_self, add_zero]
    intro x hx he
    rcases hty with rfl | rfl
    · exact (hr.out x hx).1 he
    · exact (hr.out x hx).2 he
  constructor
  · intro p' q'
    rw [hway _ p' q' (Or.inl rfl)]
    exact h.requests p' q'
  · intro p' q'
    rw [hway _ q' p' (Or.inr rfl)]
    exact h.replies p' q'
  · intro p' q'
    rw [(hn q').pending]
    exact h.pending p' q'
  · intro p'
    rw [(hn p').repliesReceived]
    exact h.counted p'
  · intro p' t' k rest
    rw [(hn p').call, (hn p').mMutex]
    exact h.call p' t' k rest
  · intro p'
    rw [(hn p').mMutex]
    exact h.free p'
  · exact h.round

/-- the calls, when a thread of `p` goes on and no other one of `p` has a call -/
theorem call_setThread (h : Follows d c s) {c' : Cluster ν τ} {s' : Rounds.State ν ℕ}
    {ph : ThreadPhase ν} (hn : c'.nodes = Function.update c.nodes p n)
    (hthr : n.threads = Function.update (c.nodes p).threads t ph)
    (hnone : ∀ t', t' ≠ t → ((c.nodes p).threads t').call = none)
    (hround : ∀ p', p' ≠ p → s'.round p' = s.round p')
    (hph : ∀ k rest, ph.call = some (k, rest) → n.mMutex = some t ∧
      ∃ pre, s'.round p = some (k, pre) ∧ pre ++ rest = (d.peers p).map Prod.snd)
    (p' : ν) (t' : τ) (k : ℕ) (rest : List ν)
    (hc : ((c'.nodes p').threads t').call = some (k, rest)) :
    (c'.nodes p').mMutex = some t' ∧
      ∃ pre, s'.round p' = some (k, pre) ∧ pre ++ rest = (d.peers p').map Prod.snd := by
  rw [hn] at hc ⊢
  by_cases hp : p' = p
  · subst hp
    rw [Function.update_self] at hc ⊢
    rw [hthr] at hc
    by_cases ht : t' = t
    · subst ht
      rw [Function.update_self] at hc
      exact hph k rest hc
    · rw [Function.update_of_ne ht, hnone t' ht] at hc
      cases hc
  · rw [Function.update_of_ne hp] at hc ⊢
    rw [hround p' hp]
    exact h.call p' t' k rest hc

theorem start (h : Follows d c s) {msg : PqueueData} (hp : (c.nodes p).threads t = .queued msg)
    (hm : (c.nodes p).mMutex = none) :
    Follows d (c.put p ({ (c.nodes p).setThread t (.sending msg (d.peers p)) with
      mMutex := some t }, [])) (s.start p msg.addr) := by
  have hnone : ∀ t', t' ≠ t → ((c.nodes p).threads t').call = none := by
    intro t' _
    cases hc : ((c.nodes p).threads t').call with
    | none => rfl
    | some a =>
      have hsome := (h.call p t' a.1 a.2 hc).1
      rw [hm] at hsome
      cases hsome
  constructor
  · exact h.requests
  · exact h.replies
  · intro p' q'
    rw [Cluster.field_eq LockNode.pending (Cluster.put_nodes c p _) rfl]
    exact h.pending p' q'
  · intro p'
    rw [Cluster.field_eq LockNode.repliesReceived (Cluster.put_nodes c p _) rfl]
    exact h.counted p'
  · refine h.call_setThread (Cluster.put_nodes c p _) rfl hnone
      (fun p' hp' => Function.update_of_ne hp' _ _) fun k rest hc => ?_
    obtain ⟨rfl, rfl⟩ := Prod.mk.inj (Option.some.inj hc)
    exact ⟨rfl, [], by rw [State.start_round, Function.update_self], rfl⟩
  · intro p' hfree
    rw [Cluster.put_nodes] at hfree
    by_cases hp' : p' = p
    · subst hp'
      rw [Function.update_self] at hfree
      cases hfree
    · rw [Function.update_of_ne hp'] at hfree
      rw [State.start_round, Function.update_of_ne hp']
      exact h.free p' hfree
  · exact h.round.start (h.free p hm) msg.addr

theorem ask (h : Follows d c s) (hd : ((d.peers p).map Prod.snd).Nodup) {msg : PqueueData}
    {i : Fin maxPeers} {rest : List (Fin maxPeers × ν)}
    (hp : (c.nodes p).threads t = .sending msg ((i, q) :: rest))
    (hty : msg.message.messageType = .requestLock) :
    Follows d (c.put p ((c.nodes p).setThread t (.marking msg i rest), [(q, msg.message)]))
      (s.ask p q msg.addr) := by
  have hcall : ((c.nodes p).threads t).call = some (msg.addr, q :: rest.map Prod.snd) := by
    rw [hp]
    rfl
  obtain ⟨hm, pre, hround, hpre⟩ := h.call p t _ _ hcall
  have hq : q ∉ pre := by
    rw [← hpre] at hd
    exact fun hq => (List.disjoint_of_nodup_append hd) hq List.mem_cons_self
  have hnew : (s.ask p q msg.addr).round p = some (msg.addr, pre ++ [q]) := by
    rw [State.ask_round, Function.update_self, hround]
    rfl
  constructor
  · intro p' q'
    rw [Cluster.onWay_put, countTo_single, h.requests, State.ask_asked, Rounds.set]
    by_cases he : p' = p ∧ q' = q
    · rw [if_pos he.1, if_pos ⟨he.2, hty⟩, if_pos he, he.1, he.2, List.length_append]
      rfl
    · rw [if_neg he]
      split_ifs with h1 h2
      · exact absurd ⟨h1, h2.1⟩ he
      · rfl
      · rfl
  · intro p' q'
    rw [Cluster.onWay_put, countTo_eq_zero, ite_self]
    · exact h.replies p' q'
    · intro x hx
      rw [List.mem_singleton.mp hx, hty]
      decide
  · intro p' q'
    rw [Cluster.field_eq LockNode.pending (Cluster.put_nodes c p _) rfl]
    exact h.pending p' q'
  · intro p'
    rw [Cluster.field_eq LockNode.repliesReceived (Cluster.put_nodes c p _) rfl]
    exact h.counted p'
  · refine h.call_setThread (Cluster.put_nodes c p _) rfl (fun t' => h.call_unique hcall)
      (fun p' hp' => Function.update_of_ne hp' _ _) fun k rest' hc => ?_
    obtain ⟨rfl, rfl⟩ := Prod.mk.inj (Option.some.inj hc)
    refine ⟨hm, pre ++ [q], hnew, ?_⟩
    rw [List.append_assoc]
    exact hpre
  · intro p' hfree
    rw [Cluster.field_eq LockNode.mMutex (Cluster.put_nodes c p _) rfl] at hfree
    by_cases hp' : p' = p
    · subst hp'
      rw [hm] at hfree
      cases hfree
    · rw [State.ask_round, Function.update_of_ne hp']
      exact h.free p' hfree
  · exact h.round.ask hround hq

theorem leave (h : Follows d c s) {msg : PqueueData}
    (hp : (c.nodes p).threads t = .sending msg [])
    (hall : (d.peers p).length ≤ (c.nodes p).repliesReceived) :
    Follows d (c.put p ({ (c.nodes p).setThread t (.heading msg) with
      repliesReceived := 0, mMutex := none }, [])) (s.finish p) := by
  have hcall : ((c.nodes p).threads t).call = some (msg.addr, []) := by
    rw [hp]
    rfl
  obtain ⟨hm, pre, hround, hpre⟩ := h.call p t _ _ hcall
  rw [List.append_nil] at hpre
  constructor
  · exact h.requests
  · exact h.replies
  · intro p' q'
    rw [Cluster.field_eq LockNode.pending (Cluster.put_nodes c p _) rfl]
    exact h.pending p' q'
  · intro p'
    rw [Cluster.put_nodes, State.finish_counted]
    by_cases hp' : p' = p
    · subst hp'
      rw [Function.update_self, Function.update_self]
      rfl
    · rw [Function.update_of_ne hp', Function.update_of_ne hp']
      exact h.counted p'
  · refine h.call_setThread (Cluster.put_nodes c p _) rfl (fun t' => h.call_unique hcall)
      (fun p' hp' => Function.update_of_ne hp' _ _) fun k rest hc => ?_
    cases hc
  · intro p' hfree
    rw [Cluster.put_nodes] at hfree
    by_cases hp' : p' = p
    · subst hp'
      rw [State.finish_round, Function.update_self]
    · rw [Function.update_of_ne hp'] at hfree
      rw [State.finish_round, Function.update_of_ne hp']
      exact h.free p' hfree
  · refine h.round.finish hround ?_
    rw [← h.counted p, hpre, List.length_map]
    exact hall

/-- the calls, when a node takes a message -/
theorem call_handle (h : Follows d c s) {c' : Cluster ν τ} (s' : Rounds.State ν ℕ)
    (hn : c'.nodes = Function.update c.nodes p n) (hthr : n.threads = (c.nodes p).threads)
    (hm : n.mMutex = (c.nodes p).mMutex) (hround : s'.round = s.round) :
    (∀ p t k rest, ((c'.nodes p).threads t).call = some (k, rest) → (c'.nodes p).mMutex = some t ∧
      ∃ pre, s'.round p = some (k, pre) ∧ pre ++ rest = (d.peers p).map Prod.snd) ∧
    ∀ p, (c'.nodes p).mMutex = none → s'.round p = none := by
  constructor
  · intro p' t k rest
    rw [Cluster.field_eq LockNode.threads hn hthr, Cluster.field_eq LockNode.mMutex hn hm, hround]
    exact h.call p' t k rest
  · intro p'
    rw [Cluster.field_eq LockNode.mMutex hn hm, hround]
    exact h.free p'

/-- a release or a write is taken from a channel -/
theorem pop (h : Follows d c s) {m : PeerMessage} {ms : List PeerMessage}
    (hm : c.chan q p = m :: ms)
    (hty : m.messageType = .releaseLock ∨ m.messageType = .serverWrite) :
    Follows d (c.pop q p) s := by
  refine ⟨fun p' q' => ?_, fun p' q' => ?_, h.pending, h.counted, h.call, h.free, h.round⟩
  · rw [Cluster.onWay_pop_of_ne hm (by rcases hty with hty | hty <;> rw [hty] <;> decide)]
    exact h.requests p' q'
  · rw [Cluster.onWay_pop_of_ne hm (by rcases hty with hty | hty <;> rw [hty] <;> decide)]
    exact h.replies p' q'

theorem asked_ne_nil (h : Follows d c s) {m : PeerMessage} {ms : List PeerMessage}
    (hm : c.chan q p = m :: ms) (hty : m.messageType = .requestLock) : s.asked q p ≠ [] := by
  have hpos := Cluster.onWay_pos hm hty
  rw [h.requests] at hpos
  exact List.ne_nil_of_length_pos hpos

/-- a request is taken, and no other one is sent -/
theorem requests_pop (h : Follows d c s) {m : PeerMessage} {ms : List PeerMessage}
    (hm : c.chan q p = m :: ms) (hty : m.messageType = .requestLock)
    {r : LockNode ν τ × List (ν × PeerMessage)}
    (hout : ∀ x ∈ r.2, x.2.messageType ≠ .requestLock) (p' q' : ν) :
    ((c.pop q p).put p r).onWay .requestLock p' q' =
      (Rounds.set s.asked q p (s.asked q p).tail p' q').length := by
  have hpop := Cluster.onWay_pop .requestLock hm p' q'
  rw [h.requests] at hpop
  rw [Cluster.onWay_put, countTo_eq_zero hout, ite_self, add_zero, Rounds.set]
  split_ifs with he
  · rw [if_pos ⟨he.1, he.2, hty⟩, he.1, he.2] at hpop
    rw [he.1, he.2, List.length_tail]
    omega
  · rw [if_neg fun h' => he ⟨h'.1, h'.2.1⟩] at hpop
    exact hpop

theorem answer (h : Follows d c s) {m reply : PeerMessage} {ms : List PeerMessage}
    {r : LockNode ν τ × List (ν × PeerMessage)} (hm : c.chan q p = m :: ms)
    (hty : m.messageType = .requestLock) (hthr : r.1.threads = (c.nodes p).threads)
    (hmut : r.1.mMutex = (c.nodes p).mMutex)
    (hrep : r.1.repliesReceived = (c.nodes p).repliesReceived)
    (hpend : r.1.pending = (c.nodes p).pending) (hreply : reply.messageType = .replyLock)
    (hout : r.2 = [(q, reply)]) :
    Follows d ((c.pop q p).put p r) (s.answer q p) := by
  have hn : ((c.pop q p).put p r).nodes = Function.update c.nodes p r.1 := Cluster.put_nodes _ p r
  obtain ⟨k, ks, hk⟩ := List.exists_cons_of_ne_nil (h.asked_ne_nil hm hty)
  obtain ⟨hcall, hfree⟩ := h.call_handle (s.answer q p) hn hthr hmut rfl
  refine ⟨?_, fun p' q' => ?_, fun p' q' => ?_, fun p' => ?_, hcall, hfree, h.round.answer q p⟩
  · apply h.requests_pop hm hty
    intro x hx
    rw [hout] at hx
    rw [List.mem_singleton.mp hx, hreply]
    decide
  · rw [Cluster.onWay_put, hout, countTo_single,
      Cluster.onWay_pop_of_ne hm (by rw [hty]; decide), h.replies, State.answer_answers, Rounds.set]
    by_cases he : p' = q ∧ q' = p
    · rw [if_pos he.2, if_pos ⟨he.1, hreply⟩, if_pos he, he.1, he.2, hk, List.length_append]
      rfl
    · rw [if_neg he]
      split_ifs with h1 h2
      · exact absurd ⟨h2.1, h1⟩ he
      · rfl
      · rfl
  · rw [Cluster.field_eq LockNode.pending hn hpend]
    exact h.pending p' q'
  · rw [Cluster.field_eq LockNode.repliesReceived hn hrep]
    exact h.counted p'

theorem defer (h : Follows d c s) {m : PeerMessage} {ms : List PeerMessage}
    {r : LockNode ν τ × List (ν × PeerMessage)} (hm : c.chan q p = m :: ms)
    (hty : m.messageType = .requestLock) (hthr : r.1.threads = (c.nodes p).threads)
    (hmut : r.1.mMutex = (c.nodes p).mMutex)
    (hrep : r.1.repliesReceived = (c.nodes p).repliesReceived)
    (hpend : r.1.pending = Function.update (c.nodes p).pending q true) (hout : r.2 = []) :
    Follows d ((c.pop q p).put p r) (s.defer q p) := by
  have hn : ((c.pop q p).put p r).nodes = Function.update c.nodes p r.1 := Cluster.put_nodes _ p r
  have hne := h.asked_ne_nil hm hty
  obtain ⟨k, ks, hk⟩ := List.exists_cons_of_ne_nil hne
  obtain ⟨hcall, hfree⟩ := h.call_handle (s.defer q p) hn hthr hmut rfl
  refine ⟨?_, fun p' q' => ?_, fun p' q' => ?_, fun p' => ?_, hcall, hfree, h.round.defer hne⟩
  · exact h.requests_pop hm hty (by rw [hout]; simp)
  · rw [Cluster.onWay_put, hout, countTo_eq_zero (by simp), ite_self, add_zero,
      Cluster.onWay_pop_of_ne hm (by rw [hty]; decide)]
    exact h.replies p' q'
  · rw [hn, State.defer_deferred, Rounds.set, Function.update_apply]
    by_cases hq : q' = p
    · subst hq
      rw [if_pos rfl, hpend, Function.update_apply, hk]
      by_cases hp : p' = q
      · rw [if_pos hp, if_pos ⟨hp, rfl⟩]
        rfl
      · rw [if_neg hp, if_neg fun he => hp he.1]
        exact h.pending p' q'
    · rw [if_neg hq, if_neg fun he => hq he.2]
      exact h.pending p' q'
  · rw [Cluster.field_eq LockNode.repliesReceived hn hrep]
    exact h.counted p'

theorem reply (h : Follows d c s) {m : PeerMessage} {ms : List PeerMessage}
    {r : LockNode ν τ × List (ν × PeerMessage)} (hm : c.chan q p = m :: ms)
    (hty : m.messageType = .replyLock) (hthr : r.1.threads = (c.nodes p).threads)
    (hmut : r.1.mMutex = (c.nodes p).mMutex)
    (hrep : r.1.repliesReceived = (c.nodes p).repliesReceived + 1)
    (hpend : r.1.pending = Function.update (c.nodes p).pending q false)
    (hout : ∀ x ∈ r.2, x.2.messageType = .replyLock)
    (hcount : ∀ q', countTo .replyLock r.2 q' =
      if q' = q then ((c.nodes p).pending q).toNat else 0) :
    Follows d ((c.pop q p).put p r) ((s.settle q p).count p q) := by
  have hn : ((c.pop q p).put p r).nodes = Function.update c.nodes p r.1 := Cluster.put_nodes _ p r
  obtain ⟨hcall, hfree⟩ := h.call_handle ((s.settle q p).count p q) hn hthr hmut rfl
  -- the deferred request is answered before the reply is counted
  have hsettle : ∀ p' q', ((s.settle q p).answers p' q').length =
      c.onWay .replyLock q' p' + if q' = p then countTo .replyLock r.2 p' else 0 := by
    intro p' q'
    rw [h.replies, hcount, h.pending, State.settle_answers, Rounds.set]
    by_cases he : p' = q ∧ q' = p
    · rw [if_pos he, if_pos he.2, if_pos he.1, he.1, he.2, List.length_append]
      cases s.deferred q p with
      | none => rfl
      | some k => rfl
    · rw [if_neg he]
      split_ifs with h1 h2
      · exact absurd ⟨h2, h1⟩ he
      · rfl
      · rfl
  have hne : (s.settle q p).answers p q ≠ [] := by
    apply List.ne_nil_of_length_pos
    rw [hsettle]
    exact Nat.add_pos_left (Cluster.onWay_pos hm hty) _
  obtain ⟨k, ks, hk⟩ := List.exists_cons_of_ne_nil hne
  refine ⟨fun p' q' => ?_, fun p' q' => ?_, fun p' q' => ?_, fun p' => ?_, hcall, hfree,
    (h.round.settle q p).count hne⟩
  · rw [Cluster.onWay_put, countTo_eq_zero (fun x hx => by rw [hout x hx]; decide), ite_self,
      add_zero, Cluster.onWay_pop_of_ne hm (by rw [hty]; decide)]
    exact h.requests p' q'
  · have hpop := Cluster.onWay_pop .replyLock hm q' p'
    have hlen := hsettle p' q'
    rw [Cluster.onWay_put, State.count_answers, Rounds.set]
    by_cases he : p' = p ∧ q' = q
    · rw [if_pos ⟨he.2, he.1, hty⟩] at hpop
      rw [if_pos he, List.length_tail]
      obtain ⟨rfl, rfl⟩ := he
      omega
    · rw [if_neg fun h' => he ⟨h'.2.1, h'.1⟩] at hpop
      rw [if_neg he]
      omega
  · rw [hn, State.count_deferred, State.settle_deferred, Rounds.set, Function.update_apply]
    by_cases hq : q' = p
    · subst hq
      rw [if_pos rfl, hpend, Function.update_apply]
      by_cases hp : p' = q
      · rw [if_pos hp, if_pos ⟨hp, rfl⟩]
        rfl
      · rw [if_neg hp, if_neg fun he => hp he.1]
        exact h.pending p' q'
    · rw [if_neg hq, if_neg fun he => hq he.2]
      exact h.pending p' q'
  · rw [hn, State.count_counted, hk]
    by_cases hp : p' = p
    · subst hp
      rw [Function.update_self, Function.update_self, hrep, h.counted, List.length_append]
      rfl
    · rw [Function.update_of_ne hp, Function.update_of_ne hp]
      exact h.counted p'

end Follows

/-! ## a step -/

/-- A thread leaves the wait loop when as many replies have come as its node has peers. -/
def LeaveOk (d : Deployment ν) (c : Cluster ν τ) : LockAct ν τ → Prop
  | .advance p t => ((c.nodes p).threads t).awaiting.isSome →
      repliesQuorum ≤ (c.nodes p).repliesReceived →
        (d.peers p).length ≤ (c.nodes p).repliesReceived
  | .lock _ _ | .serve _ _ _ _ | .deliver _ _ => True

section step
variable {d : Deployment ν} {c c' : Cluster ν τ} {s : Rounds.State ν ℕ} {p q : ν} {t : τ}
  {r : LockNode ν τ × List (ν × PeerMessage)}

theorem sent_advance (hr : (c.nodes p).advance (d.nodeId p) (d.peers p) t = some r) :
    c.sent d (.advance p t) = r.2 := by
  simp only [Cluster.sent, hr, Option.map_some, Option.getD_some]

theorem sent_deliver {m : PeerMessage} {ms : List PeerMessage} (hm : c.chan q p = m :: ms)
    (hr : (c.nodes p).handlePeerMessage (d.nodeId p) m q (d.nodeId q) = some r) :
    c.sent d (.deliver q p) = r.2 := by
  simp only [Cluster.sent, hm, hr, List.head?_cons, Option.bind_some, Option.map_some,
    Option.getD_some]

theorem trace_deliver {m : PeerMessage} {ms : List PeerMessage} (hm : c.chan q p = m :: ms)
    (hr : (c.nodes p).handlePeerMessage (d.nodeId p) m q (d.nodeId q) = some r) :
    c.trace d s (.deliver q p) = m.trace q p (decide (0 < countTo .replyLock r.2 q)) s := by
  simp only [Cluster.trace, sent_deliver hm hr, hm, List.head?_cons]

/-- no call goes on but as the rounds say -/
theorem follows_advance (hd : ((d.peers p).map Prod.snd).Nodup) (hf : Follows d c s)
    (hn : ((c.nodes p).threads t).OfNode (d.nodeId p)) (hok : LeaveOk d c (.advance p t))
    (hr : (c.nodes p).advance (d.nodeId p) (d.peers p) t = some r) :
    Follows d (c.put p r) (((c.nodes p).threads t).trace p s) := by
  cases LockNode.advance_cases hn hr with
  | quiet h hs =>
    rw [hs]
    exact hf.quiet h
  | start msg hp hm hr =>
    subst hr
    rw [hp]
    exact hf.start hp hm
  | ask msg i q rest hp hr =>
    subst hr
    rw [hp] at hn ⊢
    exact hf.ask hd hp hn.1
  | leave msg hp hq hr =>
    subst hr
    rw [hp]
    exact hf.leave hp (hok (by rw [hp]; rfl) hq)

theorem follows_deliver {m : PeerMessage} {ms : List PeerMessage} (hf : Follows d c s)
    (hm : c.chan q p = m :: ms)
    (hr : (c.nodes p).handlePeerMessage (d.nodeId p) m q (d.nodeId q) = some r) :
    Follows d ((c.pop q p).put p r)
      (m.trace q p (decide (0 < countTo .replyLock r.2 q)) s) := by
  unfold PeerMessage.trace
  cases hty : m.messageType with
  | requestLock =>
    obtain ⟨hthr, hmut, hrep, ⟨hpend, reply, hreply, hout⟩ | ⟨hpend, hout⟩⟩ :=
      LockNode.handle_request hty hr
    · rw [hout, countTo_self hreply]
      exact hf.answer hm hty hthr hmut hrep hpend hreply hout
    · rw [hout]
      exact hf.defer hm hty hthr hmut hrep hpend hout
  | replyLock =>
    obtain ⟨hthr, hmut, hrep, hpend, ⟨hp, reply, hreply, hout⟩ | ⟨hp, hout⟩⟩ :=
      LockNode.handle_reply hty hr
    · have hs := hf.reply hm hty hthr hmut hrep hpend (by rw [hout]; simpa using hreply)
        fun q' => by rw [hout, countTo_single, hp]; simp [hreply]
      rw [hout, countTo_self hreply]
      exact hs
    · have hs := hf.reply hm hty hthr hmut hrep hpend (by rw [hout]; simp)
        fun q' => by rw [hout, hp]; simp [countTo]
      have hnone : s.deferred q p = none := by
        rw [← Option.not_isSome_iff_eq_none, ← hf.pending, hp]
        exact Bool.false_ne_true
      rw [State.settle_of_none s hnone] at hs
      rw [hout]
      exact hs
  | releaseLock =>
    exact (hf.pop hm (Or.inl hty)).quiet (LockNode.handle_other (Or.inl hty) hr)
  | serverWrite =>
    exact (hf.pop hm (Or.inr hty)).quiet (LockNode.handle_other (Or.inr hty) hr)

/-- **The rounds go on as the cluster does.** -/
theorem follows_step (hd : ∀ p, ((d.peers p).map Prod.snd).Nodup) (ht : NodeTagged d c)
    (hf : Follows d c s) {a : LockAct ν τ} (hok : LeaveOk d c a) (h : c.step d a = some c') :
    Follows d c' (c.trace d s a) := by
  cases a with
  | lock p t =>
    obtain ⟨n, hn, rfl⟩ := Option.map_eq_some_iff.mp h
    exact hf.quiet (LockNode.distributedLock_quiet hn)
  | advance p t =>
    obtain ⟨r, hr, rfl⟩ := Option.map_eq_some_iff.mp h
    exact follows_advance (hd p) hf (ht.thread p t) hok hr
  | serve p t txid line =>
    obtain ⟨n, hn, rfl⟩ := Option.map_eq_some_iff.mp h
    exact hf.quiet (LockNode.serve_quiet hn)
  | deliver q p =>
    obtain ⟨m, ms, r, hm, hr, rfl⟩ := Cluster.step_deliver h
    rw [trace_deliver hm hr]
    exact follows_deliver hf hm hr

end step

end LsmKv
