import LsmKv.Lib.LamportClock
import LsmKv.Lock.Abstract

/-!
# The timestamps of a node (`blocking_node.c`)

A node with one client thread, and its listeners step by step: a message is read, counted in by
`update_timestamp`, handled, and the reply is sent.  Every stamp is one step.

* `ListenerPhase`, `ClockedNode`   where a listener is; the node with the log of its messages;
* `clockStep`          the steps of the client thread and of the listeners;
* `ClockOk`            the steps that keep the order of messages;
* `ClockedNode.abs`    the clock behind the node;
* `clockStep_abs`      the steps of the node are steps of that clock;
* `clock_orders`       the timestamp never decreases, and the messages of runs of such steps are
                       ordered.
-/

set_option linter.unusedSectionVars false

namespace LsmKv

open LamportClock Run

variable {ν : Type} [DecidableEq ν]

/-! ## the node -/

/-- `peer_message_listen` for one peer; a reply has the number of its stamp -/
inductive ListenerPhase where
  | idle
  | read (message : PeerMessage)
  | counted (message : PeerMessage)
  | replying (id : ℕ) (reply : PeerMessage)

namespace ListenerPhase

/-- the timestamp that is not counted in -/
def unread : ListenerPhase → Option ℕ
  | .read message => some message.timestamp
  | .idle | .counted _ | .replying _ _ => none

/-- the message that is to be handled -/
def unhandled : ListenerPhase → Option PeerMessage
  | .counted message => some message
  | .idle | .read _ | .replying _ _ => none

/-- the reply that is to be sent -/
def unsent : ListenerPhase → Option (ℕ × ℕ)
  | .replying id reply => some (id, reply.timestamp)
  | .idle | .read _ | .counted _ => none

end ListenerPhase

structure ClockedNode (ν : Type) where
  node : LockNode ν Unit
  listeners : ν → ListenerPhase
  lpMutex : Option ν
  /-- the number of the last stamp of the client thread -/
  clientId : ℕ
  next : ℕ
  log : List LamportClock.Event

inductive ClockAct (ν : Type) where
  | lock
  | advance
  | serve (txid : Int) (line : CStr)
  | read (q : ν) (message : PeerMessage)
  | count (q : ν)
  | handle (q : ν)
  | reply (q : ν)

/-- the next step of the client thread stamps a message -/
def ThreadPhase.stamps : ThreadPhase ν → Bool
  | .served _ _ _ _ | .dequeued _ => true
  | .idle | .stamped _ | .queued _ | .sending _ _ | .marking _ _ _ | .heading _ | .critical _
  | .writing _ _ _ | .releasing _ _ _ => false

/-- the message that the next step of the client thread sends -/
def ThreadPhase.sends : ThreadPhase ν → Option PeerMessage
  | .sending msg (_ :: _) => some msg.message
  | .writing _ write (_ :: _) => some write
  | .releasing _ release (_ :: _) => some release
  | .sending _ [] | .writing _ _ [] | .releasing _ _ [] | .idle | .stamped _ | .queued _
  | .marking _ _ _ | .heading _ | .critical _ | .served _ _ _ _ | .dequeued _ => none

/-- the message that is still to be sent to a peer -/
def ThreadPhase.outgoing (peers : List (Fin maxPeers × ν)) : ThreadPhase ν → Option PeerMessage
  | .stamped msg | .queued msg => if peers = [] then none else some msg.message
  | .sending msg rest | .marking msg _ rest => if rest = [] then none else some msg.message
  | .writing _ write rest => if rest = [] then none else some write
  | .releasing _ release rest => if rest = [] then none else some release
  | .idle | .heading _ | .critical _ | .served _ _ _ _ | .dequeued _ => none

def ClockedNode.init : ClockedNode ν := ⟨LockNode.init, fun _ => .idle, none, 0, 0, []⟩

/-- A step of the node, with peers whose ids are `peerId`.  The messages are of 32-bit timestamps.
`handle` is all of `handle_peer_message` behind `update_timestamp`, which is repeated without effect
(`updateTimestamp_of_le`), but for the sending; it keeps `lp_mutex` until the reply is sent.  So the
enqueueing of a request, the test of `requests` and the stamp of the reply are one step.  The client
thread may mark `requests` between the test and the stamp; the reply goes out all the same, with the
stamp it has when the mark comes after `handle`. -/
def clockStep (nodeId : ℕ) (peers : List (Fin maxPeers × ν)) (peerId : ν → ℕ)
    (s : ClockedNode ν) : ClockAct ν → Option (ClockedNode ν)
  | .lock => (s.node.distributedLock nodeId ()).map fun n =>
      { s with node := n, clientId := s.next, next := s.next + 1 }
  | .advance => (s.node.advance nodeId peers ()).map fun r =>
      { s with
        node := r.1
        clientId := if (s.node.threads ()).stamps then s.next else s.clientId
        next := if (s.node.threads ()).stamps then s.next + 1 else s.next
        log := r.2.map (fun x => .sent s.clientId x.2.timestamp) ++ s.log }
  | .serve txid line => (s.node.serve () txid line).map fun n => { s with node := n }
  | .read q message =>
    match s.listeners q with
    | .idle =>
      if message.timestamp < 2 ^ 32 then
        some { s with
          listeners := Function.update s.listeners q (.read message)
          log := .received message.timestamp :: s.log }
      else none
    | _ => none
  | .count q =>
    match s.listeners q with
    | .read message => some { s with
        node := s.node.updateTimestamp message.timestamp
        listeners := Function.update s.listeners q (.counted message) }
    | _ => none
  | .handle q =>
    match s.listeners q with
    | .counted message =>
      if (message.messageType = .requestLock ∨ message.messageType = .replyLock) ∧
          s.lpMutex ≠ none then none
      else (s.node.handlePeerMessage nodeId message q (peerId q)).map fun r =>
        match r.2 with
        | [] => { s with node := r.1, listeners := Function.update s.listeners q .idle }
        | (_, reply) :: _ => { s with
            node := r.1
            listeners := Function.update s.listeners q (.replying s.next reply)
            lpMutex := some q
            next := s.next + 1 }
    | _ => none
  | .reply q =>
    match s.listeners q with
    | .replying id reply => some { s with
        listeners := Function.update s.listeners q .idle
        lpMutex := none
        log := .sent id reply.timestamp :: s.log }
    | _ => none

/-- `handle_peer_message` answers the message -/
def Answers (n : LockNode ν Unit) (q : ν) (peerNodeId : ℕ) (message : PeerMessage) : Prop :=
  (message.messageType = .requestLock ∧ ¬ n.defers message peerNodeId) ∨
    (message.messageType = .replyLock ∧ n.pending q = true)

/-- the next timestamp is no overflow, and no message read is missing in the clock -/
def StampOk (s : ClockedNode ν) : Prop :=
  s.node.timestamp + 1 < 2 ^ 32 ∧ ∀ q, ∀ ts ∈ (s.listeners q).unread, ts ≤ s.node.timestamp

/-- Every message is stamped below the limit and with all messages read counted in; while a stamped
message is still to be sent, only earlier messages are read, and only earlier ones are sent. -/
def ClockOk (peers : List (Fin maxPeers × ν)) (peerId : ν → ℕ) (s : ClockedNode ν) :
    ClockAct ν → Prop
  | .lock => StampOk s
  | .advance => ((s.node.threads ()).stamps = true → StampOk s) ∧
      ∀ m ∈ (s.node.threads ()).sends, ∀ q, ∀ reply ∈ (s.listeners q).unsent, m.timestamp < reply.2
  | .serve _ _ => True
  | .read _ message =>
    (∀ m ∈ (s.node.threads ()).outgoing peers, message.timestamp < m.timestamp) ∧
      ∀ q, ∀ reply ∈ (s.listeners q).unsent, message.timestamp < reply.2
  | .count _ => True
  | .handle q => ∀ m ∈ (s.listeners q).unhandled, Answers s.node q (peerId q) m → StampOk s
  | .reply q => ∀ reply ∈ (s.listeners q).unsent,
      ∀ m ∈ (s.node.threads ()).outgoing peers, reply.2 < m.timestamp

section
variable [Fintype ν]

instance (n : LockNode ν Unit) (q : ν) (peerNodeId : ℕ) (message : PeerMessage) :
    Decidable (Answers n q peerNodeId message) := inferInstanceAs (Decidable (_ ∨ _))

instance (s : ClockedNode ν) : Decidable (StampOk s) := inferInstanceAs (Decidable (_ ∧ _))

instance decClockOk (peers : List (Fin maxPeers × ν)) (peerId : ν → ℕ) (s : ClockedNode ν) :
    (a : ClockAct ν) → Decidable (ClockOk peers peerId s a)
  | .lock => inferInstanceAs (Decidable (StampOk s))
  | .advance => inferInstanceAs (Decidable ((_ → StampOk s) ∧ ∀ m ∈ _, ∀ q, ∀ reply ∈ _, _))
  | .serve _ _ => isTrue trivial
  | .read _ _ => inferInstanceAs (Decidable ((∀ m ∈ _, _) ∧ ∀ q, ∀ reply ∈ _, _))
  | .count _ => isTrue trivial
  | .handle q => inferInstanceAs (Decidable (∀ m ∈ _, Answers s.node q (peerId q) m → StampOk s))
  | .reply _ => inferInstanceAs (Decidable (∀ reply ∈ _, ∀ m ∈ _, _))

end

/-! ## what the steps do to the clock -/

section clock
variable {n : LockNode ν Unit} {nodeId : ℕ} {peers : List (Fin maxPeers × ν)}

theorem timestamp_updateTimestamp (n : LockNode ν Unit) (ts : ℕ) :
    (n.updateTimestamp ts).timestamp = max n.timestamp ts := by
  show (if n.timestamp > ts then n.timestamp else ts) = _
  split_ifs with h
  · exact (max_eq_left h.le).symm
  · exact (max_eq_right (Nat.le_of_not_lt h)).symm

theorem timestamp_stamp_max (n : LockNode ν Unit) :
    n.stamp.timestamp = max n.timestamp ((n.timestamp + 1) % 2 ^ 32) :=
  timestamp_updateTimestamp n _

/-- a timestamp that is counted in already -/
theorem updateTimestamp_of_le {ts : ℕ} (h : ts ≤ n.timestamp) : n.updateTimestamp ts = n := by
  have hts : (if n.timestamp > ts then n.timestamp else ts) = n.timestamp := by
    split_ifs with hlt
    · rfl
    · exact le_antisymm h (Nat.le_of_not_lt hlt)
  unfold LockNode.updateTimestamp
  rw [hts]

/-- A step of the client thread, as the clock sees it. -/
inductive ClientCase (peers : List (Fin maxPeers × ν)) (n : LockNode ν Unit)
    (r : LockNode ν Unit × List (ν × PeerMessage)) : Prop where
  | quiet (hs : (n.threads ()).stamps = false) (hout : r.2 = [])
      (hts : r.1.timestamp = n.timestamp)
      (ho : (r.1.threads ()).outgoing peers = (n.threads ()).outgoing peers ∨
        (r.1.threads ()).outgoing peers = none)
  | stamp (m : PeerMessage) (hs : (n.threads ()).stamps = true) (hout : r.2 = [])
      (hts : r.1.timestamp = n.stamp.timestamp) (hm : m.timestamp = n.stamp.timestamp)
      (ho : (r.1.threads ()).outgoing peers = some m ∨ (r.1.threads ()).outgoing peers = none)
  | send (m : PeerMessage) (q : ν) (hs : (n.threads ()).stamps = false)
      (hsend : (n.threads ()).sends = some m) (hold : (n.threads ()).outgoing peers = some m)
      (hout : r.2 = [(q, m)]) (hts : r.1.timestamp = n.timestamp)
      (ho : (r.1.threads ()).outgoing peers = some m ∨ (r.1.threads ()).outgoing peers = none)

/-- sent to some peers, or to all -/
theorem outgoing_rest {m : PeerMessage} (rest : List (Fin maxPeers × ν)) :
    (if rest = [] then none else some m) = some m ∨
      (if rest = [] then none else some m) = none := by
  split_ifs
  · exact Or.inr rfl
  · exact Or.inl rfl

theorem threads_setThread (n : LockNode ν Unit) (ph : ThreadPhase ν) :
    (n.setThread () ph).threads () = ph := by
  show Function.update n.threads () ph () = ph
  rw [Function.update_self]

theorem advance_clock {r : LockNode ν Unit × List (ν × PeerMessage)}
    (h : n.advance nodeId peers () = some r) : ClientCase peers n r := by
  have hset := threads_setThread n
  have hset' := threads_setThread n.stamp
  unfold LockNode.advance at h
  cases hp : n.threads () with
  | idle => rw [hp] at h; cases h
  | critical msg => rw [hp] at h; cases h
  | stamped msg =>
    rw [hp] at h
    cases he : enqueue n.lockQueue msg with
    | none =>
      simp only [he] at h
      obtain rfl := Option.some.inj h
      refine .quiet (by rw [hp]; rfl) rfl rfl (Or.inr ?_)
      rw [hset]
      rfl
    | some q =>
      simp only [he] at h
      obtain rfl := Option.some.inj h
      refine .quiet (by rw [hp]; rfl) rfl rfl (Or.inl ?_)
      show ((n.setThread () (.queued msg)).threads ()).outgoing peers = _
      rw [hset, hp]
      rfl
  | queued msg =>
    rw [hp] at h
    obtain ⟨-, h⟩ := Option.ite_none_right_eq_some.mp h
    obtain rfl := Option.some.inj h
    refine .quiet (by rw [hp]; rfl) rfl rfl (Or.inl ?_)
    show ((n.setThread () (.sending msg peers)).threads ()).outgoing peers = _
    rw [hset, hp]
    rfl
  | sending msg rest =>
    rw [hp] at h
    cases rest with
    | nil =>
      obtain ⟨-, h⟩ := Option.ite_none_right_eq_some.mp h
      obtain rfl := Option.some.inj h
      refine .quiet (by rw [hp]; rfl) rfl rfl (Or.inr ?_)
      show ((n.setThread () (.heading msg)).threads ()).outgoing peers = _
      rw [hset]
      rfl
    | cons a rest =>
      obtain rfl := Option.some.inj h
      refine .send msg.message a.2 (by rw [hp]; rfl) (by rw [hp]; rfl) (by rw [hp]; rfl) rfl rfl ?_
      rw [hset]
      exact outgoing_rest rest
  | marking msg i rest =>
    rw [hp] at h
    obtain rfl := Option.some.inj h
    refine .quiet (by rw [hp]; rfl) rfl rfl (Or.inl ?_)
    show ((n.setThread () (.sending msg rest)).threads ()).outgoing peers = _
    rw [hset, hp]
    rfl
  | heading msg =>
    rw [hp] at h
    obtain ⟨-, h⟩ := Option.ite_none_right_eq_some.mp h
    obtain rfl := Option.some.inj h
    refine .quiet (by rw [hp]; rfl) rfl rfl (Or.inr ?_)
    rw [hset]
    rfl
  | served msg w k v =>
    rw [hp] at h
    obtain rfl := Option.some.inj h
    refine .stamp ⟨.serverWrite, n.stamp.timestamp, nodeId, k, v, w⟩ (by rw [hp]; rfl) rfl rfl rfl
      ?_
    rw [hset']
    exact outgoing_rest peers
  | writing msg w rest =>
    rw [hp] at h
    cases rest with
    | nil =>
      obtain rfl := Option.some.inj h
      refine .quiet (by rw [hp]; rfl) rfl rfl (Or.inr ?_)
      show ((n.setThread () (.dequeued msg)).threads ()).outgoing peers = _
      rw [hset]
      rfl
    | cons a rest =>
      obtain rfl := Option.some.inj h
      refine .send w a.2 (by rw [hp]; rfl) (by rw [hp]; rfl) (by rw [hp]; rfl) rfl rfl ?_
      rw [hset]
      exact outgoing_rest rest
  | dequeued msg =>
    rw [hp] at h
    obtain rfl := Option.some.inj h
    refine .stamp (lockMessage .releaseLock nodeId n.stamp.timestamp) (by rw [hp]; rfl) rfl rfl rfl
      ?_
    rw [hset']
    exact outgoing_rest peers
  | releasing msg release rest =>
    rw [hp] at h
    cases rest with
    | nil =>
      obtain rfl := Option.some.inj h
      refine .quiet (by rw [hp]; rfl) rfl rfl (Or.inr ?_)
      rw [hset]
      rfl
    | cons a rest =>
      obtain rfl := Option.some.inj h
      refine .send release a.2 (by rw [hp]; rfl) (by rw [hp]; rfl) (by rw [hp]; rfl) rfl rfl ?_
      rw [hset]
      exact outgoing_rest rest

/-- the handling of a message that is counted in: an answer is stamped, and nothing else is -/
theorem handle_clock {m : PeerMessage} {q : ν} {peerNodeId : ℕ}
    {r : LockNode ν Unit × List (ν × PeerMessage)} (hle : m.timestamp ≤ n.timestamp)
    (h : n.handlePeerMessage nodeId m q peerNodeId = some r) :
    r.1.threads = n.threads ∧
      ((r.2 = [] ∧ r.1.timestamp = n.timestamp) ∨
        Answers n q peerNodeId m ∧ r.1.timestamp = n.stamp.timestamp ∧
          ∃ reply, r.2 = [(q, reply)] ∧ reply.timestamp = n.stamp.timestamp) := by
  unfold LockNode.handlePeerMessage at h
  rw [updateTimestamp_of_le hle] at h
  cases hty : m.messageType with
  | requestLock =>
    simp only [hty] at h
    split_ifs at h with hid hd
    · obtain rfl := Option.some.inj h
      exact ⟨rfl, Or.inl ⟨rfl, rfl⟩⟩
    · obtain rfl := Option.some.inj h
      exact ⟨rfl, Or.inr ⟨Or.inl ⟨hty, hd⟩, rfl, _, rfl, rfl⟩⟩
  | releaseLock =>
    simp only [hty] at h
    obtain rfl := Option.some.inj h
    exact ⟨rfl, Or.inl ⟨rfl, rfl⟩⟩
  | replyLock =>
    simp only [hty] at h
    split_ifs at h with hid hp
    · obtain rfl := Option.some.inj h
      exact ⟨rfl, Or.inr ⟨Or.inr ⟨hty, hp⟩, rfl, _, rfl, rfl⟩⟩
    · obtain rfl := Option.some.inj h
      exact ⟨rfl, Or.inl ⟨rfl, rfl⟩⟩
  | serverWrite =>
    simp only [hty] at h
    split at h
    · cases h
    · split_ifs at h
      · obtain ⟨store, -, rfl⟩ := Option.map_eq_some_iff.mp h
        exact ⟨rfl, Or.inl ⟨rfl, rfl⟩⟩
      · obtain rfl := Option.some.inj h
        exact ⟨rfl, Or.inl ⟨rfl, rfl⟩⟩

end clock

theorem serve_clock {n n' : LockNode ν Unit} {txid : Int} {line : CStr}
    (h : n.serve () txid line = some n') : n'.timestamp = n.timestamp ∧
      ∀ peers, (n'.threads ()).outgoing peers = (n.threads ()).outgoing peers := by
  unfold LockNode.serve at h
  split at h
  · rename_i msg hp
    simp only [Option.bind_eq_bind, Option.bind_eq_some_iff] at h
    obtain ⟨⟨w, k, v⟩, -, x, -, h⟩ := h
    obtain rfl := Option.some.inj h
    refine ⟨rfl, fun peers => ?_⟩
    show ((n.setThread () (.served msg w k v)).threads ()).outgoing peers = _
    rw [threads_setThread, hp]
    rfl
  · cases h

/-- counting a message in is the first line of its handling -/
theorem handle_updateTimestamp (nodeId : ℕ) (n : LockNode ν Unit) (m : PeerMessage) (q : ν)
    (peerNodeId : ℕ) : (n.updateTimestamp m.timestamp).handlePeerMessage nodeId m q peerNodeId
      = n.handlePeerMessage nodeId m q peerNodeId := by
  have hagain : (n.updateTimestamp m.timestamp).updateTimestamp m.timestamp
      = n.updateTimestamp m.timestamp := updateTimestamp_of_le (le_updateTimestamp n _).2
  unfold LockNode.handlePeerMessage
  rw [hagain]

theorem le_handle {n : LockNode ν Unit} {nodeId : ℕ} {m : PeerMessage} {q : ν} {peerNodeId : ℕ}
    {r : LockNode ν Unit × List (ν × PeerMessage)}
    (h : n.handlePeerMessage nodeId m q peerNodeId = some r) : n.timestamp ≤ r.1.timestamp := by
  have hle := le_updateTimestamp n m.timestamp
  rw [← handle_updateTimestamp] at h
  obtain ⟨-, ⟨-, hts⟩ | ⟨-, hts, -⟩⟩ := handle_clock hle.2 h
  · rw [hts]
    exact hle.1
  · rw [hts]
    exact hle.1.trans (le_stamp _)

/-! ## the clock behind the node -/

section abs
variable {nodeId : ℕ} {peers : List (Fin maxPeers × ν)} {peerId : ν → ℕ} {s s' : ClockedNode ν}

/-- the client thread is `none`, a listener the peer it listens to -/
def ClockedNode.abs (peers : List (Fin maxPeers × ν)) (s : ClockedNode ν) : State (Option ν) where
  clock := s.node.timestamp
  reading o := o.elim none fun q => (s.listeners q).unread
  unsent o := o.elim (((s.node.threads ()).outgoing peers).map fun m => (s.clientId, m.timestamp))
    fun q => (s.listeners q).unsent
  next := s.next
  log := s.log

/-- a listener goes on -/
theorem elim_update {β : Type} (f : ListenerPhase → β) (d : β) (l : ν → ListenerPhase) (q : ν)
    (ph : ListenerPhase) :
    (fun o : Option ν => o.elim d fun q' => f (Function.update l q ph q'))
      = Function.update (fun o : Option ν => o.elim d fun q' => f (l q')) (some q) (f ph) := by
  funext o
  cases o with
  | none => rw [Function.update_of_ne (Option.some_ne_none q).symm]; rfl
  | some q' =>
    by_cases he : q' = q
    · subst he
      rw [Function.update_self]
      show f (Function.update l q' ph q') = f ph
      rw [Function.update_self]
    · rw [Function.update_of_ne (fun h => he (Option.some.inj h))]
      show f (Function.update l q ph q') = f (l q')
      rw [Function.update_of_ne he]

/-- and it looks the same -/
theorem elim_update_same {β : Type} {f : ListenerPhase → β} {l : ν → ListenerPhase} {q : ν}
    {ph : ListenerPhase} (h : f ph = f (l q)) (d : β) :
    (fun o : Option ν => o.elim d fun q' => f (Function.update l q ph q'))
      = fun o : Option ν => o.elim d fun q' => f (l q') := by
  rw [elim_update, Function.update_eq_self_iff]
  exact h

/-- the client thread goes on -/
theorem elim_none {β : Type} (d d' : β) (g : ν → β) :
    (fun o : Option ν => o.elim d' g)
      = Function.update (fun o : Option ν => o.elim d g) none d' := by
  funext o
  cases o with
  | none => rw [Function.update_self]; rfl
  | some q => rw [Function.update_of_ne (Option.some_ne_none q)]; rfl

/-- What is kept: messages handled are counted in, and a reply is sent under `lp_mutex`. -/
structure Sound (s : ClockedNode ν) : Prop where
  counted : ∀ q m, s.listeners q = .counted m → m.timestamp ≤ s.node.timestamp
  lpMutex : ∀ q id reply, s.listeners q = .replying id reply → s.lpMutex = some q

theorem Sound.init : Sound (ClockedNode.init : ClockedNode ν) where
  counted _ _ h := by cases h
  lpMutex _ _ _ h := by cases h

theorem step_read {q : ν} {m : PeerMessage}
    (h : clockStep nodeId peers peerId s (.read q m) = some s') :
    s.listeners q = .idle ∧ m.timestamp < 2 ^ 32 ∧ s' = { s with
      listeners := Function.update s.listeners q (.read m)
      log := .received m.timestamp :: s.log } := by
  unfold clockStep at h
  dsimp only at h
  split at h
  · rename_i hq
    obtain ⟨hts, h⟩ := Option.ite_none_right_eq_some.mp h
    exact ⟨hq, hts, (Option.some.inj h).symm⟩
  · cases h

theorem step_count {q : ν} (h : clockStep nodeId peers peerId s (.count q) = some s') :
    ∃ m, s.listeners q = .read m ∧ s' = { s with
      node := s.node.updateTimestamp m.timestamp
      listeners := Function.update s.listeners q (.counted m) } := by
  unfold clockStep at h
  dsimp only at h
  split at h
  · rename_i m hq
    exact ⟨m, hq, (Option.some.inj h).symm⟩
  · cases h

theorem step_reply_sent {q : ν} (h : clockStep nodeId peers peerId s (.reply q) = some s') :
    ∃ id reply, s.listeners q = .replying id reply ∧ s' = { s with
      listeners := Function.update s.listeners q .idle
      lpMutex := none
      log := .sent id reply.timestamp :: s.log } := by
  unfold clockStep at h
  dsimp only at h
  split at h
  · rename_i id reply hq
    exact ⟨id, reply, hq, (Option.some.inj h).symm⟩
  · cases h

/-- a message is answered, under `lp_mutex`, or not -/
theorem step_handle (hs : Sound s) {q : ν}
    (h : clockStep nodeId peers peerId s (.handle q) = some s') :
    ∃ m n', s.listeners q = .counted m ∧ n'.threads = s.node.threads ∧
      ((n'.timestamp = s.node.timestamp ∧
          s' = { s with node := n', listeners := Function.update s.listeners q .idle }) ∨
        Answers s.node q (peerId q) m ∧ s.lpMutex = none ∧
          n'.timestamp = s.node.stamp.timestamp ∧
          ∃ reply, reply.timestamp = s.node.stamp.timestamp ∧ s' = { s with
            node := n'
            listeners := Function.update s.listeners q (.replying s.next reply)
            lpMutex := some q
            next := s.next + 1 }) := by
  unfold clockStep at h
  dsimp only at h
  split at h
  · rename_i m hq
    obtain ⟨hmutex, h⟩ := Option.ite_none_left_eq_some.mp h
    obtain ⟨r, hr, hs'⟩ := Option.map_eq_some_iff.mp h
    obtain ⟨hthreads, hcase⟩ := handle_clock (hs.counted q m hq) hr
    refine ⟨m, r.1, hq, hthreads, ?_⟩
    rcases hcase with ⟨hout, hts⟩ | ⟨hans, hts, reply, hout, hreply⟩
    · rw [hout] at hs'
      exact Or.inl ⟨hts, hs'.symm⟩
    · rw [hout] at hs'
      refine Or.inr ⟨hans, ?_, hts, reply, hreply, hs'.symm⟩
      by_contra hheld
      exact hmutex ⟨hans.imp And.left And.left, hheld⟩
  · cases h

/-- **The timestamp never decreases in a step**, whatever the state. -/
theorem timestamp_le {a : ClockAct ν} (h : clockStep nodeId peers peerId s a = some s') :
    s.node.timestamp ≤ s'.node.timestamp := by
  cases a with
  | lock =>
    obtain ⟨n, hn, rfl⟩ := Option.map_eq_some_iff.mp h
    unfold LockNode.distributedLock at hn
    split at hn
    · obtain rfl := Option.some.inj hn
      exact le_stamp s.node
    · cases hn
  | advance =>
    obtain ⟨r, hr, rfl⟩ := Option.map_eq_some_iff.mp h
    show s.node.timestamp ≤ r.1.timestamp
    cases advance_clock hr with
    | quiet _ _ hts _ => rw [hts]
    | stamp m _ _ hts _ _ => exact hts ▸ le_stamp s.node
    | send m q _ _ _ _ hts _ => rw [hts]
  | serve txid line =>
    obtain ⟨n, hn, rfl⟩ := Option.map_eq_some_iff.mp h
    show s.node.timestamp ≤ n.timestamp
    rw [(serve_clock hn).1]
  | read q m =>
    obtain ⟨-, -, rfl⟩ := step_read h
    exact le_rfl
  | count q =>
    obtain ⟨m, -, rfl⟩ := step_count h
    exact (le_updateTimestamp s.node m.timestamp).1
  | handle q =>
    unfold clockStep at h
    dsimp only at h
    split at h
    · obtain ⟨-, h⟩ := Option.ite_none_left_eq_some.mp h
      obtain ⟨r, hr, hs'⟩ := Option.map_eq_some_iff.mp h
      have hnode : s'.node = r.1 := by
        rw [← hs']
        cases r.2 with
        | nil => rfl
        | cons x rest => rfl
      rw [hnode]
      exact le_handle hr
    · cases h
  | reply q =>
    obtain ⟨id, reply, -, rfl⟩ := step_reply_sent h
    exact le_rfl

/-- one listener goes on -/
theorem Sound.listener (hs : Sound s) {q : ν} {ph : ListenerPhase} {s' : ClockedNode ν}
    (hl : s'.listeners = Function.update s.listeners q ph)
    (hts : s.node.timestamp ≤ s'.node.timestamp)
    (hc : ∀ m, ph = .counted m → m.timestamp ≤ s'.node.timestamp)
    (hr : ∀ id reply, ph = .replying id reply → s'.lpMutex = some q)
    (ho : ∀ q' id reply, q' ≠ q → s.listeners q' = .replying id reply → s'.lpMutex = some q') :
    Sound s' := by
  constructor
  · rw [hl]
    apply (Function.forall_update_iff s.listeners
      fun _ ph => ∀ m, ph = .counted m → m.timestamp ≤ s'.node.timestamp).mpr
    exact ⟨hc, fun q' _ m hm => (hs.counted q' m hm).trans hts⟩
  · rw [hl]
    apply (Function.forall_update_iff s.listeners
      fun q' ph => ∀ id reply, ph = .replying id reply → s'.lpMutex = some q').mpr
    exact ⟨hr, fun q' hne id reply h => ho q' id reply hne h⟩

theorem Sound.step (hs : Sound s) {a : ClockAct ν}
    (h : clockStep nodeId peers peerId s a = some s') : Sound s' := by
  have hts := timestamp_le h
  cases a with
  | lock =>
    obtain ⟨n, -, rfl⟩ := Option.map_eq_some_iff.mp h
    exact ⟨fun q m hq => (hs.counted q m hq).trans hts, hs.lpMutex⟩
  | advance =>
    obtain ⟨r, -, rfl⟩ := Option.map_eq_some_iff.mp h
    exact ⟨fun q m hq => (hs.counted q m hq).trans hts, hs.lpMutex⟩
  | serve txid line =>
    obtain ⟨n, -, rfl⟩ := Option.map_eq_some_iff.mp h
    exact ⟨fun q m hq => (hs.counted q m hq).trans hts, hs.lpMutex⟩
  | read q m =>
    obtain ⟨-, -, rfl⟩ := step_read h
    exact hs.listener rfl hts (fun _ he => by cases he) (fun _ _ he => by cases he)
      fun q' id reply _ => hs.lpMutex q' id reply
  | count q =>
    obtain ⟨m, -, rfl⟩ := step_count h
    refine hs.listener rfl hts ?_ (fun _ _ he => by cases he)
      fun q' id reply _ => hs.lpMutex q' id reply
    intro m' he
    obtain rfl := ListenerPhase.counted.inj he
    exact (le_updateTimestamp s.node m.timestamp).2
  | handle q =>
    obtain ⟨m, n', -, -, ⟨-, rfl⟩ | ⟨-, hfree, -, reply, -, rfl⟩⟩ := step_handle hs h
    · exact hs.listener rfl hts (fun _ he => by cases he) (fun _ _ he => by cases he)
        fun q' id reply _ => hs.lpMutex q' id reply
    · refine hs.listener rfl hts (fun _ he => by cases he) (fun _ _ _ => rfl) ?_
      intro q' id reply' _ hq'
      rw [hs.lpMutex q' id reply' hq'] at hfree
      cases hfree
  | reply q =>
    obtain ⟨id, reply, hq, rfl⟩ := step_reply_sent h
    refine hs.listener rfl hts (fun _ he => by cases he) (fun _ _ he => by cases he) ?_
    intro q' id' reply' hne hq'
    have h1 := hs.lpMutex q' id' reply' hq'
    rw [hs.lpMutex q id reply hq] at h1
    exact absurd (Option.some.inj h1).symm hne

theorem lock_clock (peers : List (Fin maxPeers × ν)) {n n' : LockNode ν Unit}
    (h : n.distributedLock nodeId () = some n') :
    n'.timestamp = n.stamp.timestamp ∧ ∃ m, m.timestamp = n.stamp.timestamp ∧
      ((n'.threads ()).outgoing peers = some m ∨ (n'.threads ()).outgoing peers = none) := by
  unfold LockNode.distributedLock at h
  split at h
  · obtain rfl := Option.some.inj h
    refine ⟨rfl, lockMessage .requestLock nodeId n.stamp.timestamp, rfl, ?_⟩
    show ((n.stamp.setThread () (.stamped _)).threads ()).outgoing peers = _ ∨ _ = none
    rw [threads_setThread]
    exact outgoing_rest peers
  · cases h

/-- the limit of `uint32_t` -/
def uint32Limit : ℕ := 2 ^ 32

/-- a stamp of the client thread; the message is left with it unless there are no peers -/
theorem abs_stamp {n' : LockNode ν Unit} {m : PeerMessage}
    (hts : n'.timestamp = s.node.stamp.timestamp) (hm : m.timestamp = s.node.stamp.timestamp)
    (ho : (n'.threads ()).outgoing peers = some m ∨ (n'.threads ()).outgoing peers = none) :
    ∃ acts, run (LamportClock.step uint32Limit) (s.abs peers) acts
        = some (ClockedNode.abs peers { s with
            node := n', clientId := s.next, next := s.next + 1 }) ∧
      (StampOk s →
        Guarded (LamportClock.step uint32Limit) (Ok uint32Limit) (s.abs peers) acts) := by
  have hclock : max s.node.timestamp ((s.node.timestamp + 1) % uint32Limit) = n'.timestamp := by
    rw [hts]
    exact (timestamp_stamp_max s.node).symm
  have hok : StampOk s → Ok uint32Limit (s.abs peers) (.stamp none) := by
    rintro ⟨hlim, hread⟩
    refine ⟨hlim, ?_⟩
    intro o ts ho
    cases o with
    | none => cases ho
    | some q => exact hread q ts ho
  rcases ho with ho | ho
  · refine ⟨[.stamp none], ?_, fun h => ⟨hok h, fun _ _ => trivial⟩⟩
    show some _ = some _
    refine congrArg some (State.ext hclock rfl ?_ rfl rfl)
    show Function.update (s.abs peers).unsent none
      (some (s.next, max s.node.timestamp ((s.node.timestamp + 1) % uint32Limit))) = _
    rw [hclock]
    show _ = fun o : Option ν => o.elim _ _
    rw [ho, hts, ← hm]
    exact (elim_none _ _ _).symm
  · refine ⟨[.stamp none, .drop none], ?_,
      fun h => ⟨hok h, fun _ _ => ⟨trivial, fun _ _ => trivial⟩⟩⟩
    show some _ = some _
    refine congrArg some (State.ext hclock rfl ?_ rfl rfl)
    show Function.update (Function.update (s.abs peers).unsent none _) none none = _
    rw [Function.update_idem]
    show _ = fun o : Option ν => o.elim _ _
    rw [ho]
    exact (elim_none _ _ _).symm

theorem ListenerPhase.eq_of_unsent {ph : ListenerPhase} {m : ℕ × ℕ} (h : ph.unsent = some m) :
    ∃ id reply, ph = .replying id reply := by
  cases ph with
  | replying id reply => exact ⟨id, reply, rfl⟩
  | _ => cases h

/-- one reply at a time is on its way out -/
theorem Sound.unsent_eq (hs : Sound s) {q q' : ν} {m m' : ℕ × ℕ}
    (h : (s.listeners q).unsent = some m) (h' : (s.listeners q').unsent = some m') : q = q' := by
  obtain ⟨id, reply, hq⟩ := ListenerPhase.eq_of_unsent h
  obtain ⟨id', reply', hq'⟩ := ListenerPhase.eq_of_unsent h'
  have h1 := hs.lpMutex q id reply hq
  rw [hs.lpMutex q' id' reply' hq'] at h1
  exact (Option.some.inj h1).symm

/-- the client thread sends a message, maybe for the last time -/
theorem abs_send {n' : LockNode ν Unit} {m : PeerMessage}
    (hold : (s.node.threads ()).outgoing peers = some m) (hts : n'.timestamp = s.node.timestamp)
    (ho : (n'.threads ()).outgoing peers = some m ∨ (n'.threads ()).outgoing peers = none) :
    ∃ acts, run (LamportClock.step uint32Limit) (s.abs peers) acts
        = some (ClockedNode.abs peers { s with
            node := n', log := .sent s.clientId m.timestamp :: s.log }) ∧
      ((∀ q, ∀ reply ∈ (s.listeners q).unsent, m.timestamp < reply.2) →
        Guarded (LamportClock.step uint32Limit) (Ok uint32Limit) (s.abs peers) acts) := by
  have hclient : (s.abs peers).unsent none = some (s.clientId, m.timestamp) := by
    show ((s.node.threads ()).outgoing peers).map _ = _
    rw [hold]
    rfl
  have hsend : LamportClock.step uint32Limit (s.abs peers) (.send none)
      = some { s.abs peers with log := .sent s.clientId m.timestamp :: s.log } := by
    rw [LamportClock.step, hclient]
    rfl
  have hok : (∀ q, ∀ reply ∈ (s.listeners q).unsent, m.timestamp < reply.2) →
      Ok uint32Limit (s.abs peers) (.send none) := by
    intro hlt m1 hm1 o m2 hne hm2
    obtain rfl := Option.some.inj (hclient.symm.trans hm1)
    cases o with
    | none => exact absurd rfl hne
    | some q => exact hlt q m2 hm2
  rcases ho with ho | ho
  · refine ⟨[.send none], ?_, fun h => ⟨hok h, fun _ _ => trivial⟩⟩
    rw [run_cons, hsend]
    refine congrArg some (State.ext hts.symm rfl ?_ rfl rfl)
    show (fun o : Option ν => o.elim _ _) = fun o : Option ν => o.elim _ _
    rw [hold, ho]
  · refine ⟨[.send none, .drop none], ?_,
      fun h => ⟨hok h, fun _ _ => ⟨trivial, fun _ _ => trivial⟩⟩⟩
    rw [run_cons, hsend]
    refine congrArg some (State.ext hts.symm rfl ?_ rfl rfl)
    show Function.update (s.abs peers).unsent none none = fun o : Option ν => o.elim _ _
    rw [ho]
    exact (elim_none _ _ _).symm

/-- a listener reads a message -/
theorem abs_read {q : ν} {m : PeerMessage}
    (h : clockStep nodeId peers peerId s (.read q m) = some s') :
    ∃ acts, run (LamportClock.step uint32Limit) (s.abs peers) acts = some (s'.abs peers) ∧
      (ClockOk peers peerId s (.read q m) →
        Guarded (LamportClock.step uint32Limit) (Ok uint32Limit) (s.abs peers) acts) := by
  obtain ⟨hq, -, rfl⟩ := step_read h
  have hidle : (s.abs peers).reading (some q) = none := by
    show (s.listeners q).unread = none
    rw [hq]
    rfl
  refine ⟨[.read (some q) m.timestamp], ?_, fun hok => ⟨?_, fun _ _ => trivial⟩⟩
  · rw [run_cons, LamportClock.step, if_pos hidle]
    refine congrArg some (State.ext rfl ?_ ?_ rfl rfl)
    · exact (elim_update ListenerPhase.unread none s.listeners q (.read m)).symm
    · exact (elim_update_same (by rw [hq]; rfl) _).symm
  · intro o m' ho
    cases o with
    | none =>
      obtain ⟨m1, hm1, rfl⟩ := Option.map_eq_some_iff.mp ho
      exact hok.1 m1 hm1
    | some q' => exact hok.2 q' m' ho

/-- a listener counts the timestamp of the message it has read -/
theorem abs_count {q : ν} (h : clockStep nodeId peers peerId s (.count q) = some s') :
    ∃ acts, run (LamportClock.step uint32Limit) (s.abs peers) acts = some (s'.abs peers) ∧
      (ClockOk peers peerId s (.count q) →
        Guarded (LamportClock.step uint32Limit) (Ok uint32Limit) (s.abs peers) acts) := by
  obtain ⟨m, hq, rfl⟩ := step_count h
  have hread : (s.abs peers).reading (some q) = some m.timestamp := by
    show (s.listeners q).unread = _
    rw [hq]
    rfl
  refine ⟨[.count (some q)], ?_, fun _ => ⟨trivial, fun _ _ => trivial⟩⟩
  rw [run_cons, LamportClock.step, hread]
  refine congrArg some (State.ext ?_ ?_ ?_ rfl rfl)
  · exact (timestamp_updateTimestamp s.node m.timestamp).symm
  · exact (elim_update ListenerPhase.unread none s.listeners q (.counted m)).symm
  · exact (elim_update_same (by rw [hq]; rfl) _).symm

/-- a listener handles a message; a reply is stamped then -/
theorem abs_handle (hs : Sound s) {q : ν}
    (h : clockStep nodeId peers peerId s (.handle q) = some s') :
    ∃ acts, run (LamportClock.step uint32Limit) (s.abs peers) acts = some (s'.abs peers) ∧
      (ClockOk peers peerId s (.handle q) →
        Guarded (LamportClock.step uint32Limit) (Ok uint32Limit) (s.abs peers) acts) := by
  obtain ⟨m, n', hq, hthreads, hcase⟩ := step_handle hs h
  rcases hcase with ⟨hts, rfl⟩ | ⟨hans, -, hts, reply, hreply, rfl⟩
  · refine ⟨[], congrArg some (State.ext hts.symm ?_ ?_ rfl rfl), fun _ => trivial⟩
    · exact (elim_update_same (by rw [hq]; rfl) _).symm
    · show _ = fun o : Option ν => o.elim (((n'.threads ()).outgoing peers).map _) _
      rw [hthreads]
      exact (elim_update_same (by rw [hq]; rfl) _).symm
  · have hclock : max s.node.timestamp ((s.node.timestamp + 1) % uint32Limit) = n'.timestamp := by
      rw [hts]
      exact (timestamp_stamp_max s.node).symm
    refine ⟨[.stamp (some q)], congrArg some (State.ext hclock ?_ ?_ rfl rfl), fun hok => ?_⟩
    · exact (elim_update_same (by rw [hq]; rfl) _).symm
    · show Function.update (s.abs peers).unsent (some q)
        (some (s.next, max s.node.timestamp ((s.node.timestamp + 1) % uint32Limit))) =
          fun o : Option ν => o.elim (((n'.threads ()).outgoing peers).map _) _
      rw [hthreads, hclock, hts, ← hreply]
      exact (elim_update ListenerPhase.unsent _ s.listeners q (.replying s.next reply)).symm
    · obtain ⟨hlim, hread⟩ := hok m (by rw [hq]; rfl) hans
      refine ⟨⟨hlim, fun o ts ho => ?_⟩, fun _ _ => trivial⟩
      cases o with
      | none => cases ho
      | some q' => exact hread q' ts ho

/-- a listener sends its reply -/
theorem abs_reply (hs : Sound s) {q : ν}
    (h : clockStep nodeId peers peerId s (.reply q) = some s') :
    ∃ acts, run (LamportClock.step uint32Limit) (s.abs peers) acts = some (s'.abs peers) ∧
      (ClockOk peers peerId s (.reply q) →
        Guarded (LamportClock.step uint32Limit) (Ok uint32Limit) (s.abs peers) acts) := by
  obtain ⟨id, reply, hq, rfl⟩ := step_reply_sent h
  have hunsent : (s.abs peers).unsent (some q) = some (id, reply.timestamp) := by
    show (s.listeners q).unsent = _
    rw [hq]
    rfl
  have hsend : LamportClock.step uint32Limit (s.abs peers) (.send (some q))
      = some { s.abs peers with log := .sent id reply.timestamp :: s.log } := by
    rw [LamportClock.step, hunsent]
    rfl
  refine ⟨[.send (some q), .drop (some q)], ?_, fun hok => ⟨?_, fun _ _ =>
    ⟨trivial, fun _ _ => trivial⟩⟩⟩
  · rw [run_cons, hsend]
    refine congrArg some (State.ext rfl ?_ ?_ rfl rfl)
    · exact (elim_update_same (by rw [hq]; rfl) _).symm
    · exact (elim_update ListenerPhase.unsent _ s.listeners q .idle).symm
  · intro m1 hm1 o m2 hne hm2
    cases o with
    | none =>
      obtain ⟨m, hm, rfl⟩ := Option.map_eq_some_iff.mp hm2
      exact hok m1 hm1 m hm
    | some q' => exact absurd (congrArg some (hs.unsent_eq hm2 hm1)) hne

/-- **Every step of the node is made of steps of the clock**, and of `Ok` ones if it is fine. -/
theorem clockStep_abs (hs : Sound s) {a : ClockAct ν}
    (h : clockStep nodeId peers peerId s a = some s') :
    ∃ acts, run (LamportClock.step uint32Limit) (s.abs peers) acts = some (s'.abs peers) ∧
      (ClockOk peers peerId s a →
        Guarded (LamportClock.step uint32Limit) (Ok uint32Limit) (s.abs peers) acts) := by
  cases a with
  | lock =>
    obtain ⟨n, hn, rfl⟩ := Option.map_eq_some_iff.mp h
    obtain ⟨hts, m, hm, ho⟩ := lock_clock peers hn
    exact abs_stamp hts hm ho
  | advance =>
    obtain ⟨r, hr, rfl⟩ := Option.map_eq_some_iff.mp h
    cases advance_clock hr with
    | quiet hst hout hts ho =>
      rw [hst, hout]
      rcases ho with ho | ho
      · refine ⟨[], congrArg some (State.ext hts.symm rfl ?_ rfl rfl), fun _ => trivial⟩
        show (fun o : Option ν => o.elim _ _) = fun o : Option ν => o.elim _ _
        rw [ho]
        rfl
      · refine ⟨[.drop none], congrArg some (State.ext hts.symm rfl ?_ rfl rfl),
          fun _ => ⟨trivial, fun _ _ => trivial⟩⟩
        show Function.update (s.abs peers).unsent none none = fun o : Option ν => o.elim _ _
        rw [ho]
        exact (elim_none _ _ _).symm
    | stamp m hst hout hts hm ho =>
      rw [hst, hout]
      obtain ⟨acts, hrun, hg⟩ := abs_stamp (s := s) hts hm ho
      exact ⟨acts, hrun, fun hok => hg (hok.1 hst)⟩
    | send m q hst hsend hold hout hts ho =>
      rw [hst, hout]
      obtain ⟨acts, hrun, hg⟩ := abs_send (s := s) hold hts ho
      exact ⟨acts, hrun, fun hok => hg (hok.2 m hsend)⟩
  | serve txid line =>
    obtain ⟨n, hn, rfl⟩ := Option.map_eq_some_iff.mp h
    obtain ⟨hts, ho⟩ := serve_clock hn
    refine ⟨[], congrArg some (State.ext hts.symm rfl ?_ rfl rfl), fun _ => trivial⟩
    show (fun o : Option ν => o.elim _ _) = fun o : Option ν => o.elim _ _
    rw [ho peers]
  | read q m => exact abs_read h
  | count q => exact abs_count h
  | handle q => exact abs_handle hs h
  | reply q => exact abs_reply hs h

theorem abs_init : (ClockedNode.init : ClockedNode ν).abs peers = State.init := by
  refine State.ext rfl ?_ ?_ rfl rfl
  · funext o
    cases o <;> rfl
  · funext o
    cases o <;> rfl

/-- the runs of the node, as runs of the clock -/
theorem run_abs (hs : Sound s) {as : List (ClockAct ν)}
    (h : run (clockStep nodeId peers peerId) s as = some s') :
    ∃ acts, run (LamportClock.step uint32Limit) (s.abs peers) acts = some (s'.abs peers) ∧
      (Guarded (clockStep nodeId peers peerId) (ClockOk peers peerId) s as →
        Guarded (LamportClock.step uint32Limit) (Ok uint32Limit) (s.abs peers) acts) := by
  induction as generalizing s with
  | nil => exact ⟨[], congrArg (some ∘ ClockedNode.abs peers) (Option.some.inj h), fun _ => trivial⟩
  | cons a as ih =>
    obtain ⟨u, hu, hr⟩ := Option.bind_eq_some_iff.mp h
    obtain ⟨acts1, hrun1, hg1⟩ := clockStep_abs hs hu
    obtain ⟨acts2, hrun2, hg2⟩ := ih (hs.step hu) hr
    refine ⟨acts1 ++ acts2, ?_, fun hg => (guarded_append _ _ _ _ _).mpr ⟨hg1 hg.1, ?_⟩⟩
    · rw [run_append, hrun1]
      exact hrun2
    · intro t ht
      obtain rfl : u.abs peers = t := Option.some.inj (hrun1.symm.trans ht)
      exact hg2 (hg.2 u hu)

end abs

/-- **The timestamp orders the messages**: it never decreases, in no run, and in a run whose steps
are all fine every message sent has a greater timestamp than those sent and received before. -/
theorem clock_orders (nodeId : ℕ) (peers : List (Fin maxPeers × ν)) (peerId : ν → ℕ) :
    (∀ (as bs : List (ClockAct ν)) (s s' : ClockedNode ν),
      run (clockStep nodeId peers peerId) ClockedNode.init as = some s →
      run (clockStep nodeId peers peerId) s bs = some s' →
      s.node.timestamp ≤ s'.node.timestamp) ∧
    ∀ (as : List (ClockAct ν)) (s : ClockedNode ν),
      Guarded (clockStep nodeId peers peerId) (ClockOk peers peerId) ClockedNode.init as →
      run (clockStep nodeId peers peerId) ClockedNode.init as = some s → Ordered s.log := by
  constructor
  · intro as bs s s' h h'
    obtain ⟨acts, hrun, -⟩ := run_abs Sound.init h
    have hs : Sound s := inv_of_guarded (fun _ _ _ hi (_ : True) hs => hi.step hs)
      Sound.init (guarded_of_forall fun _ _ _ => trivial) h
    obtain ⟨acts', hrun', -⟩ := run_abs hs h'
    exact clock_le hrun'
  · intro as s hg h
    obtain ⟨acts, hrun, hok⟩ := run_abs Sound.init h
    rw [abs_init] at hok hrun
    exact (Inv.init.run (hok hg) hrun).ordered

/-- a node with one peer -/
def onePeer : List (Fin maxPeers × Unit) := [(⟨0, zero_lt_maxPeers⟩, ())]

/-- A reply and then a request. -/
theorem clock_orders_reply : ∃ s, run (clockStep 0 onePeer fun _ => 1) ClockedNode.init
      [.read () (lockMessage .requestLock 1 5), .count (), .handle (), .reply (), .lock, .advance,
        .advance, .advance] = some s ∧
    s.log = [.sent 1 7, .sent 0 6, .received 5] ∧ Ordered s.log := by
  have hview : (run (clockStep 0 onePeer fun _ => 1) ClockedNode.init
      [.read () (lockMessage .requestLock 1 5), .count (), .handle (), .reply (), .lock, .advance,
        .advance, .advance]).map ClockedNode.log = some [.sent 1 7, .sent 0 6, .received 5] := by
    decide
  obtain ⟨s, hs, hlog⟩ := Option.map_eq_some_iff.mp hview
  exact ⟨s, hs, hlog, (clock_orders 0 onePeer fun _ => 1).2 _ s (by decide) hs⟩

/-- At the limit a reply has the timestamp of the request that it answers: the sum wraps, and the
maximum keeps the old value.  Below it, a request that is stamped may go out after a reply with a
later stamp. -/
theorem clock_wraps : (∃ s, run (clockStep 0 onePeer fun _ => 1) ClockedNode.init
      [.read () (lockMessage .requestLock 1 4294967295), .count (), .handle (), .reply ()]
        = some s ∧
    s.log = [.sent 0 4294967295, .received 4294967295] ∧ ¬ Ordered s.log) ∧
    ∃ s, run (clockStep 0 onePeer fun _ => 1) ClockedNode.init
      [.lock, .read () (lockMessage .requestLock 1 5), .count (), .handle (), .reply (), .advance,
        .advance, .advance] = some s ∧
    s.log = [.sent 0 1, .sent 1 6, .received 5] ∧ ¬ Ordered s.log := by
  have hlimit : (run (clockStep 0 onePeer fun _ => 1) ClockedNode.init
      [.read () (lockMessage .requestLock 1 4294967295), .count (), .handle (), .reply ()]).map
        ClockedNode.log = some [.sent 0 4294967295, .received 4294967295] := by decide
  have hlate : (run (clockStep 0 onePeer fun _ => 1) ClockedNode.init
      [.lock, .read () (lockMessage .requestLock 1 5), .count (), .handle (), .reply (), .advance,
        .advance, .advance]).map ClockedNode.log = some [.sent 0 1, .sent 1 6, .received 5] := by
    decide
  obtain ⟨s, hs, hlog⟩ := Option.map_eq_some_iff.mp hlimit
  obtain ⟨s', hs', hlog'⟩ := Option.map_eq_some_iff.mp hlate
  refine ⟨⟨s, hs, hlog, ?_⟩, s', hs', hlog', ?_⟩
  · rw [hlog]
    decide
  · rw [hlog']
    decide

end LsmKv
