import LsmKv.Pqueue

/-!
# The distributed lock (`blocking_node.c`, `server_handler_blocking`)

Each node runs client handler threads and listens to its peers.  Every connection keeps the order
of its messages.  A stamp (`update_timestamp(timestamp + 1)` and the copy of `timestamp` into the
message), an `enqueue`, a `send_peer_message` and the handling of a message are one step each.

* `Deployment`, `Deployment.Full`   the slots of `peers[]` at each node;
* `ThreadPhase`, `LockNode`         where a handler thread is; the variables of a node;
* `LockNode.advance`                the next step of `distributed_lock`, `broadcast_write` and
                                    `distributed_unlock`;
* `handlePeerMessage`               a message of a peer;
* `Cluster`, `Cluster.step`         the nodes and the messages between them.

`none` stands for a step that is not possible, or that has no defined result.
-/

set_option linter.unusedSectionVars false

namespace LsmKv

/-- `MAX_PEERS` -/
def maxPeers : ℕ := 10

theorem zero_lt_maxPeers : 0 < maxPeers := by decide

theorem one_lt_maxPeers : 1 < maxPeers := by decide

/-- `REPLIES_QUORUM` -/
def repliesQuorum : ℕ := 2

/-- `node_id`, and the valid slots of `peers[]` in their order, each with the node behind it -/
structure Deployment (ν : Type) where
  nodeId : ν → ℕ
  peers : ν → List (Fin maxPeers × ν)

/-- fully connected, as many peers as `repliesQuorum`, and no node id twice -/
structure Deployment.Full {ν : Type} (d : Deployment ν) : Prop where
  nodeId_inj : Function.Injective d.nodeId
  mem_peers : ∀ p q, q ∈ (d.peers p).map Prod.snd ↔ q ≠ p
  nodup : ∀ p, ((d.peers p).map Prod.snd).Nodup
  quorum : ∀ p, (d.peers p).length = repliesQuorum

/-- `requested_lock_metadata_t` -/
structure RequestedLockMetadata where
  requestedLock : Bool
  timestampLastReq : ℕ

/-- Where a client handler thread is; `msg` is its request, `rest` what is left of the loop over
`peers[]`. -/
inductive ThreadPhase (ν : Type) where
  | idle
  | stamped (msg : PqueueData)
  | queued (msg : PqueueData)
  | sending (msg : PqueueData) (rest : List (Fin maxPeers × ν))
  | marking (msg : PqueueData) (i : Fin maxPeers) (rest : List (Fin maxPeers × ν))
  | heading (msg : PqueueData)
  | critical (msg : PqueueData)
  | served (msg : PqueueData) (writeType : WriteType) (key value : CStr)
  | writing (msg : PqueueData) (write : PeerMessage) (rest : List (Fin maxPeers × ν))
  | dequeued (msg : PqueueData)
  | releasing (msg : PqueueData) (release : PeerMessage) (rest : List (Fin maxPeers × ν))

structure LockNode (ν τ : Type) where
  timestamp : ℕ
  lockQueue : List PqueueData
  mMutex : Option τ
  repliesReceived : ℕ
  requests : Fin maxPeers → RequestedLockMetadata
  /-- `peer_request_lock_pending` of the slot of a peer -/
  pending : ν → Bool
  threads : τ → ThreadPhase ν
  /-- the next address -/
  next : ℕ
  store : Store

/-- the message of a lock request, a release or a reply -/
def lockMessage (messageType : PeerMessageType) (nodeId timestamp : ℕ) : PeerMessage :=
  ⟨messageType, timestamp, nodeId, "1".toList, "1".toList, .get⟩

/-- what `server_handler_blocking` passes to `broadcast_write` -/
def broadcastArgs (line : CStr) : Option (WriteType × CStr × CStr) :=
  match command line with
  | .put key value => value.map fun value => (.put, key, value)
  | .insert key value => value.map fun value => (.insert, key, value)
  | .delete key =>
    -- the message needs a value, which its receivers do not use
    some (.delete, key, (strtokR (strtokR (strtokR line).2).2).1.getD "1".toList)
  | .get _ => none
  | .bad => none
  | .unknown => none

namespace LockNode
variable {ν τ : Type} [DecidableEq ν] [DecidableEq τ]

def init : LockNode ν τ :=
  ⟨0, [], none, 0, fun _ => ⟨false, 0⟩, fun _ => false, fun _ => .idle, 0, Store.empty⟩

def updateTimestamp (n : LockNode ν τ) (newTimestamp : ℕ) : LockNode ν τ :=
  { n with timestamp := if n.timestamp > newTimestamp then n.timestamp else newTimestamp }

/-- `update_timestamp(timestamp + 1)` -/
def stamp (n : LockNode ν τ) : LockNode ν τ := n.updateTimestamp ((n.timestamp + 1) % 2 ^ 32)

def setThread (n : LockNode ν τ) (t : τ) (ph : ThreadPhase ν) : LockNode ν τ :=
  { n with threads := Function.update n.threads t ph }

/-- the first lines of `distributed_lock` -/
def distributedLock (nodeId : ℕ) (n : LockNode ν τ) (t : τ) : Option (LockNode ν τ) :=
  match n.threads t with
  | .idle =>
    some { n.stamp.setThread t
        (.stamped ⟨n.next, lockMessage .requestLock nodeId n.stamp.timestamp⟩) with
      next := n.next + 1 }
  | _ => none

/-- The rest of `distributed_lock`, `broadcast_write` and `distributed_unlock`, step by step, with
the messages sent. -/
def advance (nodeId : ℕ) (peers : List (Fin maxPeers × ν)) (n : LockNode ν τ) (t : τ) :
    Option (LockNode ν τ × List (ν × PeerMessage)) :=
  match n.threads t with
  | .stamped msg =>
    match enqueue n.lockQueue msg with
    | none => some (n.setThread t .idle, [])
    | some q => some ({ n.setThread t (.queued msg) with lockQueue := q }, [])
  | .queued msg =>
    if n.mMutex = none then some ({ n.setThread t (.sending msg peers) with mMutex := some t }, [])
    else none
  | .sending msg ((i, p) :: rest) =>
    some (n.setThread t (.marking msg i rest), [(p, msg.message)])
  | .marking msg i rest =>
    some ({ n.setThread t (.sending msg rest) with
      requests := Function.update n.requests i ⟨true, n.timestamp⟩ }, [])
  | .sending msg [] =>
    if repliesQuorum ≤ n.repliesReceived then
      some ({ n.setThread t (.heading msg) with repliesReceived := 0, mMutex := none }, [])
    else none
  | .heading msg =>
    -- the pointers are compared
    if peek n.lockQueue = some msg then some (n.setThread t (.critical msg), []) else none
  | .served msg writeType key value =>
    some (n.stamp.setThread t (.writing msg
      ⟨.serverWrite, n.stamp.timestamp, nodeId, key, value, writeType⟩ peers), [])
  | .writing msg write ((_, p) :: rest) =>
    some (n.setThread t (.writing msg write rest), [(p, write)])
  | .writing msg _ [] =>
    some ({ n.setThread t (.dequeued msg) with lockQueue := (dequeue n.lockQueue).2 }, [])
  | .dequeued msg =>
    some (n.stamp.setThread t (.releasing msg
      (lockMessage .releaseLock nodeId n.stamp.timestamp) peers), [])
  | .releasing msg release ((_, p) :: rest) =>
    some (n.setThread t (.releasing msg release rest), [(p, release)])
  | .releasing _ _ [] => some (n.setThread t .idle, [])
  | .idle => none
  | .critical _ => none

/-- between the two calls: `log_transaction` and the write to the own store; key and value are
whole strings here, in the peers' copies only those that are `Terminated` (`Lock/Replicas`) -/
def serve (n : LockNode ν τ) (t : τ) (txid : Int) (line : CStr) : Option (LockNode ν τ) :=
  match n.threads t with
  | .critical msg => do
    let (writeType, key, value) ← broadcastArgs line
    let (_, store) ← serverHandlerBlocking n.store txid line
    some { n.setThread t (.served msg writeType key value) with store := store }
  | _ => none

/-- `handle_request_lock`, with the reply -/
def handleRequestLock (nodeId : ℕ) (n : LockNode ν τ) (peer : ν) :
    LockNode ν τ × List (ν × PeerMessage) :=
  (n.stamp, [(peer, lockMessage .replyLock nodeId n.stamp.timestamp)])

/-- the peer's request is later than one sent to it whose reply has not come; the entry is read
under the id of the peer, and out of bounds there is no answer -/
def defers (n : LockNode ν τ) (message : PeerMessage) (peerNodeId : ℕ) : Prop :=
  ∃ h : peerNodeId < maxPeers, (n.requests ⟨peerNodeId, h⟩).requestedLock = true ∧
    (n.requests ⟨peerNodeId, h⟩).timestampLastReq < message.timestamp

instance (n : LockNode ν τ) (message : PeerMessage) (peerNodeId : ℕ) :
    Decidable (n.defers message peerNodeId) := inferInstanceAs (Decidable (∃ _, _))

/-- `handle_peer_message`; `peerNodeId` is the id of the peer -/
def handlePeerMessage (nodeId : ℕ) (n : LockNode ν τ) (message : PeerMessage) (peer : ν)
    (peerNodeId : ℕ) : Option (LockNode ν τ × List (ν × PeerMessage)) :=
  let n := n.updateTimestamp message.timestamp
  match message.messageType with
  | .requestLock =>
    -- the result of `enqueue` is not looked at
    let n := { n with
      lockQueue := (enqueue n.lockQueue ⟨n.next, message⟩).getD n.lockQueue
      next := n.next + 1 }
    if maxPeers ≤ peerNodeId then none
    else if n.defers message peerNodeId then
      some ({ n with pending := Function.update n.pending peer true }, [])
    else some (n.handleRequestLock nodeId peer)
  | .releaseLock => some ({ n with lockQueue := (dequeue n.lockQueue).2 }, [])
  | .replyLock =>
    if h : peerNodeId < maxPeers then
      let (n, out) := if n.pending peer = true then n.handleRequestLock nodeId peer else (n, [])
      some ({ n with
        pending := Function.update n.pending peer false
        requests := Function.update n.requests ⟨peerNodeId, h⟩
          { n.requests ⟨peerNodeId, h⟩ with requestedLock := false }
        repliesReceived := n.repliesReceived + 1 }, out)
    else none
  | .serverWrite =>
    match peek n.lockQueue with
    | none => none
    | some head =>
      if message.nodeId = head.message.nodeId then
        (handleServerWrite n.store message.writeType message.key message.value).map fun store =>
          ({ n with store := store }, [])
      else some (n, [])

end LockNode

/-- the nodes, and the messages on their way, for each sender and receiver -/
structure Cluster (ν τ : Type) where
  nodes : ν → LockNode ν τ
  chan : ν → ν → List PeerMessage

inductive LockAct (ν τ : Type) where
  | lock (p : ν) (t : τ)
  | advance (p : ν) (t : τ)
  | serve (p : ν) (t : τ) (txid : Int) (line : CStr)
  /-- `peer_message_listen` at `p` takes the next message of `q` -/
  | deliver (q p : ν)

namespace Cluster
variable {ν τ : Type} [DecidableEq ν] [DecidableEq τ]

def init : Cluster ν τ := ⟨fun _ => .init, fun _ _ => []⟩

@[simps] def setNode (c : Cluster ν τ) (p : ν) (n : LockNode ν τ) : Cluster ν τ :=
  { c with nodes := Function.update c.nodes p n }

@[simps] def push (c : Cluster ν τ) (p q : ν) (m : PeerMessage) : Cluster ν τ :=
  { c with chan := fun p' q' => if p' = p ∧ q' = q then c.chan p q ++ [m] else c.chan p' q' }

@[simps] def pop (c : Cluster ν τ) (p q : ν) : Cluster ν τ :=
  { c with chan := fun p' q' => if p' = p ∧ q' = q then (c.chan p q).tail else c.chan p' q' }

/-- node `p` goes on as `r` says, and its messages are on their way -/
def put (c : Cluster ν τ) (p : ν) (r : LockNode ν τ × List (ν × PeerMessage)) : Cluster ν τ :=
  r.2.foldl (fun c (q, m) => c.push p q m) (c.setNode p r.1)

def step (d : Deployment ν) (c : Cluster ν τ) : LockAct ν τ → Option (Cluster ν τ)
  | .lock p t => ((c.nodes p).distributedLock (d.nodeId p) t).map fun n => c.setNode p n
  | .advance p t => ((c.nodes p).advance (d.nodeId p) (d.peers p) t).map fun r => c.put p r
  | .serve p t txid line => ((c.nodes p).serve t txid line).map fun n => c.setNode p n
  | .deliver q p =>
    match c.chan q p with
    | [] => none
    | m :: _ => ((c.nodes p).handlePeerMessage (d.nodeId p) m q (d.nodeId q)).map fun r =>
        (c.pop q p).put p r

theorem step_deliver {d : Deployment ν} {c c' : Cluster ν τ} {q p : ν}
    (h : c.step d (.deliver q p) = some c') :
    ∃ m ms r, c.chan q p = m :: ms ∧
      (c.nodes p).handlePeerMessage (d.nodeId p) m q (d.nodeId q) = some r ∧
      c' = (c.pop q p).put p r := by
  simp only [step] at h
  cases hm : c.chan q p with
  | nil => rw [hm] at h; cases h
  | cons m ms =>
    rw [hm] at h
    obtain ⟨r, hr, rfl⟩ := Option.map_eq_some_iff.mp h
    exact ⟨m, ms, r, rfl, hr, rfl⟩

theorem put_nodes (c : Cluster ν τ) (p : ν) (r : LockNode ν τ × List (ν × PeerMessage)) :
    (c.put p r).nodes = Function.update c.nodes p r.1 := by
  have hnodes : ∀ (l : List (ν × PeerMessage)) (c : Cluster ν τ),
      (l.foldl (fun c x => c.push p x.1 x.2) c).nodes = c.nodes := by
    intro l
    induction l with
    | nil => exact fun c => rfl
    | cons x l ih => exact fun c => ih (c.push p x.1 x.2)
  exact hnodes r.2 _

/-- a variable of the nodes, when one node goes on -/
theorem field_setNode {α : Type*} (f : LockNode ν τ → α) (c : Cluster ν τ) (p : ν)
    (n : LockNode ν τ) : (fun p' => f ((c.setNode p n).nodes p')) =
      Function.update (fun p' => f (c.nodes p')) p (f n) := by
  funext p'
  rw [setNode_nodes, Function.update_apply, Function.update_apply, apply_ite f]

/-- and one that the step leaves alone -/
theorem field_eq {α : Type*} (f : LockNode ν τ → α) {c c' : Cluster ν τ} {p : ν}
    {n : LockNode ν τ} (hn : c'.nodes = Function.update c.nodes p n) (hf : f n = f (c.nodes p))
    (p' : ν) : f (c'.nodes p') = f (c.nodes p') := by
  rw [hn, Function.update_apply]
  split_ifs with h
  · rw [h, hf]
  · rfl

end Cluster

end LsmKv
