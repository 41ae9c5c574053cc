import LsmKv.Lock.Trace

/-!
# Deferred replies (`blocking_node.c`)

`distributed_lock` marks `requests[]` under the slot of the peer it has sent to, and
`handle_peer_message` reads it under the id of the peer.

* `PeerArray`, `fillPeers`   the slots of `peers[]` in the order in which peers connect;
* `PeerRun`, `nodeStep`      one node, with the requests that each peer has not answered;
* `Tracks`            a reply is deferred exactly for an earlier unanswered request, and no
                      subscript leaves the array;
* `EntryOk`            the steps that keep `requests[]` in accord with what was sent;
* `EntriesKept`           what such steps keep, if every id is a slot;
* `EntriesKept.step`, `EntriesKept.tracks`   so replies are deferred right in their runs.
-/

set_option linter.unusedSectionVars false

namespace LsmKv

open Run

/-! ## slots -/

/-- the valid slots of `peers[]`, with the `peer_node_id` -/
abbrev PeerArray := Fin maxPeers → Option ℕ

def nextPeerIndex (peers : PeerArray) : Option (Fin maxPeers) :=
  (List.finRange maxPeers).find? fun i => (peers i).isNone

/-- a connection, in `connect_peer` or `listen_peer_connections` -/
def connectPeer (peers : PeerArray) (peerNodeId : ℕ) : PeerArray :=
  match nextPeerIndex peers with
  | none => peers
  | some peerIndex => Function.update peers peerIndex (some peerNodeId)

def resetPeer (peers : PeerArray) (i : Fin maxPeers) : PeerArray := Function.update peers i none

inductive PeerEvent where
  | connect (peerNodeId : ℕ)
  | reset (i : Fin maxPeers)

/-- `init_peer_array`, and then peers that connect and go -/
def fillPeers (events : List PeerEvent) : PeerArray :=
  events.foldl (fun peers e =>
    match e with
    | .connect peerNodeId => connectPeer peers peerNodeId
    | .reset i => resetPeer peers i) fun _ => none

/-- the valid slots, in the order of the loops over `peers[]` -/
def validSlots (peers : PeerArray) : List (Fin maxPeers) :=
  (List.finRange maxPeers).filter fun i => (peers i).isSome

/-- a peer is named by its slot -/
def slotPeers (slots : List (Fin maxPeers)) : List (Fin maxPeers × Fin maxPeers) :=
  slots.map fun i => (i, i)

/-! ## a node and its peers -/

variable {τ : Type} [DecidableEq τ]

/-- A node, and for each slot the timestamps of the REQUEST_LOCKs sent to it whose REPLY_LOCKs have
not been processed, the oldest first. -/
structure PeerRun (τ : Type) where
  node : LockNode (Fin maxPeers) τ
  unanswered : Fin maxPeers → List ℕ

inductive NodeAct (τ : Type) where
  | lock (t : τ)
  | advance (t : τ)
  | serve (t : τ) (txid : Int) (line : CStr)
  /-- any message from the peer in the slot -/
  | deliver (i : Fin maxPeers) (message : PeerMessage)

/-- the timestamps of the REQUEST_LOCKs for the slot -/
def requestsTo (i : Fin maxPeers) (out : List (Fin maxPeers × PeerMessage)) : List ℕ :=
  (out.filter fun x => x.1 = i ∧ x.2.messageType = .requestLock).map fun x => x.2.timestamp

def PeerRun.init : PeerRun τ := ⟨LockNode.init, fun _ => []⟩

/-- a step of the node; there is no other answer to a message that traps, or from an empty slot -/
def nodeStep (nodeId : ℕ) (peers : PeerArray) (s : PeerRun τ) : NodeAct τ → Option (PeerRun τ)
  | .lock t => (s.node.distributedLock nodeId t).map fun n => { s with node := n }
  | .advance t => (s.node.advance nodeId (slotPeers (validSlots peers)) t).map fun r =>
      ⟨r.1, fun i => s.unanswered i ++ requestsTo i r.2⟩
  | .serve t txid line => (s.node.serve t txid line).map fun n => { s with node := n }
  | .deliver i message =>
    if message.timestamp < 2 ^ 32 then
      (peers i).bind fun peerNodeId =>
        (s.node.handlePeerMessage nodeId message i peerNodeId).map fun r =>
          ⟨r.1, if message.messageType = .replyLock
            then Function.update s.unanswered i (s.unanswered i).tail else s.unanswered⟩
    else none

/-- the node keeps the reply back: the slot is pending and nothing is sent -/
def DefersReply (nodeId : ℕ) (n : LockNode (Fin maxPeers) τ) (i : Fin maxPeers) (peerNodeId : ℕ)
    (message : PeerMessage) : Prop :=
  ∃ n', n.handlePeerMessage nodeId message i peerNodeId = some (n', []) ∧ n'.pending i = true

/-- What is claimed of a step.  A REQUEST_LOCK is not answered exactly if an earlier one has been
sent to that peer and its reply not been processed; the subscripts are those that `REQUEST_LOCK` and
`REPLY_LOCK` use (the loop of `distributed_lock` has the slot itself). -/
def Tracks (nodeId : ℕ) (peers : PeerArray) (s : PeerRun τ) : NodeAct τ → Prop
  | .deliver i message => ∀ peerNodeId, peers i = some peerNodeId → message.timestamp < 2 ^ 32 →
      (message.messageType = .requestLock ∨ message.messageType = .replyLock →
        peerNodeId < maxPeers) ∧
      (message.messageType = .requestLock →
        (DefersReply nodeId s.node i peerNodeId message ↔
          ∃ ts ∈ s.unanswered i, ts < message.timestamp))
  | .lock _ | .advance _ | .serve _ _ _ => True

/-- the request of a thread that has sent it to the slot and not marked it yet -/
def ThreadPhase.marks (i : Fin maxPeers) : ThreadPhase (Fin maxPeers) → Option PqueueData
  | .marking msg j _ => if j = i then some msg else none
  | .idle | .stamped _ | .queued _ | .sending _ _ | .heading _ | .critical _ | .served _ _ _ _
  | .writing _ _ _ | .dequeued _ | .releasing _ _ _ => none

/-- the step that a thread takes next -/
def ThreadPhase.EntryOk (s : PeerRun τ) : ThreadPhase (Fin maxPeers) → Prop
  -- the slot has one entry for all requests
  | .sending _ ((i, _) :: _) => s.unanswered i = []
  -- it is the clock that is stored
  | .marking msg _ _ => s.node.timestamp = msg.message.timestamp
  | .sending _ [] | .idle | .stamped _ | .queued _ | .heading _ | .critical _ | .served _ _ _ _
  | .writing _ _ _ | .dequeued _ | .releasing _ _ _ => True

/-- No request is sent to a peer that has one to answer, the clock has not gone on when a slot is
marked, and between sending and marking the peer's reply is not processed and no later request
of it. -/
def EntryOk (s : PeerRun τ) : NodeAct τ → Prop
  | .advance t => (s.node.threads t).EntryOk s
  | .deliver i message => ∀ t msg, (s.node.threads t).marks i = some msg →
      message.messageType ≠ .replyLock ∧
      (message.messageType = .requestLock → message.timestamp ≤ msg.message.timestamp)
  | .lock _ | .serve _ _ _ => True

/-! ## what the handler does -/

section handler
variable {n : LockNode (Fin maxPeers) τ} {nodeId peerNodeId : ℕ} {i : Fin maxPeers}
  {m : PeerMessage} {r : LockNode (Fin maxPeers) τ × List (Fin maxPeers × PeerMessage)}

/-- A request is deferred by the entry under the id. -/
theorem defersReply_iff (hty : m.messageType = .requestLock) (hid : peerNodeId < maxPeers) :
    DefersReply nodeId n i peerNodeId m ↔
      (n.requests ⟨peerNodeId, hid⟩).requestedLock = true ∧
        (n.requests ⟨peerNodeId, hid⟩).timestampLastReq < m.timestamp := by
  unfold DefersReply LockNode.handlePeerMessage
  simp only [hty]
  rw [if_neg (Nat.not_le.mpr hid)]
  have hentry : ∀ n' : LockNode (Fin maxPeers) τ, n'.requests = n.requests →
      (n'.defers m peerNodeId ↔ (n.requests ⟨peerNodeId, hid⟩).requestedLock = true ∧
        (n.requests ⟨peerNodeId, hid⟩).timestampLastReq < m.timestamp) := by
    intro n' hn'
    unfold LockNode.defers
    rw [hn']
    exact exists_prop_of_true hid
  rw [← hentry _ rfl]
  split_ifs with hd
  · refine iff_of_true ⟨_, rfl, ?_⟩ hd
    exact Function.update_self ..
  · refine iff_of_false ?_ hd
    rintro ⟨n', h, -⟩
    cases congrArg List.length (congrArg Prod.snd (Option.some.inj h))

/-- only a reply changes the entries -/
theorem requests_handle (h : n.handlePeerMessage nodeId m i peerNodeId = some r) :
    r.1.threads = n.threads ∧ r.1.mMutex = n.mMutex ∧
      (m.messageType ≠ .replyLock → r.1.requests = n.requests) ∧
      (m.messageType = .replyLock → ∃ hid : peerNodeId < maxPeers, r.1.requests =
        Function.update n.requests ⟨peerNodeId, hid⟩
          { n.requests ⟨peerNodeId, hid⟩ with requestedLock := false }) := by
  unfold LockNode.handlePeerMessage at h
  cases hty : m.messageType with
  | requestLock =>
    simp only [hty] at h
    split_ifs at h
    · obtain rfl := Option.some.inj h
      exact ⟨rfl, rfl, fun _ => rfl, fun he => by cases he⟩
    · obtain rfl := Option.some.inj h
      exact ⟨rfl, rfl, fun _ => rfl, fun he => by cases he⟩
  | releaseLock =>
    simp only [hty] at h
    obtain rfl := Option.some.inj h
    exact ⟨rfl, rfl, fun _ => rfl, fun he => by cases he⟩
  | replyLock =>
    simp only [hty] at h
    split_ifs at h with hid hp
    · obtain rfl := Option.some.inj h
      exact ⟨rfl, rfl, fun he => absurd rfl he, fun _ => ⟨hid, rfl⟩⟩
    · obtain rfl := Option.some.inj h
      exact ⟨rfl, rfl, fun he => absurd rfl he, fun _ => ⟨hid, rfl⟩⟩
  | serverWrite =>
    simp only [hty] at h
    split at h
    · cases h
    · split_ifs at h
      · obtain ⟨store, -, rfl⟩ := Option.map_eq_some_iff.mp h
        exact ⟨rfl, rfl, fun _ => rfl, fun he => by cases he⟩
      · obtain rfl := Option.some.inj h
        exact ⟨rfl, rfl, fun _ => rfl, fun he => by cases he⟩

end handler

/-! ## what a thread does -/

/-- The step is not about the entries. -/
structure LockNode.Aside (n : LockNode (Fin maxPeers) τ) (t : τ)
    (r : LockNode (Fin maxPeers) τ × List (Fin maxPeers × PeerMessage)) : Prop where
  was : (n.threads t).asking = none
  threads : ∃ ph, r.1.threads = Function.update n.threads t ph ∧ ph.asking = none
  mMutex : r.1.mMutex = n.mMutex
  requests : r.1.requests = n.requests
  out : ∀ i, requestsTo i r.2 = []

/-- the steps of `advance`, by what they mean for the entries -/
inductive LockNode.AskCase (peers : List (Fin maxPeers × Fin maxPeers))
    (n : LockNode (Fin maxPeers) τ) (t : τ)
    (r : LockNode (Fin maxPeers) τ × List (Fin maxPeers × PeerMessage)) : Prop where
  | aside (h : n.Aside t r)
  | start (msg : PqueueData) (hp : n.threads t = .queued msg) (hm : n.mMutex = none)
      (hr : r = ({ n.setThread t (.sending msg peers) with mMutex := some t }, []))
  | send (msg : PqueueData) (i j : Fin maxPeers) (rest : List (Fin maxPeers × Fin maxPeers))
      (hp : n.threads t = .sending msg ((i, j) :: rest))
      (hr : r = (n.setThread t (.marking msg i rest), [(j, msg.message)]))
  | mark (msg : PqueueData) (i : Fin maxPeers) (rest : List (Fin maxPeers × Fin maxPeers))
      (hp : n.threads t = .marking msg i rest)
      (hr : r = ({ n.setThread t (.sending msg rest) with
        requests := Function.update n.requests i ⟨true, n.timestamp⟩ }, []))
  | leave (msg : PqueueData) (hp : n.threads t = .sending msg [])
      (hr : r = ({ n.setThread t (.heading msg) with repliesReceived := 0, mMutex := none }, []))

section threads
variable {n : LockNode (Fin maxPeers) τ} {nodeId : ℕ} {t : τ}

theorem requestsTo_nil (i : Fin maxPeers) : requestsTo i [] = [] := rfl

/-- a message of another type -/
theorem requestsTo_other {m : PeerMessage} (hm : m.messageType ≠ .requestLock)
    (i j : Fin maxPeers) : requestsTo i [(j, m)] = [] := by
  rw [requestsTo, List.filter_cons_of_neg (by simp [hm])]
  rfl

theorem requestsTo_request {m : PeerMessage} (hm : m.messageType = .requestLock)
    (i j : Fin maxPeers) : requestsTo i [(j, m)] = if j = i then [m.timestamp] else [] := by
  split_ifs with h
  · rw [requestsTo, List.filter_cons_of_pos (by simp [h, hm])]
    rfl
  · rw [requestsTo, List.filter_cons_of_neg (by simp [h])]
    rfl

theorem LockNode.aside_of (ph : ThreadPhase (Fin maxPeers)) {n' : LockNode (Fin maxPeers) τ}
    {out : List (Fin maxPeers × PeerMessage)} (hwas : (n.threads t).asking = none)
    (hph : ph.asking = none) (ht : n'.threads = Function.update n.threads t ph)
    (hm : n'.mMutex = n.mMutex) (hr : n'.requests = n.requests)
    (ho : ∀ i, requestsTo i out = []) : n.Aside t (n', out) :=
  ⟨hwas, ⟨ph, ht, hph⟩, hm, hr, ho⟩

theorem distributedLock_aside {n' : LockNode (Fin maxPeers) τ}
    (h : n.distributedLock nodeId t = some n') : n.Aside t (n', []) := by
  unfold LockNode.distributedLock at h
  split at h
  · rename_i hp
    obtain rfl := Option.some.inj h
    exact LockNode.aside_of (.stamped _) (by rw [hp]; rfl) rfl rfl rfl rfl requestsTo_nil
  · cases h

theorem serve_aside {n' : LockNode (Fin maxPeers) τ} {txid : Int} {line : CStr}
    (h : n.serve t txid line = some n') : n.Aside t (n', []) := by
  unfold LockNode.serve at h
  split at h
  · rename_i msg hp
    simp only [Option.bind_eq_bind, Option.bind_eq_some_iff] at h
    obtain ⟨⟨wt, k, v⟩, -, ⟨resp, store⟩, -, h⟩ := h
    obtain rfl := Option.some.inj h
    exact LockNode.aside_of (.served msg wt k v) (by rw [hp]; rfl) rfl rfl rfl rfl
      requestsTo_nil
  · cases h

theorem advance_ask {r : LockNode (Fin maxPeers) τ × List (Fin maxPeers × PeerMessage)}
    {peers : List (Fin maxPeers × Fin maxPeers)} (hn : (n.threads t).OfNode nodeId)
    (h : n.advance nodeId peers t = some r) : n.AskCase peers t r := by
  unfold LockNode.advance at h
  cases hp : n.threads t with
  | idle => rw [hp] at h; cases h
  | critical msg => rw [hp] at h; cases h
  | stamped msg =>
    apply LockNode.AskCase.aside
    rw [hp] at h
    cases he : enqueue n.lockQueue msg with
    | none =>
      simp only [he] at h
      obtain rfl := Option.some.inj h
      exact LockNode.aside_of .idle (by rw [hp]; rfl) rfl rfl rfl rfl requestsTo_nil
    | some q =>
      simp only [he] at h
      obtain rfl := Option.some.inj h
      exact LockNode.aside_of (.queued msg) (by rw [hp]; rfl) rfl rfl rfl rfl requestsTo_nil
  | queued msg =>
    rw [hp] at h
    obtain ⟨hm, h⟩ := Option.ite_none_right_eq_some.mp h
    exact .start msg hp hm (Option.some.inj h).symm
  | sending msg rest =>
    rw [hp] at h
    cases rest with
    | nil =>
      obtain ⟨-, h⟩ := Option.ite_none_right_eq_some.mp h
      exact .leave msg hp (Option.some.inj h).symm
    | cons a rest => exact .send msg a.1 a.2 rest hp (Option.some.inj h).symm
  | marking msg i rest =>
    rw [hp] at h
    exact .mark msg i rest hp (Option.some.inj h).symm
  | heading msg =>
    apply LockNode.AskCase.aside
    rw [hp] at h
    obtain ⟨-, h⟩ := Option.ite_none_right_eq_some.mp h
    obtain rfl := Option.some.inj h
    exact LockNode.aside_of (.critical msg) (by rw [hp]; rfl) rfl rfl rfl rfl requestsTo_nil
  | served msg w k v =>
    apply LockNode.AskCase.aside
    rw [hp] at h
    obtain rfl := Option.some.inj h
    exact LockNode.aside_of (.writing msg _ _) (by rw [hp]; rfl) rfl rfl rfl rfl
      requestsTo_nil
  | writing msg w rest =>
    apply LockNode.AskCase.aside
    rw [hp] at h hn
    cases rest with
    | nil =>
      obtain rfl := Option.some.inj h
      exact LockNode.aside_of (.dequeued msg) (by rw [hp]; rfl) rfl rfl rfl rfl
        requestsTo_nil
    | cons a rest =>
      obtain rfl := Option.some.inj h
      have hw : w.messageType ≠ .requestLock := by simp [hn.2.1]
      exact LockNode.aside_of (.writing msg w rest) (by rw [hp]; rfl) rfl rfl rfl rfl
        fun i => requestsTo_other hw i a.2
  | dequeued msg =>
    apply LockNode.AskCase.aside
    rw [hp] at h
    obtain rfl := Option.some.inj h
    exact LockNode.aside_of (.releasing msg _ _) (by rw [hp]; rfl) rfl rfl rfl rfl
      requestsTo_nil
  | releasing msg release rest =>
    apply LockNode.AskCase.aside
    rw [hp] at h hn
    cases rest with
    | nil =>
      obtain rfl := Option.some.inj h
      exact LockNode.aside_of .idle (by rw [hp]; rfl) rfl rfl rfl rfl requestsTo_nil
    | cons a rest =>
      obtain rfl := Option.some.inj h
      have hw : release.messageType ≠ .requestLock := by simp [hn.2.1]
      exact LockNode.aside_of (.releasing msg release rest) (by rw [hp]; rfl) rfl rfl rfl rfl
        fun i => requestsTo_other hw i a.2

end threads

/-! ## the entries of the slots -/

/-- the slots left to mark in the loop over `peers[]` -/
def ThreadPhase.unmarked : ThreadPhase (Fin maxPeers) → List (Fin maxPeers × Fin maxPeers)
  | .sending _ rest => rest
  | .marking _ i rest => (i, i) :: rest
  | .idle | .stamped _ | .queued _ | .heading _ | .critical _ | .served _ _ _ _
  | .writing _ _ _ | .dequeued _ | .releasing _ _ _ => []

/-- what the entry says has not been answered -/
def RequestedLockMetadata.entries (e : RequestedLockMetadata) : List ℕ :=
  if e.requestedLock then [e.timestampLastReq] else []

/-- The entry of the slot is right, or the request sent last is about to be marked in it. -/
def SlotKept (s : PeerRun τ) (i : Fin maxPeers) : Prop :=
  (∃ t msg, (s.node.threads t).marks i = some msg ∧
    (s.node.requests i).requestedLock = false ∧ s.unanswered i = [msg.message.timestamp]) ∨
  ((∀ t, (s.node.threads t).marks i = none) ∧ s.unanswered i = (s.node.requests i).entries)

/-- what is kept -/
structure EntriesKept (nodeId : ℕ) (peers : PeerArray) (s : PeerRun τ) : Prop where
  ofNode : ∀ t, (s.node.threads t).OfNode nodeId
  mMutex : ∀ t msg, (s.node.threads t).asking = some msg → s.node.mMutex = some t
  bySlot : ∀ t, ∀ x ∈ (s.node.threads t).unmarked, x ∈ slotPeers (validSlots peers)
  slot : ∀ i, SlotKept s i

theorem ThreadPhase.asking_of_marks {ph : ThreadPhase (Fin maxPeers)} {i : Fin maxPeers}
    {msg : PqueueData} (h : ph.marks i = some msg) : ph.asking = some msg := by
  cases ph with
  | marking msg' j rest =>
    obtain ⟨-, h⟩ := Option.ite_none_right_eq_some.mp h
    exact h
  | _ => cases h

theorem ThreadPhase.marks_of_asking {ph : ThreadPhase (Fin maxPeers)} (h : ph.asking = none)
    (i : Fin maxPeers) : ph.marks i = none := by
  cases hm : ph.marks i with
  | none => rfl
  | some msg =>
    rw [asking_of_marks hm] at h
    cases h

theorem ThreadPhase.unmarked_of_asking {ph : ThreadPhase (Fin maxPeers)} (h : ph.asking = none) :
    ph.unmarked = [] := by
  cases ph with
  | sending msg rest => cases h
  | marking msg i rest => cases h
  | _ => rfl

theorem mem_slotPeers {peers : PeerArray} {x : Fin maxPeers × Fin maxPeers} :
    x ∈ slotPeers (validSlots peers) ↔ x.1 = x.2 ∧ (peers x.1).isSome := by
  rw [slotPeers, List.mem_map]
  constructor
  · rintro ⟨i, hi, rfl⟩
    exact ⟨rfl, (List.mem_filter.mp hi).2⟩
  · rintro ⟨he, hv⟩
    exact ⟨x.1, List.mem_filter.mpr ⟨List.mem_finRange _, hv⟩, Prod.ext rfl he⟩

theorem EntriesKept.init (nodeId : ℕ) (peers : PeerArray) :
    EntriesKept nodeId peers (PeerRun.init : PeerRun τ) where
  ofNode _ := trivial
  mMutex _ _ h := by cases h
  bySlot _ x hx := by cases hx
  slot _ := Or.inr ⟨fun _ => rfl, rfl⟩

section steps
variable {nodeId : ℕ} {peers : PeerArray} {s : PeerRun τ}

theorem SlotKept.congr {s' : PeerRun τ} {i : Fin maxPeers} (h : SlotKept s i)
    (hm : ∀ t, (s'.node.threads t).marks i = (s.node.threads t).marks i)
    (hr : s'.node.requests i = s.node.requests i) (hu : s'.unanswered i = s.unanswered i) :
    SlotKept s' i := by
  unfold SlotKept
  rw [hr, hu]
  simp only [hm]
  exact h

/-- nobody is marking while a thread that asks is not -/
theorem EntriesKept.no_marks (h : EntriesKept nodeId peers s) {t : τ} {msg : PqueueData}
    (ht : (s.node.threads t).asking = some msg) {i : Fin maxPeers}
    (hm : (s.node.threads t).marks i = none) (t' : τ) : (s.node.threads t').marks i = none := by
  cases hm' : (s.node.threads t').marks i with
  | none => rfl
  | some msg' =>
    have h1 := h.mMutex t msg ht
    have h2 := h.mMutex t' msg' (ThreadPhase.asking_of_marks hm')
    obtain rfl : t = t' := Option.some.inj (h1.symm.trans h2)
    rw [hm] at hm'
    cases hm'

/-- one thread goes on -/
theorem EntriesKept.of_thread (h : EntriesKept nodeId peers s) {t : τ}
    {ph : ThreadPhase (Fin maxPeers)} {n' : LockNode (Fin maxPeers) τ} {u : Fin maxPeers → List ℕ}
    (hn : ∀ t', (n'.threads t').OfNode nodeId)
    (ht : n'.threads = Function.update s.node.threads t ph)
    (hask : ∀ msg, ph.asking = some msg → n'.mMutex = some t)
    (hrest : ∀ t', t' ≠ t → ∀ msg, (s.node.threads t').asking = some msg → n'.mMutex = some t')
    (hslot : ∀ x ∈ ph.unmarked, x ∈ slotPeers (validSlots peers)) (hs : ∀ i, SlotKept ⟨n', u⟩ i) :
    EntriesKept nodeId peers ⟨n', u⟩ := by
  refine ⟨hn, ?_, ?_, hs⟩
  · show ∀ t' msg, (n'.threads t').asking = some msg → n'.mMutex = some t'
    rw [ht]
    exact (Function.forall_update_iff s.node.threads
      fun t' ph => ∀ msg, ph.asking = some msg → n'.mMutex = some t').mpr ⟨hask, hrest⟩
  · show ∀ t', ∀ x ∈ (n'.threads t').unmarked, x ∈ slotPeers (validSlots peers)
    rw [ht]
    exact (Function.forall_update_iff s.node.threads
      fun _ ph => ∀ x ∈ ph.unmarked, x ∈ slotPeers (validSlots peers)).mpr
        ⟨hslot, fun t' _ => h.bySlot t'⟩

/-- it goes on without marking the slot before or after, and the slot is left alone -/
theorem SlotKept.of_thread {i : Fin maxPeers} (h : SlotKept s i) {t : τ}
    {ph : ThreadPhase (Fin maxPeers)} {n' : LockNode (Fin maxPeers) τ}
    {u : Fin maxPeers → List ℕ} (ht : n'.threads = Function.update s.node.threads t ph)
    (hph : ph.marks i = none) (hwas : (s.node.threads t).marks i = none)
    (hr : n'.requests i = s.node.requests i) (hu : u i = s.unanswered i) :
    SlotKept ⟨n', u⟩ i := by
  refine h.congr ?_ hr hu
  show ∀ t', (n'.threads t').marks i = (s.node.threads t').marks i
  rw [ht]
  exact (Function.forall_update_iff s.node.threads
    fun t' ph => ph.marks i = (s.node.threads t').marks i).mpr ⟨hph.trans hwas.symm, fun _ _ => rfl⟩

theorem EntriesKept.aside (h : EntriesKept nodeId peers s) {t : τ}
    {r : LockNode (Fin maxPeers) τ × List (Fin maxPeers × PeerMessage)} (ha : s.node.Aside t r)
    (hn : ∀ t', (r.1.threads t').OfNode nodeId) :
    EntriesKept nodeId peers ⟨r.1, fun i => s.unanswered i ++ requestsTo i r.2⟩ := by
  obtain ⟨hwas, ⟨ph, ht, hph⟩, hmutex, hreq, hout⟩ := ha
  apply h.of_thread hn ht
  · intro msg hmsg
    rw [hph] at hmsg
    cases hmsg
  · intro t' _ msg hmsg
    rw [hmutex]
    exact h.mMutex t' msg hmsg
  · rw [ThreadPhase.unmarked_of_asking hph]
    exact fun x hx => absurd hx List.not_mem_nil
  · intro i
    refine (h.slot i).of_thread ht (ThreadPhase.marks_of_asking hph i)
      (ThreadPhase.marks_of_asking hwas i) (congrFun hreq i) ?_
    show s.unanswered i ++ requestsTo i r.2 = s.unanswered i
    rw [hout, List.append_nil]

/-- where a thread asks and marks nothing, the entry is right -/
theorem EntriesKept.entries (h : EntriesKept nodeId peers s) {t : τ} {msg : PqueueData}
    (ht : (s.node.threads t).asking = some msg) {i : Fin maxPeers}
    (hm : (s.node.threads t).marks i = none) :
    s.unanswered i = (s.node.requests i).entries := by
  rcases h.slot i with ⟨t', msg', hm', -, -⟩ | ⟨-, he⟩
  · rw [h.no_marks ht hm t'] at hm'
    cases hm'
  · exact he

/-- and where it is about to mark it, its request is the only one -/
theorem EntriesKept.marking (h : EntriesKept nodeId peers s) {t : τ} {msg : PqueueData}
    {i : Fin maxPeers} (hm : (s.node.threads t).marks i = some msg) :
    (s.node.requests i).requestedLock = false ∧ s.unanswered i = [msg.message.timestamp] := by
  rcases h.slot i with ⟨t', msg', hm', hflag, hu⟩ | ⟨hno, -⟩
  · have h1 := h.mMutex t msg (ThreadPhase.asking_of_marks hm)
    have h2 := h.mMutex t' msg' (ThreadPhase.asking_of_marks hm')
    obtain rfl : t = t' := Option.some.inj (h1.symm.trans h2)
    obtain rfl : msg = msg' := Option.some.inj (hm.symm.trans hm')
    exact ⟨hflag, hu⟩
  · rw [hno t] at hm
    cases hm

theorem RequestedLockMetadata.entries_eq_nil {e : RequestedLockMetadata} :
    e.entries = [] ↔ e.requestedLock = false := by
  unfold entries
  cases e.requestedLock with
  | false => exact iff_of_true rfl rfl
  | true => exact iff_of_false (List.cons_ne_nil _ _) Bool.noConfusion

/-- `m_mutex` is taken -/
theorem EntriesKept.start (h : EntriesKept nodeId peers s) {t : τ} {msg : PqueueData}
    (hp : s.node.threads t = .queued msg) (hm : s.node.mMutex = none)
    {n' : LockNode (Fin maxPeers) τ} (hn' : n' = { s.node.setThread t
      (.sending msg (slotPeers (validSlots peers))) with mMutex := some t })
    (hn : ∀ t', (n'.threads t').OfNode nodeId) :
    EntriesKept nodeId peers ⟨n', fun i => s.unanswered i ++ requestsTo i []⟩ := by
  subst hn'
  apply h.of_thread hn rfl
  · exact fun _ _ => rfl
  · intro t' _ msg' hmsg
    have hheld := h.mMutex t' msg' hmsg
    rw [hm] at hheld
    cases hheld
  · exact fun x hx => hx
  · exact fun i => (h.slot i).of_thread rfl rfl (by rw [hp]; rfl) rfl (List.append_nil _)

/-- The request is sent to a slot with nothing to answer: it is the only one. -/
theorem EntriesKept.send (h : EntriesKept nodeId peers s) {t : τ} {msg : PqueueData}
    {i j : Fin maxPeers} {rest : List (Fin maxPeers × Fin maxPeers)}
    (hp : s.node.threads t = .sending msg ((i, j) :: rest)) (hok : s.unanswered i = [])
    {n' : LockNode (Fin maxPeers) τ} (hn' : n' = s.node.setThread t (.marking msg i rest))
    (hn : ∀ t', (n'.threads t').OfNode nodeId) :
    EntriesKept nodeId peers ⟨n', fun k => s.unanswered k ++ requestsTo k [(j, msg.message)]⟩ := by
  subst hn'
  have hof := h.ofNode t
  rw [hp] at hof
  have hasking : (s.node.threads t).asking = some msg := by rw [hp]; rfl
  have hquiet : ∀ k, (s.node.threads t).marks k = none := fun k => by rw [hp]; rfl
  have hslot := h.bySlot t (i, j) (by rw [hp]; exact List.mem_cons_self ..)
  obtain rfl : i = j := (mem_slotPeers.mp hslot).1
  apply h.of_thread hn rfl
  · exact fun _ _ => h.mMutex t msg hasking
  · exact fun t' _ => h.mMutex t'
  · exact fun x hx => h.bySlot t x (by rw [hp]; exact hx)
  · intro k
    by_cases hk : i = k
    · subst hk
      left
      have hentry := h.entries hasking (hquiet i)
      rw [hok] at hentry
      refine ⟨t, msg, ?_, RequestedLockMetadata.entries_eq_nil.mp hentry.symm, ?_⟩
      · show (Function.update s.node.threads t (.marking msg i rest) t).marks i = some msg
        rw [Function.update_self]
        exact if_pos rfl
      · show s.unanswered i ++ requestsTo i [(i, msg.message)] = _
        rw [requestsTo_request hof.1, if_pos rfl, hok]
        rfl
    · refine (h.slot k).of_thread rfl (if_neg hk) (hquiet k) rfl ?_
      show s.unanswered k ++ requestsTo k [(i, msg.message)] = _
      rw [requestsTo_request hof.1, if_neg hk, List.append_nil]

/-- The slot is marked, and the clock still has the timestamp of the request. -/
theorem EntriesKept.mark (h : EntriesKept nodeId peers s) {t : τ} {msg : PqueueData}
    {i : Fin maxPeers} {rest : List (Fin maxPeers × Fin maxPeers)}
    (hp : s.node.threads t = .marking msg i rest)
    (hok : s.node.timestamp = msg.message.timestamp) {n' : LockNode (Fin maxPeers) τ}
    (hn' : n' = { s.node.setThread t (.sending msg rest) with
      requests := Function.update s.node.requests i ⟨true, s.node.timestamp⟩ })
    (hn : ∀ t', (n'.threads t').OfNode nodeId) :
    EntriesKept nodeId peers ⟨n', fun k => s.unanswered k ++ requestsTo k []⟩ := by
  subst hn'
  have hasking : (s.node.threads t).asking = some msg := by rw [hp]; rfl
  have hmarks : (s.node.threads t).marks i = some msg := by rw [hp]; exact if_pos rfl
  apply h.of_thread hn rfl
  · exact fun _ _ => h.mMutex t msg hasking
  · exact fun t' _ => h.mMutex t'
  · exact fun x hx => h.bySlot t x (by rw [hp]; exact List.mem_cons_of_mem _ hx)
  · intro k
    by_cases hk : i = k
    · subst hk
      right
      refine ⟨?_, ?_⟩
      · apply (Function.forall_update_iff s.node.threads fun _ ph => ph.marks i = none).mpr
        refine ⟨rfl, fun t' ht' => ?_⟩
        cases hm' : (s.node.threads t').marks i with
        | none => rfl
        | some msg' =>
          have h1 := h.mMutex t msg hasking
          have h2 := h.mMutex t' msg' (ThreadPhase.asking_of_marks hm')
          exact absurd (Option.some.inj (h2.symm.trans h1)) ht'
      · show s.unanswered i ++ [] = (Function.update s.node.requests i _ i).entries
        rw [List.append_nil, Function.update_self, (h.marking hmarks).2]
        show _ = [s.node.timestamp]
        rw [hok]
    · refine (h.slot k).of_thread rfl rfl (by rw [hp]; exact if_neg hk) ?_ (List.append_nil _)
      exact Function.update_of_ne (Ne.symm hk) _ _

/-- `m_mutex` is given back -/
theorem EntriesKept.leave (h : EntriesKept nodeId peers s) {t : τ} {msg : PqueueData}
    (hp : s.node.threads t = .sending msg []) {n' : LockNode (Fin maxPeers) τ}
    (hn' : n' = { s.node.setThread t (.heading msg) with repliesReceived := 0, mMutex := none })
    (hn : ∀ t', (n'.threads t').OfNode nodeId) :
    EntriesKept nodeId peers ⟨n', fun i => s.unanswered i ++ requestsTo i []⟩ := by
  subst hn'
  have hheld := h.mMutex t msg (by rw [hp]; rfl)
  apply h.of_thread hn rfl
  · exact fun _ hmsg => by cases hmsg
  · intro t' ht' msg' hmsg
    have hheld' := h.mMutex t' msg' hmsg
    exact absurd (Option.some.inj (hheld'.symm.trans hheld)) ht'
  · exact fun x hx => absurd hx List.not_mem_nil
  · exact fun i => (h.slot i).of_thread rfl rfl (by rw [hp]; rfl) rfl (List.append_nil _)

/-- **A thread goes on**: what it sends and marks stays in accord. -/
theorem EntriesKept.ask (h : EntriesKept nodeId peers s) {t : τ}
    {r : LockNode (Fin maxPeers) τ × List (Fin maxPeers × PeerMessage)}
    (hok : (s.node.threads t).EntryOk s)
    (hr : s.node.advance nodeId (slotPeers (validSlots peers)) t = some r) :
    EntriesKept nodeId peers ⟨r.1, fun i => s.unanswered i ++ requestsTo i r.2⟩ := by
  have hn := (advance_ofNode h.ofNode hr).1
  cases advance_ask (h.ofNode t) hr with
  | aside ha => exact h.aside ha hn
  | start msg hp hm hr =>
    subst hr
    exact h.start hp hm rfl hn
  | send msg i j rest hp hr =>
    subst hr
    rw [hp] at hok
    exact h.send hp hok rfl hn
  | mark msg i rest hp hr =>
    subst hr
    rw [hp] at hok
    exact h.mark hp hok rfl hn
  | leave msg hp hr =>
    subst hr
    exact h.leave hp rfl hn

/-- a message: only a reply changes the entry, and the slot of the sender is not being marked -/
theorem EntriesKept.deliver (h : EntriesKept nodeId peers s) {i : Fin maxPeers} {m : PeerMessage}
    {peerNodeId : ℕ} (hid : peerNodeId = i)
    {r : LockNode (Fin maxPeers) τ × List (Fin maxPeers × PeerMessage)}
    (hok : EntryOk s (.deliver i m))
    (hr : s.node.handlePeerMessage nodeId m i peerNodeId = some r) :
    EntriesKept nodeId peers ⟨r.1, if m.messageType = .replyLock
      then Function.update s.unanswered i (s.unanswered i).tail else s.unanswered⟩ := by
  obtain ⟨hthreads, hmutex, hother, hreply⟩ := requests_handle hr
  have hmarks : ∀ t k, (r.1.threads t).marks k = (s.node.threads t).marks k :=
    fun t k => by rw [hthreads]
  refine ⟨?_, ?_, ?_, ?_⟩
  · show ∀ t, (r.1.threads t).OfNode nodeId
    rw [hthreads]
    exact h.ofNode
  · show ∀ t msg, (r.1.threads t).asking = some msg → r.1.mMutex = some t
    rw [hthreads, hmutex]
    exact h.mMutex
  · show ∀ t, ∀ x ∈ (r.1.threads t).unmarked, x ∈ slotPeers (validSlots peers)
    rw [hthreads]
    exact h.bySlot
  · intro k
    by_cases hty : m.messageType = .replyLock
    · rw [if_pos hty]
      obtain ⟨hlt, hreq⟩ := hreply hty
      have hslot : (⟨peerNodeId, hlt⟩ : Fin maxPeers) = i := Fin.ext hid
      rw [hslot] at hreq
      by_cases hk : k = i
      · subst hk
        have hno : ∀ t, (s.node.threads t).marks k = none := by
          intro t
          cases hm : (s.node.threads t).marks k with
          | none => rfl
          | some msg => exact absurd hty (hok t msg hm).1
        right
        refine ⟨fun t => (hmarks t k).trans (hno t), ?_⟩
        show Function.update s.unanswered k _ k = (r.1.requests k).entries
        rw [hreq, Function.update_self, Function.update_self]
        rcases h.slot k with ⟨t, msg, hm, -, -⟩ | ⟨-, hu⟩
        · rw [hno t] at hm
          cases hm
        · rw [hu, RequestedLockMetadata.entries]
          split_ifs <;> rfl
      · refine (h.slot k).congr (fun t => hmarks t k) ?_ ?_
        · show r.1.requests k = _
          rw [hreq, Function.update_of_ne hk]
        · exact Function.update_of_ne hk _ _
    · rw [if_neg hty]
      exact (h.slot k).congr (fun t => hmarks t k) (congrFun (hother hty) k) rfl

/-- **A step that is fine keeps the entries right**, if every id is its slot. -/
theorem EntriesKept.step (h : EntriesKept nodeId peers s)
    (hids : ∀ i peerNodeId, peers i = some peerNodeId → peerNodeId = i) {a : NodeAct τ}
    {s' : PeerRun τ} (hok : EntryOk s a) (hs : nodeStep nodeId peers s a = some s') :
    EntriesKept nodeId peers s' := by
  have hkeep : ∀ n' : LockNode (Fin maxPeers) τ,
      (⟨n', fun i => s.unanswered i ++ requestsTo i []⟩ : PeerRun τ) = { s with node := n' } := by
    intro n'
    rw [PeerRun.mk.injEq]
    exact ⟨rfl, funext fun i => List.append_nil _⟩
  cases a with
  | lock t =>
    obtain ⟨n', hn', rfl⟩ := Option.map_eq_some_iff.mp hs
    rw [← hkeep]
    apply h.aside (distributedLock_aside hn')
    unfold LockNode.distributedLock at hn'
    split at hn'
    · obtain rfl := Option.some.inj hn'
      exact setThread_ofNode h.ofNode ⟨rfl, rfl⟩
    · cases hn'
  | advance t =>
    obtain ⟨r, hr, rfl⟩ := Option.map_eq_some_iff.mp hs
    exact h.ask hok hr
  | serve t txid line =>
    obtain ⟨n', hn', rfl⟩ := Option.map_eq_some_iff.mp hs
    rw [← hkeep]
    apply h.aside (serve_aside hn')
    unfold LockNode.serve at hn'
    split at hn'
    · rename_i msg hp
      simp only [Option.bind_eq_bind, Option.bind_eq_some_iff] at hn'
      obtain ⟨x, -, y, -, hn'⟩ := hn'
      obtain rfl := Option.some.inj hn'
      have hmsg := h.ofNode t
      rw [hp] at hmsg
      exact setThread_ofNode h.ofNode (show (ThreadPhase.served msg _ _ _).OfNode nodeId from hmsg)
    · cases hn'
  | deliver i m =>
    obtain ⟨-, hs⟩ := Option.ite_none_right_eq_some.mp hs
    obtain ⟨peerNodeId, hpeer, hs⟩ := Option.bind_eq_some_iff.mp hs
    obtain ⟨r, hr, rfl⟩ := Option.map_eq_some_iff.mp hs
    exact h.deliver (hids i peerNodeId hpeer) hok hr

/-- **What the entries are read for.** -/
theorem EntriesKept.tracks (h : EntriesKept nodeId peers s)
    (hids : ∀ i peerNodeId, peers i = some peerNodeId → peerNodeId = i) {a : NodeAct τ}
    (hok : EntryOk s a) : Tracks nodeId peers s a := by
  cases a with
  | lock t => trivial
  | advance t => trivial
  | serve t txid line => trivial
  | deliver i m =>
    intro peerNodeId hpeer _
    obtain rfl := hids i peerNodeId hpeer
    refine ⟨fun _ => i.isLt, fun hty => ?_⟩
    rw [defersReply_iff hty i.isLt]
    rcases h.slot i with ⟨t, msg, hm, hflag, hu⟩ | ⟨-, hu⟩
    · -- the request is sent and not marked, but it is not earlier
      have hle := (hok t msg hm).2 hty
      rw [hflag, hu]
      refine iff_of_false (fun hd => by cases hd.1) ?_
      rintro ⟨ts, hts, hlt⟩
      obtain rfl := List.mem_singleton.mp hts
      omega
    · rw [hu, RequestedLockMetadata.entries]
      cases (s.node.requests i).requestedLock with
      | false => exact iff_of_false (fun hd => by cases hd.1) (by simp)
      | true => simp

end steps

end LsmKv
