import LsmKv.Lib.Run
import LsmKv.Lib.Claims
import LsmKv.Lock

/-!
# Connections (`blocking_node.c`)

`connect_peer` and `listen_peer_connections` set up connections at the same time, with one
`peer_index` for both, while `peer_message_listen` resets the entries of peers that have gone.
Every access to `peer_index` and to `peers[]` is a step.

* `Peer`, `LinkThread`        an entry of `peers[]`; where a thread is;
* `Links`, `Links.step`       the variables of a node, and one step of a thread;
* `PickOk`                    `peer_index` is assigned while no other connection is under way, and
                              the slot is still free;
* `LinkThread.claim`, `Tidy`  the slot that a thread works on, and what holds of its entry;
* `links_tidy`                in runs of such steps each connection has an entry of its own.

A socket is the number of its connection; `none` stands for a step that is not possible, or that
has no defined result.
-/

namespace LsmKv

open Run Claims

/-- `peer_t`; `sem` is whether there is a semaphore -/
@[ext] structure Peer where
  valid : Bool
  /-- -1 if there is none -/
  peerNodeId : Int
  sock : Option ℕ
  peerRequestLockPending : Bool
  sem : Bool
  deriving DecidableEq, Repr

/-- the entry that `init_peer_array` and `reset_peer` leave -/
def Peer.reset : Peer := ⟨false, -1, none, false, false⟩

inductive Caller where
  | connectPeer
  | listenPeerConnections
  deriving DecidableEq, Repr

/-- the assignments to an entry, in their order, and what follows them -/
inductive PeerField where
  | valid
  | peerNodeId
  | sock
  | pending
  | sem
  | semInit
  | thread
  deriving DecidableEq, Repr

/-- the statements of `reset_peer` -/
inductive ResetField where
  | valid
  | peerNodeId
  | close
  | sock
  | pending
  | sem
  deriving DecidableEq, Repr

/-- Where a thread is.  One that listens has the slot that its pointer names, and the connection it
was started for. -/
inductive LinkThread where
  | idle (c : Caller)
  /-- the loop of `next_peer_index` -/
  | scanning (c : Caller) (sock : Option ℕ) (i : ℕ)
  | assigning (c : Caller) (sock : Option ℕ) (idx : Option (Fin maxPeers))
  /-- `peer_index == -1` -/
  | testing (c : Caller) (sock : Option ℕ)
  /-- `connect_server` -/
  | connecting
  /-- the ids are exchanged -/
  | greeting (c : Caller) (sock : ℕ)
  | filling (c : Caller) (sock : ℕ) (peerId : Int) (field : PeerField)
  | ended
  | reading (i : Fin maxPeers) (sock : ℕ) (peerId : Int)
  | resetting (i : Fin maxPeers) (sock : ℕ) (field : ResetField)
  deriving DecidableEq, Repr

structure Links where
  peers : Fin maxPeers → Peer
  /-- `none` is -1 -/
  peerIndex : Option (Fin maxPeers)
  threads : List LinkThread
  closed : List ℕ
  /-- the next connection -/
  next : ℕ

/-- `initialize_blocking_node`, and the two threads that set up connections -/
def Links.init : Links :=
  ⟨fun _ => Peer.reset, some ⟨0, zero_lt_maxPeers⟩,
    [.idle .connectPeer, .idle .listenPeerConnections], [], 0⟩

inductive LinkAct where
  /-- the next step of a thread that does not wait -/
  | next (j : ℕ)
  /-- `accept`, or `connect_server`; whether there is a connection -/
  | connect (j : ℕ) (ok : Bool)
  /-- `read`: the id of the peer, or no message -/
  | read (j : ℕ) (peerId : Option Int)
  /-- a message is handled, and leaves `peer_request_lock_pending` so -/
  | handle (j : ℕ) (pending : Bool)
  deriving DecidableEq, Repr

namespace Links

def setThread (s : Links) (j : ℕ) (t : LinkThread) : Links :=
  { s with threads := s.threads.set j t }

def setPeer (s : Links) (i : Fin maxPeers) (e : Peer) : Links :=
  { s with peers := Function.update s.peers i e }

def close (s : Links) (sock : ℕ) : Links := { s with closed := sock :: s.closed }

/-- one turn of the loop of `next_peer_index` -/
def scan (s : Links) (j : ℕ) (c : Caller) (sock : Option ℕ) (i : ℕ) : Links :=
  if h : i < maxPeers then
    if (s.peers ⟨i, h⟩).valid then s.setThread j (.scanning c sock (i + 1))
    else s.setThread j (.assigning c sock (some ⟨i, h⟩))
  else s.setThread j (.assigning c sock none)

/-- the tests behind the assignment to `peer_index` -/
def test (s : Links) (j : ℕ) : Caller → Option ℕ → Links
  | .connectPeer, _ =>
    s.setThread j (if s.peerIndex.isSome then .connecting else .idle .connectPeer)
  | .listenPeerConnections, none => s.setThread j (.idle .listenPeerConnections)
  | .listenPeerConnections, some sock =>
    if s.peerIndex.isSome then s.setThread j (.greeting .listenPeerConnections sock)
    else (s.setThread j (.idle .listenPeerConnections)).close sock

/-- the next statement that fills the entry under `peer_index` -/
def fill (s : Links) (j : ℕ) (c : Caller) (sock : ℕ) (peerId : Int) (i : Fin maxPeers) :
    PeerField → Option Links
  | .valid => some ((s.setThread j (.filling c sock peerId .peerNodeId)).setPeer i
      { s.peers i with valid := true })
  | .peerNodeId => some ((s.setThread j (.filling c sock peerId .sock)).setPeer i
      { s.peers i with peerNodeId := peerId })
  | .sock => some ((s.setThread j (.filling c sock peerId .pending)).setPeer i
      { s.peers i with sock := some sock })
  | .pending => some ((s.setThread j (.filling c sock peerId .sem)).setPeer i
      { s.peers i with peerRequestLockPending := false })
  | .sem => some ((s.setThread j (.filling c sock peerId .semInit)).setPeer i
      { s.peers i with sem := true })
  -- `sem_init` of NULL
  | .semInit =>
    if (s.peers i).sem then some (s.setThread j (.filling c sock peerId .thread)) else none
  | .thread => some { s with threads := s.threads.set j (.idle c) ++ [.reading i sock peerId] }

/-- the next statement of `reset_peer` -/
def resetPeer (s : Links) (j : ℕ) (i : Fin maxPeers) (sock : ℕ) : ResetField → Links
  | .valid => (s.setThread j (.resetting i sock .peerNodeId)).setPeer i
      { s.peers i with valid := false }
  | .peerNodeId => (s.setThread j (.resetting i sock .close)).setPeer i
      { s.peers i with peerNodeId := -1 }
  | .close =>
    match (s.peers i).sock with
    | some k => (s.setThread j (.resetting i sock .sock)).close k
    | none => s.setThread j (.resetting i sock .sock)
  | .sock => (s.setThread j (.resetting i sock .pending)).setPeer i { s.peers i with sock := none }
  | .pending => (s.setThread j (.resetting i sock .sem)).setPeer i
      { s.peers i with peerRequestLockPending := false }
  | .sem => (s.setThread j .ended).setPeer i { s.peers i with sem := false }

def step (s : Links) : LinkAct → Option Links
  | .next j =>
    match s.threads[j]? with
    | some (.idle .connectPeer) => some (s.setThread j (.scanning .connectPeer none 0))
    | some (.scanning c sock i) => some (s.scan j c sock i)
    | some (.assigning c sock idx) =>
      some { s.setThread j (.testing c sock) with peerIndex := idx }
    | some (.testing c sock) => some (s.test j c sock)
    | some (.filling c sock peerId field) =>
      s.peerIndex.bind fun i => s.fill j c sock peerId i field
    | some (.resetting i sock field) => some (s.resetPeer j i sock field)
    | _ => none
  | .connect j ok =>
    match s.threads[j]? with
    | some (.idle .listenPeerConnections) =>
      let sock := if ok then some s.next else none
      some { s.setThread j (.scanning .listenPeerConnections sock 0) with next := s.next + 1 }
    | some .connecting =>
      let thread := if ok then .greeting .connectPeer s.next else .idle .connectPeer
      some { s.setThread j thread with next := s.next + 1 }
    | _ => none
  | .read j peerId =>
    match s.threads[j]?, peerId with
    | some (.greeting c sock), some peerId => some (s.setThread j (.filling c sock peerId .valid))
    | some (.greeting .connectPeer _), none => some (s.setThread j (.idle .connectPeer))
    | some (.greeting .listenPeerConnections _), none => some (s.setThread j .ended)
    | some (.reading i sock _), none => some (s.setThread j (.resetting i sock .valid))
    | _, _ => none
  | .handle j pending =>
    match s.threads[j]? with
    | some (.reading i _ _) =>
      some (s.setPeer i { s.peers i with peerRequestLockPending := pending })
    | _ => none

end Links

/-! ## the condition -/

/-- the thread has assigned `peer_index`, and is to use it again -/
def LinkThread.UnderWay : LinkThread → Prop
  | .testing _ _ | .connecting | .greeting _ _ | .filling _ _ _ _ => True
  | .idle _ | .scanning _ _ _ | .assigning _ _ _ | .ended | .reading _ _ _
  | .resetting _ _ _ => False

/-- the slot of an entry that is being reset -/
def LinkThread.resets : LinkThread → Option (Fin maxPeers)
  | .resetting i _ _ => some i
  | .idle _ | .scanning _ _ _ | .assigning _ _ _ | .testing _ _ | .connecting | .greeting _ _
  | .filling _ _ _ _ | .ended | .reading _ _ _ => none

instance : DecidablePred LinkThread.UnderWay
  | .testing _ _ | .connecting | .greeting _ _ | .filling _ _ _ _ => isTrue trivial
  | .idle _ | .scanning _ _ _ | .assigning _ _ _ | .ended | .reading _ _ _ | .resetting _ _ _ =>
    isFalse id

/-- no connection is under way, and the slot is not in use -/
def LinkThread.AssignOk (s : Links) : LinkThread → Prop
  | .assigning _ _ idx => (∀ t ∈ s.threads, ¬ t.UnderWay) ∧
      ∀ i ∈ idx, (s.peers i).valid = false ∧ ∀ t ∈ s.threads, t.resets ≠ some i
  | .idle _ | .scanning _ _ _ | .testing _ _ | .connecting | .greeting _ _ | .filling _ _ _ _
  | .ended | .reading _ _ _ | .resetting _ _ _ => True

/-- `peer_index` is assigned while no connection is under way, to a slot that is not in use. -/
def PickOk (s : Links) : LinkAct → Prop
  | .next j => ∀ t ∈ s.threads[j]?, t.AssignOk s
  | .connect _ _ | .read _ _ | .handle _ _ => True

instance (s : Links) : DecidablePred (LinkThread.AssignOk s)
  | .assigning _ _ _ => inferInstanceAs (Decidable (_ ∧ ∀ i ∈ _, _))
  | .idle _ | .scanning _ _ _ | .testing _ _ | .connecting | .greeting _ _ | .filling _ _ _ _
  | .ended | .reading _ _ _ | .resetting _ _ _ => isTrue trivial

instance (s : Links) : DecidablePred (PickOk s)
  | .next _ => inferInstanceAs (Decidable (∀ t ∈ _, _))
  | .connect _ _ | .read _ _ | .handle _ _ => isTrue trivial

/-! ## what a thread works on -/

def Peer.Free (e : Peer) : Prop := e.valid = false

/-- the entry of a connection -/
def Peer.Of (peerId : Int) (sock : ℕ) (e : Peer) : Prop :=
  e.valid = true ∧ e.peerNodeId = peerId ∧ e.sock = some sock ∧ e.sem = true

/-- what holds of an entry when the field is assigned next -/
def PeerField.Filled (peerId : Int) (sock : ℕ) (e : Peer) : PeerField → Prop
  | .valid => e.Free
  | .peerNodeId => e.valid = true
  | .sock => e.valid = true ∧ e.peerNodeId = peerId
  | .pending | .sem => e.valid = true ∧ e.peerNodeId = peerId ∧ e.sock = some sock
  | .semInit | .thread => e.Of peerId sock

def ResetField.Left (sock : ℕ) (e : Peer) : ResetField → Prop
  | .valid => e.sock = some sock
  | .peerNodeId | .close => e.Free ∧ e.sock = some sock
  | .sock | .pending | .sem => e.Free

namespace LinkThread

/-- the slot that the thread works on, and what holds of its entry -/
def claim (peerIndex : Option (Fin maxPeers)) : LinkThread → List (Fin maxPeers × (Peer → Prop))
  | .testing _ _ | .connecting | .greeting _ _ => peerIndex.toList.map fun i => (i, Peer.Free)
  | .filling _ sock peerId field =>
    peerIndex.toList.map fun i => (i, fun e => field.Filled peerId sock e)
  | .reading i sock peerId => [(i, Peer.Of peerId sock)]
  | .resetting i sock field => [(i, fun e => field.Left sock e)]
  | .idle _ | .scanning _ _ _ | .assigning _ _ _ | .ended => []

/-- the open connection of the thread -/
def socks : LinkThread → List ℕ
  | .scanning _ sock _ | .assigning _ sock _ | .testing _ sock => sock.toList
  | .greeting _ sock | .filling _ sock _ _ | .reading _ sock _ => [sock]
  | .resetting _ sock .valid | .resetting _ sock .peerNodeId | .resetting _ sock .close => [sock]
  | .resetting _ _ .sock | .resetting _ _ .pending | .resetting _ _ .sem => []
  | .idle _ | .connecting | .ended => []

/-- the thread goes on to use `peer_index` as a subscript -/
def Aimed : LinkThread → Prop
  | .connecting | .greeting _ _ | .filling _ _ _ _ => True
  | .idle _ | .scanning _ _ _ | .assigning _ _ _ | .testing _ _ | .ended | .reading _ _ _
  | .resetting _ _ _ => False

theorem claim_congr {t : LinkThread} (h : ¬ t.UnderWay) (p p' : Option (Fin maxPeers)) :
    t.claim p = t.claim p' := by
  cases t with
  | testing | connecting | greeting | filling => exact absurd trivial h
  | idle | scanning | assigning | ended | reading | resetting => rfl

theorem Aimed.underWay {t : LinkThread} (h : t.Aimed) : t.UnderWay := by
  cases t with
  | connecting | greeting | filling => trivial
  | idle | scanning | assigning | testing | ended | reading | resetting => cases h

end LinkThread

/-- What holds of the threads: their slots are distinct, and so are their connections. -/
structure Tidy (s : Links) (threads : List LinkThread) : Prop where
  owned : Owned s.peers Peer.Free (threads.flatMap (LinkThread.claim s.peerIndex))
  aimed : ∀ t ∈ threads, t.Aimed → s.peerIndex ≠ none
  nodup : (threads.flatMap LinkThread.socks).Nodup
  isOpen : ∀ k ∈ threads.flatMap LinkThread.socks, k ∉ s.closed ∧ k < s.next
  old : ∀ k ∈ s.closed, k < s.next

namespace Tidy
variable {s s' : Links} {t t' : LinkThread} {rest threads : List LinkThread} {j : ℕ}

theorem init : Tidy Links.init Links.init.threads where
  owned := Owned.nil fun _ => rfl
  aimed _ _ _ := Option.some_ne_none _
  nodup := by decide
  isOpen := by decide
  old := by decide

theorem perm (h : Tidy s threads) {threads' : List LinkThread} (hp : threads.Perm threads') :
    Tidy s threads' where
  owned := h.owned.perm (hp.flatMap_right _)
  aimed t ht := h.aimed t (hp.mem_iff.mpr ht)
  nodup := (hp.flatMap_right _).nodup_iff.mp h.nodup
  isOpen k hk := h.isOpen k ((hp.flatMap_right _).mem_iff.mpr hk)
  old := h.old

/-- a thread that has the step comes first -/
theorem head (h : Tidy s threads) (hj : threads[j]? = some t) :
    Tidy s (t :: threads.eraseIdx j) := by
  obtain ⟨hlt, rfl⟩ := List.getElem?_eq_some_iff.mp hj
  exact h.perm (List.getElem_cons_eraseIdx_perm hlt).symm

theorem back (h : Tidy s (t' :: threads.eraseIdx j)) (hj : threads[j]? = some t) :
    Tidy s (threads.set j t') := by
  obtain ⟨hlt, -⟩ := List.getElem?_eq_some_iff.mp hj
  have hlen : j < (threads.set j t').length := by rwa [List.length_set]
  have hp := List.getElem_cons_eraseIdx_perm hlen
  rw [List.getElem_set_self, List.eraseIdx_set_eq] at hp
  exact h.perm hp

/-- **A step of the first thread** that opens no connection and closes none -/
theorem next (h : Tidy s (t :: rest)) (hindex : s'.peerIndex = s.peerIndex)
    (hclosed : s'.closed = s.closed) (hnext : s'.next = s.next)
    (howned : Owned s'.peers Peer.Free
      (t'.claim s.peerIndex ++ rest.flatMap (LinkThread.claim s.peerIndex)))
    (haimed : t'.Aimed → s.peerIndex ≠ none) (hsocks : t'.socks.Sublist t.socks) :
    Tidy s' (t' :: rest) := by
  have hsub : ((t' :: rest).flatMap LinkThread.socks).Sublist
      ((t :: rest).flatMap LinkThread.socks) := by
    rw [List.flatMap_cons, List.flatMap_cons]
    exact hsocks.append_right _
  refine ⟨?_, ?_, h.nodup.sublist hsub, fun k hk => ?_, fun k hk => ?_⟩
  · rw [hindex, List.flatMap_cons]
    exact howned
  · rw [hindex]
    intro u hu
    rcases List.mem_cons.mp hu with rfl | hu
    · exact haimed
    · exact h.aimed u (List.mem_cons_of_mem _ hu)
  · rw [hclosed, hnext]
    exact h.isOpen k (hsub.subset hk)
  · rw [hnext]
    exact h.old k (hclosed ▸ hk)

/-- the same where the entries stay as they are -/
theorem keep (h : Tidy s (t :: rest)) (hpeers : s'.peers = s.peers)
    (hindex : s'.peerIndex = s.peerIndex) (hclosed : s'.closed = s.closed)
    (hnext : s'.next = s.next) (hclaim : t'.claim s.peerIndex = t.claim s.peerIndex)
    (haimed : t'.Aimed → s.peerIndex ≠ none) (hsocks : t'.socks.Sublist t.socks) :
    Tidy s' (t' :: rest) := by
  refine h.next hindex hclosed hnext ?_ haimed hsocks
  rw [hpeers, hclaim]
  have := h.owned
  rwa [List.flatMap_cons] at this

theorem owns {i : Fin maxPeers} {P : Peer → Prop} (h : Tidy s (t :: rest))
    (hclaim : t.claim s.peerIndex = [(i, P)]) :
    Owned s.peers Peer.Free ((i, P) :: rest.flatMap (LinkThread.claim s.peerIndex)) := by
  have := h.owned
  rwa [List.flatMap_cons, hclaim] at this

/-- the first thread writes its entry -/
theorem write {i : Fin maxPeers} {P P' : Peer → Prop} (h : Tidy s (t :: rest))
    (hclaim : t.claim s.peerIndex = [(i, P)]) (hclaim' : t'.claim s.peerIndex = [(i, P')])
    {e : Peer} (he : P' e) (haimed : t'.Aimed → s.peerIndex ≠ none)
    (hsocks : t'.socks.Sublist t.socks) : Tidy (s.setPeer i e) (t' :: rest) := by
  refine h.next rfl rfl rfl ?_ haimed hsocks
  rw [hclaim']
  exact (h.owns hclaim).write he

/-- it gives up a slot that is free -/
theorem leave {i : Fin maxPeers} {P : Peer → Prop} (h : Tidy s (t :: rest))
    (hclaim : t.claim s.peerIndex = [(i, P)]) (hfree : P (s.peers i) → (s.peers i).Free)
    (hclaim' : t'.claim s.peerIndex = []) (haimed : ¬ t'.Aimed)
    (hsocks : t'.socks.Sublist t.socks) : Tidy s (t' :: rest) := by
  refine h.next rfl rfl rfl ?_ (fun ha => absurd ha haimed) hsocks
  rw [hclaim']
  exact (h.owns hclaim).drop hfree

/-- **`peer_index` is assigned.** -/
theorem assign {c : Caller} {sock : Option ℕ} {idx : Option (Fin maxPeers)}
    (h : Tidy s (.assigning c sock idx :: rest)) (hquiet : ∀ u ∈ rest, ¬ u.UnderWay)
    (hidx : ∀ i ∈ idx, (s.peers i).valid = false ∧ ∀ u ∈ rest, u.resets ≠ some i) :
    Tidy { s with peerIndex := idx } (.testing c sock :: rest) := by
  have hclaims : rest.flatMap (LinkThread.claim idx)
      = rest.flatMap (LinkThread.claim s.peerIndex) :=
    List.flatMap_congr fun u hu => LinkThread.claim_congr (hquiet u hu) _ _
  have howned : Owned s.peers Peer.Free (rest.flatMap (LinkThread.claim s.peerIndex)) := h.owned
  refine ⟨?_, fun u hu ha => ?_, h.nodup, h.isOpen, h.old⟩
  · show Owned s.peers Peer.Free (idx.toList.map _ ++ rest.flatMap (LinkThread.claim idx))
    rw [hclaims]
    cases idx with
    | none => exact howned
    | some i =>
      obtain ⟨hvalid, hresets⟩ := hidx i rfl
      refine howned.take fun hm => ?_
      -- an entry that is claimed belongs to a connection, or is being reset
      obtain ⟨x, hx, rfl⟩ := List.mem_map.mp hm
      obtain ⟨u, hu, hxu⟩ := List.mem_flatMap.mp hx
      have hholds := howned.holds x hx
      cases u with
      | idle | scanning | assigning | ended => cases hxu
      | testing | connecting | greeting | filling => exact hquiet _ hu trivial
      | reading i sock peerId =>
        obtain rfl := List.mem_singleton.mp hxu
        rw [hholds.1] at hvalid
        cases hvalid
      | resetting i sock field =>
        obtain rfl := List.mem_singleton.mp hxu
        exact hresets _ hu rfl
  · rcases List.mem_cons.mp hu with rfl | hu
    · cases ha
    · exact absurd ha.underWay (hquiet u hu)

/-- a new connection -/
theorem connected (h : Tidy s (t :: rest)) (ht : t.socks = [])
    (hclaim : t'.claim s.peerIndex = t.claim s.peerIndex) (haimed : t'.Aimed → s.peerIndex ≠ none)
    (hsocks : t'.socks.Sublist [s.next]) : Tidy { s with next := s.next + 1 } (t' :: rest) := by
  have hrest : rest.flatMap LinkThread.socks = (t :: rest).flatMap LinkThread.socks := by
    rw [List.flatMap_cons, ht, List.nil_append]
  have hsub : ((t' :: rest).flatMap LinkThread.socks).Sublist
      (s.next :: (t :: rest).flatMap LinkThread.socks) := by
    rw [List.flatMap_cons, hrest]
    exact hsocks.append_right _
  refine ⟨?_, fun u hu => ?_, ?_, fun k hk => ?_, fun k hk => ?_⟩
  · have := h.owned
    rw [List.flatMap_cons, ← hclaim, ← List.flatMap_cons] at this
    exact this
  · rcases List.mem_cons.mp hu with rfl | hu
    · exact haimed
    · exact h.aimed u (List.mem_cons_of_mem _ hu)
  · refine List.Nodup.sublist hsub (List.nodup_cons.mpr ⟨fun hm => ?_, h.nodup⟩)
    exact Nat.lt_irrefl _ (h.isOpen _ hm).2
  · rcases List.mem_cons.mp (hsub.subset hk) with rfl | hk
    · exact ⟨fun hm => Nat.lt_irrefl _ (h.old _ hm), Nat.lt_succ_self _⟩
    · exact ⟨(h.isOpen k hk).1, Nat.lt_succ_of_lt (h.isOpen k hk).2⟩
  · exact Nat.lt_succ_of_lt (h.old k hk)

/-- the connection of the first thread is closed -/
theorem closes {sock : ℕ} (h : Tidy s (t :: rest)) (ht : t.socks = [sock]) (ht' : t'.socks = [])
    (howned : Owned s.peers Peer.Free
      (t'.claim s.peerIndex ++ rest.flatMap (LinkThread.claim s.peerIndex)))
    (haimed : ¬ t'.Aimed) : Tidy (s.close sock) (t' :: rest) := by
  have hnodup := h.nodup
  have hopen := h.isOpen
  rw [List.flatMap_cons, ht] at hnodup hopen
  obtain ⟨hnot, hrest⟩ := List.nodup_cons.mp hnodup
  refine ⟨howned, fun u hu => ?_, ?_, fun k hk => ?_, fun k hk => ?_⟩
  · rcases List.mem_cons.mp hu with rfl | hu
    · exact fun ha => absurd ha haimed
    · exact h.aimed u (List.mem_cons_of_mem _ hu)
  · rwa [List.flatMap_cons, ht']
  · rw [List.flatMap_cons, ht'] at hk
    obtain ⟨hk1, hk2⟩ := hopen k (List.mem_cons_of_mem _ hk)
    refine ⟨fun hm => ?_, hk2⟩
    rcases List.mem_cons.mp hm with rfl | hm
    · exact hnot hk
    · exact hk1 hm
  · rcases List.mem_cons.mp hk with rfl | hk
    · exact (hopen _ List.mem_cons_self).2
    · exact h.old k hk

/-- the thread has taken its step -/
theorem done (h : Tidy s (t' :: s.threads.eraseIdx j)) (hj : s.threads[j]? = some t) :
    Tidy (s.setThread j t') (s.setThread j t').threads := by
  have hb := h.back hj
  exact ⟨hb.owned, hb.aimed, hb.nodup, hb.isOpen, hb.old⟩

theorem scan {c : Caller} {sock : Option ℕ} {i : ℕ} (h : Tidy s s.threads)
    (hj : s.threads[j]? = some (.scanning c sock i)) :
    Tidy (s.scan j c sock i) (s.scan j c sock i).threads := by
  have hh := h.head hj
  unfold Links.scan
  split_ifs
  · exact done (hh.keep rfl rfl rfl rfl rfl (fun ha => by cases ha) (List.Sublist.refl _)) hj
  · exact done (hh.keep rfl rfl rfl rfl rfl (fun ha => by cases ha) (List.Sublist.refl _)) hj
  · exact done (hh.keep rfl rfl rfl rfl rfl (fun ha => by cases ha) (List.Sublist.refl _)) hj

theorem test {c : Caller} {sock : Option ℕ} (h : Tidy s s.threads)
    (hj : s.threads[j]? = some (.testing c sock)) :
    Tidy (s.test j c sock) (s.test j c sock).threads := by
  have hh := h.head hj
  cases hp : s.peerIndex with
  | none =>
    -- nothing is claimed
    have hclaim : (LinkThread.testing c sock).claim s.peerIndex = [] := by rw [hp]; rfl
    cases c with
    | connectPeer =>
      show Tidy (s.setThread j _) (s.setThread j _).threads
      rw [hp, if_neg (by simp)]
      exact done (hh.keep rfl rfl rfl rfl hclaim.symm (fun ha => by cases ha)
        (List.nil_sublist _)) hj
    | listenPeerConnections =>
      cases sock with
      | none =>
        exact done (hh.keep rfl rfl rfl rfl hclaim.symm (fun ha => by cases ha)
          (List.nil_sublist _)) hj
      | some k =>
        unfold Links.test
        rw [hp]
        dsimp only
        rw [if_neg (by simp)]
        have howned := hh.owned
        rw [List.flatMap_cons, hclaim] at howned
        exact done (s := s.close k) (hh.closes rfl rfl howned fun ha => by cases ha) hj
  | some i =>
    have hclaim : (LinkThread.testing c sock).claim s.peerIndex = [(i, Peer.Free)] := by
      rw [hp]
      rfl
    have hne : s.peerIndex ≠ none := by
      rw [hp]
      exact Option.some_ne_none i
    cases c with
    | connectPeer =>
      show Tidy (s.setThread j _) (s.setThread j _).threads
      rw [hp, if_pos (by simp)]
      exact done (hh.keep rfl rfl rfl rfl rfl (fun _ => hne) (List.nil_sublist _)) hj
    | listenPeerConnections =>
      cases sock with
      | none =>
        exact done (hh.leave hclaim id rfl (fun ha => by cases ha) (List.nil_sublist _)) hj
      | some k =>
        unfold Links.test
        rw [hp]
        dsimp only
        rw [if_pos (by simp)]
        exact done (hh.keep rfl rfl rfl rfl rfl (fun _ => hne) (List.Sublist.refl _)) hj

theorem fill {c : Caller} {sock : ℕ} {peerId : Int} {i : Fin maxPeers} {field : PeerField}
    (h : Tidy s s.threads) (hj : s.threads[j]? = some (.filling c sock peerId field))
    (hp : s.peerIndex = some i) (hs : s.fill j c sock peerId i field = some s') :
    Tidy s' s'.threads := by
  have hh := h.head hj
  have hclaim : ∀ f, (LinkThread.filling c sock peerId f).claim s.peerIndex
      = [(i, fun e => f.Filled peerId sock e)] := by
    intro f
    rw [hp]
    rfl
  have hne : s.peerIndex ≠ none := by
    rw [hp]
    exact Option.some_ne_none i
  have hnow := (hh.owns (hclaim field)).head
  have hwrite : ∀ f e, f.Filled peerId sock e →
      Tidy ((s.setThread j (.filling c sock peerId f)).setPeer i e)
        ((s.setThread j (.filling c sock peerId f)).setPeer i e).threads := fun f e he =>
    done (s := s.setPeer i e)
      (hh.write (hclaim field) (hclaim f) he (fun _ => hne) (List.Sublist.refl _)) hj
  cases field with
  | valid =>
    cases hs
    exact hwrite .peerNodeId _ rfl
  | peerNodeId =>
    cases hs
    exact hwrite .sock _ ⟨hnow, rfl⟩
  | sock =>
    cases hs
    exact hwrite .pending _ ⟨hnow.1, hnow.2, rfl⟩
  | pending =>
    cases hs
    exact hwrite .sem _ hnow
  | sem =>
    cases hs
    exact hwrite .semInit _ ⟨hnow.1, hnow.2.1, hnow.2.2, rfl⟩
  | semInit =>
    rw [Links.fill, if_pos hnow.2.2.2] at hs
    cases hs
    refine done (hh.keep rfl rfl rfl rfl ?_ (fun _ => hne) (List.Sublist.refl _)) hj
    rw [hclaim, hclaim]
    rfl
  | thread =>
    cases hs
    -- the new thread takes over the slot and the connection
    have hnew : Tidy s (.reading i sock peerId :: s.threads.eraseIdx j) := by
      refine hh.keep rfl rfl rfl rfl ?_ (fun ha => by cases ha) (List.Sublist.refl _)
      rw [hclaim]
      rfl
    have hboth : Tidy s (.idle c :: .reading i sock peerId :: s.threads.eraseIdx j) :=
      ⟨hnew.owned, fun u hu => by
        rcases List.mem_cons.mp hu with rfl | hu
        · exact fun ha => by cases ha
        · exact hnew.aimed u hu, hnew.nodup, hnew.isOpen, hnew.old⟩
    obtain ⟨hlt, -⟩ := List.getElem?_eq_some_iff.mp hj
    have hlen : j < (s.threads.set j (.idle c)).length := by rwa [List.length_set]
    have hset := List.getElem_cons_eraseIdx_perm hlen
    rw [List.getElem_set_self, List.eraseIdx_set_eq] at hset
    have hperm := hboth.perm (((List.Perm.swap _ _ _).trans (hset.cons _)).trans
      (List.perm_append_singleton _ _).symm)
    exact ⟨hperm.owned, hperm.aimed, hperm.nodup, hperm.isOpen, hperm.old⟩

theorem resetPeer {sock : ℕ} {i : Fin maxPeers} {field : ResetField} (h : Tidy s s.threads)
    (hj : s.threads[j]? = some (.resetting i sock field)) :
    Tidy (s.resetPeer j i sock field) (s.resetPeer j i sock field).threads := by
  have hh := h.head hj
  have hnow := (hh.owns rfl).head
  have hwrite : ∀ f e, f.Left sock e → (LinkThread.resetting i sock f).socks.Sublist
        (LinkThread.resetting i sock field).socks →
      Tidy ((s.setThread j (.resetting i sock f)).setPeer i e)
        ((s.setThread j (.resetting i sock f)).setPeer i e).threads := fun f e he hsocks =>
    done (s := s.setPeer i e) (hh.write rfl rfl he (fun ha => by cases ha) hsocks) hj
  cases field with
  | valid => exact hwrite .peerNodeId _ ⟨rfl, hnow⟩ (List.Sublist.refl _)
  | peerNodeId => exact hwrite .close _ ⟨hnow.1, hnow.2⟩ (List.Sublist.refl _)
  | close =>
    unfold Links.resetPeer
    rw [hnow.2]
    have howned : Owned s.peers Peer.Free ((i, fun e => ResetField.sock.Left sock e) :: _) :=
      (hh.owns rfl).assert And.left
    exact done (s := s.close sock) (hh.closes rfl rfl howned fun ha => by cases ha) hj
  | sock => exact hwrite .pending _ hnow (List.nil_sublist _)
  | pending => exact hwrite .sem _ hnow (List.nil_sublist _)
  | sem =>
    have hlast : Tidy (s.setPeer i { s.peers i with sem := false })
        (.resetting i sock .sem :: s.threads.eraseIdx j) :=
      hh.write rfl rfl hnow (fun ha => by cases ha) (List.Sublist.refl _)
    have hfree : Tidy (s.setPeer i { s.peers i with sem := false })
        (.ended :: s.threads.eraseIdx j) :=
      hlast.leave rfl id rfl (fun ha => by cases ha) (List.nil_sublist _)
    exact done hfree hj

/-- **One step.** -/
theorem step {a : LinkAct} (h : Tidy s s.threads) (hok : PickOk s a) (hs : s.step a = some s') :
    Tidy s' s'.threads := by
  cases a with
  | next j =>
    simp only [Links.step] at hs
    split at hs
    · rename_i hj
      cases hs
      exact done ((h.head hj).keep rfl rfl rfl rfl rfl (fun ha => by cases ha)
        (List.nil_sublist _)) hj
    · rename_i c sock i hj
      cases hs
      exact h.scan hj
    · rename_i c sock idx hj
      cases hs
      obtain ⟨hquiet, hidx⟩ : LinkThread.AssignOk s (.assigning c sock idx) := hok _ hj
      have hsub : s.threads.eraseIdx j ⊆ s.threads := List.eraseIdx_subset
      exact done (s := { s with peerIndex := idx })
        ((h.head hj).assign (fun u hu => hquiet u (hsub hu))
          fun i hi => ⟨(hidx i hi).1, fun u hu => (hidx i hi).2 u (hsub hu)⟩) hj
    · rename_i c sock hj
      cases hs
      exact h.test hj
    · rename_i c sock peerId field hj
      obtain ⟨i, hp, hs⟩ := Option.bind_eq_some_iff.mp hs
      exact h.fill hj hp hs
    · rename_i i sock field hj
      cases hs
      exact h.resetPeer hj
    · cases hs
  | connect j ok =>
    simp only [Links.step] at hs
    split at hs
    · rename_i hj
      cases hs
      refine done (s := { s with next := s.next + 1 })
        ((h.head hj).connected rfl rfl (fun ha => by cases ha) ?_) hj
      cases ok with
      | true => exact List.Sublist.refl _
      | false => exact List.nil_sublist _
    · rename_i hj
      cases hs
      have hne : s.peerIndex ≠ none := h.aimed _ (List.mem_of_getElem? hj) trivial
      cases ok with
      | true =>
        exact done (s := { s with next := s.next + 1 })
          ((h.head hj).connected rfl rfl (fun _ => hne) (List.Sublist.refl _)) hj
      | false =>
        obtain ⟨i, hi⟩ := Option.ne_none_iff_exists'.mp hne
        have hclaim : LinkThread.connecting.claim s.peerIndex = [(i, Peer.Free)] := by
          rw [hi]
          rfl
        have hleft : Tidy s (.idle .connectPeer :: s.threads.eraseIdx j) :=
          (h.head hj).leave hclaim id rfl (fun ha => by cases ha) (List.nil_sublist _)
        exact done (s := { s with next := s.next + 1 })
          (hleft.connected rfl rfl (fun ha => by cases ha) (List.nil_sublist _)) hj
    · cases hs
  | read j peerId =>
    have hleave : ∀ c sock t', s.threads[j]? = some (.greeting c sock) →
        t'.claim s.peerIndex = [] → ¬ t'.Aimed → t'.socks = [] →
        Tidy (s.setThread j t') (s.setThread j t').threads := by
      intro c sock t' hj hclaim' haimed hsocks
      have hne : s.peerIndex ≠ none := h.aimed _ (List.mem_of_getElem? hj) trivial
      obtain ⟨i, hi⟩ := Option.ne_none_iff_exists'.mp hne
      have hclaim : (LinkThread.greeting c sock).claim s.peerIndex = [(i, Peer.Free)] := by
        rw [hi]
        rfl
      exact done ((h.head hj).leave hclaim id hclaim' haimed (hsocks ▸ List.nil_sublist _)) hj
    simp only [Links.step] at hs
    split at hs
    · rename_i c sock peerId hj
      cases hs
      have hne : s.peerIndex ≠ none := h.aimed _ (List.mem_of_getElem? hj) trivial
      exact done ((h.head hj).keep rfl rfl rfl rfl rfl (fun _ => hne) (List.Sublist.refl _)) hj
    · rename_i sock hj
      cases hs
      exact hleave _ _ _ hj rfl (fun ha => by cases ha) rfl
    · rename_i sock hj
      cases hs
      exact hleave _ _ _ hj rfl (fun ha => by cases ha) rfl
    · rename_i i sock peerId hj
      cases hs
      refine done ((h.head hj).next rfl rfl rfl ?_ (fun ha => by cases ha) (List.Sublist.refl _)) hj
      exact ((h.head hj).owns rfl).assert fun hof => hof.2.2.1
    · cases hs
  | handle j pending =>
    simp only [Links.step] at hs
    split at hs
    · rename_i i sock peerId hj
      cases hs
      have hof : (s.peers i).Of peerId sock := ((h.head hj).owns rfl).head
      have hw : Tidy (s.setPeer i { s.peers i with peerRequestLockPending := pending })
          (.reading i sock peerId :: s.threads.eraseIdx j) :=
        (h.head hj).write rfl rfl hof (fun ha => by cases ha) (List.Sublist.refl _)
      have hb := hw.back hj
      obtain ⟨hlt, he⟩ := List.getElem?_eq_some_iff.mp hj
      rwa [← he, List.set_getElem_self] at hb
    · cases hs

end Tidy

/-! ## the connections -/

namespace LinkThread

/-- the connection whose messages the thread reads: its slot, the id of the peer, the socket -/
def link : LinkThread → List (Fin maxPeers × Int × ℕ)
  | .reading i sock peerId => [(i, peerId, sock)]
  | .idle _ | .scanning _ _ _ | .assigning _ _ _ | .testing _ _ | .connecting | .greeting _ _
  | .filling _ _ _ _ | .ended | .resetting _ _ _ => []

/-- the thread is not changing an entry -/
def Settled : LinkThread → Prop
  | .filling _ _ _ _ | .resetting _ _ _ => False
  | .idle _ | .scanning _ _ _ | .assigning _ _ _ | .testing _ _ | .connecting | .greeting _ _
  | .ended | .reading _ _ _ => True

theorem mem_link {t : LinkThread} {x : Fin maxPeers × Int × ℕ} :
    x ∈ t.link ↔ t = .reading x.1 x.2.2 x.2.1 := by
  cases t with
  | reading i sock peerId =>
    rw [link, List.mem_singleton, Prod.ext_iff, Prod.ext_iff]
    constructor
    · rintro ⟨rfl, rfl, rfl⟩
      rfl
    · intro h
      cases h
      exact ⟨rfl, rfl, rfl⟩
  | idle | scanning | assigning | testing | connecting | greeting | filling | ended | resetting =>
    exact ⟨fun h => absurd h List.not_mem_nil, fun h => by cases h⟩

theorem link_sublist (t : LinkThread) (p : Option (Fin maxPeers)) :
    (t.link.map Prod.fst).Sublist ((t.claim p).map Prod.fst) := by
  cases t with
  | reading => exact List.Sublist.refl _
  | idle | scanning | assigning | testing | connecting | greeting | filling | ended | resetting =>
    exact List.nil_sublist _

end LinkThread

namespace Links

/-- the connections whose messages are read -/
def links (s : Links) : List (Fin maxPeers × Int × ℕ) := s.threads.flatMap LinkThread.link

/-- the valid entries, in the order of the loops over `peers[]` -/
def validSlots (s : Links) : List (Fin maxPeers) :=
  (List.finRange maxPeers).filter fun i => (s.peers i).valid

/-- where such a loop sends its message: the id and the socket in each valid entry -/
def targets (s : Links) : List (Int × Option ℕ) :=
  s.validSlots.map fun i => ((s.peers i).peerNodeId, (s.peers i).sock)

end Links

namespace Tidy
variable {s : Links} {i : Fin maxPeers} {sock : ℕ} {peerId : Int}

/-- the entry of a connection whose messages are read -/
theorem entry (h : Tidy s s.threads) (ht : .reading i sock peerId ∈ s.threads) :
    (s.peers i).Of peerId sock ∧ sock ∉ s.closed := by
  constructor
  · exact h.owned.holds (i, Peer.Of peerId sock)
      (List.mem_flatMap.mpr ⟨_, ht, List.mem_singleton_self _⟩)
  · exact (h.isOpen sock (List.mem_flatMap.mpr ⟨_, ht, List.mem_singleton_self _⟩)).1

/-- a slot that is about to be used is no other connection's -/
theorem aimed_slot (h : Tidy s s.threads) {t : LinkThread} (ht : t ∈ s.threads) (ha : t.Aimed) :
    ∃ i, s.peerIndex = some i ∧ ∀ sock peerId, .reading i sock peerId ∉ s.threads := by
  obtain ⟨i, hi⟩ := Option.ne_none_iff_exists'.mp (h.aimed t ht ha)
  refine ⟨i, hi, fun sock peerId hr => ?_⟩
  obtain ⟨j, hj⟩ := List.mem_iff_getElem?.mp ht
  obtain ⟨P, hclaim⟩ : ∃ P, t.claim s.peerIndex = [(i, P)] := by
    rw [hi]
    cases t with
    | connecting | greeting | filling => exact ⟨_, rfl⟩
    | idle | scanning | assigning | testing | ended | reading | resetting => cases ha
  have hh := h.head hj
  have hrest : .reading i sock peerId ∈ s.threads.eraseIdx j := by
    obtain ⟨hlt, he⟩ := List.getElem?_eq_some_iff.mp hj
    have hm := (List.getElem_cons_eraseIdx_perm hlt).mem_iff.mpr hr
    refine (List.mem_cons.mp hm).resolve_left fun heq => ?_
    rw [he] at heq
    subst heq
    cases ha
  refine (hh.owns hclaim).not_mem (List.mem_map.mpr ⟨(i, Peer.Of peerId sock), ?_, rfl⟩)
  exact List.mem_flatMap.mpr ⟨_, hrest, List.mem_singleton_self _⟩

theorem links_nodup (h : Tidy s s.threads) : (s.links.map Prod.fst).Nodup := by
  refine h.owned.nodup.sublist ?_
  rw [Links.links, List.map_flatMap, List.map_flatMap]
  exact List.Sublist.flatMap_right _ fun t _ => t.link_sublist _

/-- the valid entries are those of the connections -/
theorem mem_validSlots (h : Tidy s s.threads) (hs : ∀ t ∈ s.threads, t.Settled)
    (i : Fin maxPeers) : i ∈ s.validSlots ↔ i ∈ s.links.map Prod.fst := by
  rw [Links.validSlots, List.mem_filter, and_iff_right (List.mem_finRange i)]
  constructor
  · intro hv
    by_contra hno
    -- otherwise the entry is nobody's, or it is still free
    have hfree : (s.peers i).Free := by
      by_cases hm : i ∈ (s.threads.flatMap (LinkThread.claim s.peerIndex)).map Prod.fst
      · obtain ⟨x, hx, rfl⟩ := List.mem_map.mp hm
        obtain ⟨t, ht, hxt⟩ := List.mem_flatMap.mp hx
        have hholds := h.owned.holds x hx
        cases t with
        | idle | scanning | assigning | ended => cases hxt
        | testing | connecting | greeting =>
          obtain ⟨k, -, rfl⟩ := List.mem_map.mp hxt
          exact hholds
        | filling | resetting => exact (hs _ ht).elim
        | reading k sock peerId =>
          obtain rfl := List.mem_singleton.mp hxt
          exact (hno (List.mem_map.mpr ⟨(k, peerId, sock),
            List.mem_flatMap.mpr ⟨_, ht, List.mem_singleton_self _⟩, rfl⟩)).elim
      · exact h.owned.others i hm
    rw [hfree] at hv
    cases hv
  · intro hm
    obtain ⟨x, hx, rfl⟩ := List.mem_map.mp hm
    obtain ⟨t, ht, hxt⟩ := List.mem_flatMap.mp hx
    exact (h.entry (LinkThread.mem_link.mp hxt ▸ ht)).1.1

/-- **A message to all peers** goes to every connection once. -/
theorem targets_perm (h : Tidy s s.threads) (hs : ∀ t ∈ s.threads, t.Settled) :
    s.targets.Perm (s.links.map fun x => (x.2.1, some x.2.2)) := by
  have hslots : s.validSlots.Perm (s.links.map Prod.fst) :=
    (List.perm_ext_iff_of_nodup ((List.nodup_finRange _).filter _) h.links_nodup).mpr
      (h.mem_validSlots hs)
  have hmap := hslots.map fun i => ((s.peers i).peerNodeId, (s.peers i).sock)
  rw [List.map_map] at hmap
  refine hmap.trans (List.Perm.of_eq (List.map_congr_left fun x hx => ?_))
  obtain ⟨t, ht, hxt⟩ := List.mem_flatMap.mp hx
  obtain ⟨-, hid, hsock, -⟩ := (h.entry (LinkThread.mem_link.mp hxt ▸ ht)).1
  exact Prod.ext hid hsock

end Tidy

/-- **Each connection has an entry of its own**, in every run whose steps meet the condition, and
its socket is open; no entry is filled that has another connection; and once no entry is being
changed a message to all peers goes to each connection once. -/
theorem links_tidy {as : List LinkAct} (hg : Guarded Links.step PickOk Links.init as) {s : Links}
    (hr : run Links.step Links.init as = some s) :
    (∀ i sock peerId, .reading i sock peerId ∈ s.threads →
      (s.peers i).Of peerId sock ∧ sock ∉ s.closed) ∧
    (s.links.map Prod.fst).Nodup ∧
    (∀ t ∈ s.threads, t.Aimed →
      ∃ i, s.peerIndex = some i ∧ ∀ sock peerId, .reading i sock peerId ∉ s.threads) ∧
    ((∀ t ∈ s.threads, t.Settled) →
      s.targets.Perm (s.links.map fun x => (x.2.1, some x.2.2))) := by
  have h : Tidy s s.threads :=
    inv_of_guarded (fun _ _ _ => Tidy.step) Tidy.init hg hr
  exact ⟨fun i sock peerId => h.entry, h.links_nodup, fun t => h.aimed_slot, h.targets_perm⟩

/-- thread `j` fills the entry, and starts the thread that listens -/
def fillActs (j : ℕ) : List LinkAct := List.replicate 7 (.next j)

/-- A peer connects, and then another one is connected to, before the first has its slot.  The
second one goes. -/
def twoLinks : List LinkAct :=
  [.connect 1 true, .next 0, .next 0, .next 0, .next 0, .connect 0 true, .read 0 (some 7)] ++
    fillActs 0 ++ [.next 1, .next 1, .next 1, .next 1, .read 1 (some 8)] ++ fillActs 1 ++
    [.read 2 none] ++ List.replicate 6 (.next 2)

theorem links_tidy_twoLinks : ∃ s, run Links.step Links.init twoLinks = some s ∧
    (∀ i sock peerId, .reading i sock peerId ∈ s.threads →
      (s.peers i).Of peerId sock ∧ sock ∉ s.closed) ∧
    (s.links.map Prod.fst).Nodup ∧
    (∀ t ∈ s.threads, t.Aimed →
      ∃ i, s.peerIndex = some i ∧ ∀ sock peerId, .reading i sock peerId ∉ s.threads) ∧
    ((∀ t ∈ s.threads, t.Settled) →
      s.targets.Perm (s.links.map fun x => (x.2.1, some x.2.2))) := by
  have hok : Guarded Links.step PickOk Links.init twoLinks := by decide
  exact ⟨_, rfl, links_tidy hok rfl⟩

/-- Both threads find the first slot free: one connection loses its entry to the other one, and
two threads read from the same socket. -/
theorem slot_taken_twice : ∃ s, run Links.step Links.init
      ([.connect 1 true, .next 0, .next 1, .next 0, .next 1, .next 0, .next 1, .next 0,
        .connect 0 true, .read 0 (some 7), .read 1 (some 8)] ++ fillActs 0 ++ fillActs 1) = some s ∧
    s.links = [(⟨0, zero_lt_maxPeers⟩, 7, 1), (⟨0, zero_lt_maxPeers⟩, 8, 0)] ∧
    s.targets = [(8, some 0)] :=
  ⟨_, rfl, rfl, rfl⟩

end LsmKv
