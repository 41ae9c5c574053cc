import LsmKv.Lock.Holder
import LsmKv.Journal.NoLog

/-!
# The stores of all nodes

The holder of the lock writes to its own store and broadcasts the write; its peers run it when its
SERVER_WRITE comes.  Between writes every node serves GETs of its clients and flushes on its timer.
A PUT of the key at a root would leave there a pointer into memory that the node frees or shares,
and a string copied without its terminator may be read on behind its end; the condition excludes
both.

* `Replicas`             the nodes, with what each store has run and the writes in their order;
* `Replicas.step`        a step of the lock, a GET, or a flush;
* `ReplicaOk`            no node runs a PUT of the key at its root, and the strings of a line are
                         copied with their terminators;
* `underWay`             the writes that a node has still to bring to a peer;
* `Backlog`              the writes that a node has still to run, in the order of the requests in
                         its queue;
* `Agree`                what holds in every state of a run;
* `replicas_agree`       each node has run the same writes in the same order, as far as they have
                         come, and all values of its table can be read.
-/

set_option linter.unusedSectionVars false

namespace LsmKv

open LamportLock Run

/-! ## writes as requests -/

/-- the request that a receiver makes of a write -/
def WriteType.request : WriteType → CStr → CStr → Option Req
  | .put, key, value => some (.put key value)
  | .insert, key, value => some (.insert key value)
  | .delete, key, _ => some (.delete key)
  | .get, _, _ => none

theorem handleServerWrite_request {w : WriteType} {key value : CStr} {r : Req}
    (h : w.request key value = some r) (s : Store) :
    handleServerWrite s w key value = s.step r := by
  cases w <;> cases h <;> rfl

theorem handleServerWrite_none {w : WriteType} {key value : CStr}
    (h : w.request key value = none) (s : Store) : handleServerWrite s w key value = some s := by
  cases w with
  | get => rfl
  | _ => cases h

/-- the write that a message carries -/
def PeerMessage.write (m : PeerMessage) : Option Req :=
  if m.messageType = .serverWrite then m.writeType.request m.key m.value else none

theorem PeerMessage.write_of_ne {m : PeerMessage} (h : m.messageType ≠ .serverWrite) :
    m.write = none := if_neg h

/-- what is broadcast is what the holder runs -/
theorem broadcastArgs_request {line : CStr} {w : WriteType} {key value : CStr}
    (h : broadcastArgs line = some (w, key, value)) :
    ∃ r, (command line).write = some r ∧ w.request key value = some r := by
  unfold broadcastArgs at h
  cases hc : command line with
  | put k v =>
    rw [hc] at h
    obtain ⟨v', rfl, he⟩ := Option.map_eq_some_iff.mp h
    obtain ⟨rfl, rfl, rfl⟩ := he
    exact ⟨_, rfl, rfl⟩
  | insert k v =>
    rw [hc] at h
    obtain ⟨v', rfl, he⟩ := Option.map_eq_some_iff.mp h
    obtain ⟨rfl, rfl, rfl⟩ := he
    exact ⟨_, rfl, rfl⟩
  | delete k =>
    rw [hc] at h
    obtain ⟨rfl, rfl, rfl⟩ := Option.some.inj h
    exact ⟨_, rfl, rfl⟩
  | bad => rw [hc] at h; cases h
  | get k => rw [hc] at h; cases h
  | unknown => rw [hc] at h; cases h

/-! ## the nodes with their histories -/

/-- a step of the lock, a GET of a client of the node, or its timer -/
inductive ServiceAct (ν : Type) where
  | lock (a : LockAct ν Unit)
  | get (p : ν) (key : CStr)
  | flush (p : ν)

structure Replicas (ν : Type) where
  cluster : Cluster ν Unit
  /-- what the store of a node has run -/
  history : ν → List Req
  /-- the writes in the order in which their holders have run them -/
  served : List Req

section model
variable {ν : Type} [DecidableEq ν]

/-- the writes among some requests -/
def writesIn (rs : List Req) : List Req := rs.filter fun r => r.writes.isSome

/-- the write that the holder runs -/
def LockAct.serves : LockAct ν Unit → List Req
  | .serve _ _ _ line => (command line).write.toList
  | .lock _ _ | .advance _ _ | .deliver _ _ => []

/-- The write that node `n` runs: its own, or that of a peer at the head of its queue. -/
def Cluster.runs (c : Cluster ν Unit) (a : LockAct ν Unit) (n : ν) : List Req :=
  match a with
  | .serve p _ _ _ => if p = n then a.serves else []
  | .deliver q p =>
    if p = n then
      ((c.chan q p).head?.bind fun m =>
        if (peek (c.nodes p).lockQueue).map (fun x => x.message.nodeId) = some m.nodeId
        then m.write else none).toList
    else []
  | .lock _ _ | .advance _ _ => []

namespace Replicas

def init : Replicas ν := ⟨Cluster.init, fun _ => [], []⟩

/-- a request of the node alone -/
def own (x : Replicas ν) (p : ν) (r : Req) : Option (Replicas ν) :=
  ((x.cluster.nodes p).store.step r).map fun store =>
    { x with
      cluster := x.cluster.setNode p { x.cluster.nodes p with store := store }
      history := Function.update x.history p (x.history p ++ [r]) }

def step (d : Deployment ν) (x : Replicas ν) : ServiceAct ν → Option (Replicas ν)
  | .lock a => (x.cluster.step d a).map fun c =>
      ⟨c, fun n => x.history n ++ x.cluster.runs a n, x.served ++ a.serves⟩
  | .get p key => x.own p (.get key)
  | .flush p => x.own p .timer

end Replicas

/-- what `calloc(n, 1)` zeroes: chunks of 16 bytes, 8 bytes in each allocation not its own -/
def usableSize (n : ℕ) : ℕ := max 24 ((n + 23) / 16 * 16 - 8)

/-- `read` leaves room for a terminator behind the line, and `calloc(strlen(s), sizeof(char))`
happens to leave it behind the key and the value, in `broadcast_write` and in `unmarshall_pm`. -/
def Terminated (line : CStr) : Prop :=
  line.length < maxEntrySize ∧ ∀ a ∈ broadcastArgs line,
    a.2.1.length < usableSize a.2.1.length ∧ a.2.2.length < usableSize a.2.2.length

instance (line : CStr) : Decidable (Terminated line) :=
  inferInstanceAs (Decidable (_ ∧ ∀ a ∈ broadcastArgs line, _ ∧ _))

def LockAct.Terminated : LockAct ν Unit → Prop
  | .serve _ _ _ line => LsmKv.Terminated line
  | .lock _ _ | .advance _ _ | .deliver _ _ => True

instance decTerminated : (a : LockAct ν Unit) → Decidable a.Terminated
  | .serve _ _ _ line => inferInstanceAs (Decidable (LsmKv.Terminated line))
  | .lock _ _ | .advance _ _ | .deliver _ _ => inferInstanceAs (Decidable True)

/-- the condition of `HolderOk` on the steps of the lock, no PUT of the key at a root, and no
string without its terminator -/
def ReplicaOk (d : Deployment ν) (x : Replicas ν) : ServiceAct ν → Prop
  | .lock a => HolderOk d x.cluster a ∧ a.Terminated ∧
      ∀ n, ∀ r ∈ x.cluster.runs a n, ¬ Req.Lends (x.cluster.nodes n).store r
  | .get _ _ => True
  | .flush _ => True

instance decReplicaOk [Fintype ν] (d : Deployment ν) (x : Replicas ν) :
    (a : ServiceAct ν) → Decidable (ReplicaOk d x a)
  | .lock a => inferInstanceAs (Decidable (_ ∧ _ ∧ ∀ n, ∀ r ∈ x.cluster.runs a n, ¬ _))
  | .get _ _ | .flush _ => inferInstanceAs (Decidable True)

/-! ## the writes under way -/

/-- the write that a thread has still to send to `n` -/
def ThreadPhase.unsentWrite (peers : List ν) (n : ν) : ThreadPhase ν → List Req
  | .served _ w key value => if n ∈ peers then (w.request key value).toList else []
  | .writing _ write rest => if n ∈ rest.map Prod.snd then write.write.toList else []
  | .idle | .stamped _ | .queued _ | .sending _ _ | .marking _ _ _ | .heading _ | .critical _
  | .dequeued _ | .releasing _ _ _ => []

/-- the messages of a step for `n` -/
def outTo (n : ν) (out : List (ν × PeerMessage)) : List PeerMessage :=
  (out.filter fun x => x.1 = n).map Prod.snd

/-- the writes that `p` has still to bring to `n`, the first one first -/
def underWay (d : Deployment ν) (c : Cluster ν Unit) (p n : ν) : List Req :=
  (c.chan p n).filterMap PeerMessage.write ++
    ((c.nodes p).threads ()).unsentWrite (d.net.peers p) n

/-- no write has still to reach `n` -/
def AllCome (d : Deployment ν) (c : Cluster ν Unit) (n : ν) : Prop :=
  ∀ p, underWay d c p n = []

/-- the nodes of the requests in a queue -/
def numbers (c : Cluster ν Unit) (n : ν) : List ℕ :=
  (c.nodes n).lockQueue.map fun y => y.message.nodeId

/-- Node `n` has still to run the writes of `l`, each one from the node beside it. -/
structure Backlog (d : Deployment ν) (x : Replicas ν) (n : ν) (l : List (ν × Req)) : Prop where
  served : x.served = writesIn (x.history n) ++ l.map Prod.snd
  content : ∀ p, (l.filter fun y => y.1 = p).map Prod.snd = underWay d x.cluster p n
  queued : (l.map fun y => d.nodeId y.1).Sublist (numbers x.cluster n)

end model

/-! ## what can be read -/

/-- no request of the history has lent its line to the table -/
def Lendless (history : List Req) : Prop :=
  Guarded Store.step (fun s r => ¬ Req.Lends s r) Store.empty history

/-- **Every value of the table can be read** after such a history. -/
theorem Lendless.readable {history : List Req} (h : Lendless history) {s : Store}
    (hr : run Store.step Store.empty history = some s) : (tableOf s.T).Readable := by
  have hstep : ∀ (s : Store) (r : Req) (t : Store), s.T.Bst ∧ (tableOf s.T).Readable →
      ¬ Req.Lends s r → s.step r = some t → t.T.Bst ∧ (tableOf t.T).Readable := by
    intro s r t hi hok hs
    obtain ⟨x, hx, rfl⟩ := Option.map_eq_some_iff.mp hs
    obtain ⟨hb, he⟩ := serve_effect hi.1 hok hx
    refine ⟨hb, ?_⟩
    rcases he with hnull | ⟨-, ht | ht⟩
    · rw [hnull]
      exact readable_empty
    · rw [ht]
      exact hi.2
    · rw [ht]
      exact tableStep_readable hi.2 _
  have h0 : Store.empty.T.Bst ∧ (tableOf Store.empty.T).Readable :=
    ⟨C0Node.bst_null, readable_empty⟩
  exact (inv_of_guarded hstep h0 h hr).2

theorem Lendless.snoc {history : List Req} (h : Lendless history) {s : Store}
    (hr : run Store.step Store.empty history = some (noLog s)) {r : Req} (hl : ¬ Req.Lends s r) :
    Lendless (history ++ [r]) := by
  refine (guarded_snoc ..).mpr ⟨h, fun t ht => ?_⟩
  obtain rfl := Option.some.inj (hr.symm.trans ht)
  cases r <;> exact hl

/-! ## what a thread does with its write -/

section advance
variable {ν : Type} [DecidableEq ν] {n : LockNode ν Unit} {nodeId : ℕ}
  {peers : List (Fin maxPeers × ν)} {r : LockNode ν Unit × List (ν × PeerMessage)}

/-- with a write that it has run and not sent to all peers -/
def ThreadPhase.AtWrite : ThreadPhase ν → Prop
  | .served _ _ _ _ | .writing _ _ _ => True
  | .idle | .stamped _ | .queued _ | .sending _ _ | .marking _ _ _ | .heading _ | .critical _
  | .dequeued _ | .releasing _ _ _ => False

/-- a step of a thread, as far as writes and releases are concerned -/
structure Brings (peers : List ν) (n : LockNode ν Unit)
    (r : LockNode ν Unit × List (ν × PeerMessage)) : Prop where
  store : r.1.store = n.store
  /-- the queue loses an entry at the end of a critical section only -/
  queue : n.lockQueue.Sublist r.1.lockQueue ∨
    (n.threads ()).abs.inside ∧ r.1.lockQueue = n.lockQueue.tail
  write : ∀ q, (outTo q r.2).filterMap PeerMessage.write ++
    (r.1.threads ()).unsentWrite peers q = (n.threads ()).unsentWrite peers q
  release : ∀ q, ((n.threads ()).abs.owed peers).count q ≤
    ((outTo q r.2).map PeerMessage.abs).countP Msg.isRelease +
      ((r.1.threads ()).abs.owed peers).count q
  /-- the write is sent, and the release follows -/
  leave : (n.threads ()).AtWrite → (r.1.threads ()).AtWrite ∨
    (r.1.threads ()).abs.owed peers = peers

theorem outTo_nil (q : ν) : outTo q ([] : List (ν × PeerMessage)) = [] := rfl

theorem outTo_single (q p : ν) (m : PeerMessage) :
    outTo q [(p, m)] = if p = q then [m] else [] := by
  unfold outTo
  split_ifs with h
  · rw [List.filter_cons_of_pos (by simpa using h)]
    rfl
  · rw [List.filter_cons_of_neg (by simpa using h)]
    rfl

/-- a step that neither sends a write or a release nor has one at hand -/
theorem brings_of_quiet {ph : ThreadPhase ν} {out : List (ν × PeerMessage)}
    {n' : LockNode ν Unit} (hp : n.threads () = ph) (hs : n'.store = n.store)
    (hq : n.lockQueue.Sublist n'.lockQueue) (hout : ∀ x ∈ out, x.2.messageType ≠ .serverWrite)
    (hw : ∀ q, (n'.threads ()).unsentWrite (peers.map Prod.snd) q =
      ph.unsentWrite (peers.map Prod.snd) q)
    (hr : ph.abs.owed (peers.map Prod.snd) = []) (hat : ¬ ph.AtWrite) :
    Brings (peers.map Prod.snd) n (n', out) where
  store := hs
  queue := Or.inl hq
  write q := by
    have hnil : (outTo q out).filterMap PeerMessage.write = [] := by
      refine List.filterMap_eq_nil_iff.mpr fun m hm => ?_
      obtain ⟨x, hx, rfl⟩ := List.mem_map.mp hm
      exact PeerMessage.write_of_ne (hout x (List.mem_filter.mp hx).1)
    rw [hnil, List.nil_append, hp]
    exact hw q
  release q := by
    rw [hp, hr]
    exact Nat.zero_le _
  leave h := by
    rw [hp] at h
    exact absurd h hat

theorem advance_brings (h : n.advance nodeId peers () = some r)
    (hn : (n.threads ()).OfNode nodeId)
    (hrest : (n.threads ()).abs.rest.Nodup) : Brings (peers.map Prod.snd) n r := by
  unfold LockNode.advance at h
  have hself : ∀ ph : ThreadPhase ν, Function.update n.threads () ph () = ph :=
    fun ph => Function.update_self ..
  cases hp : n.threads () with
  | idle => rw [hp] at h; cases h
  | critical msg => rw [hp] at h; cases h
  | stamped msg =>
    rw [hp] at h
    cases he : enqueue n.lockQueue msg with
    | none =>
      simp only [he] at h
      obtain rfl := Option.some.inj h
      exact brings_of_quiet hp rfl (List.Sublist.refl _) (by simp) (fun _ => rfl) rfl id
    | some q =>
      simp only [he] at h
      obtain rfl := Option.some.inj h
      rw [enqueue_eq] at he
      obtain ⟨-, he⟩ := Option.ite_none_left_eq_some.mp he
      obtain rfl := Option.some.inj he
      exact brings_of_quiet hp rfl (SortedQueue.sublist_insert _) (by simp) (fun _ => rfl) rfl id
  | queued msg =>
    rw [hp] at h
    obtain ⟨-, h⟩ := Option.ite_none_right_eq_some.mp h
    obtain rfl := Option.some.inj h
    exact brings_of_quiet hp rfl (List.Sublist.refl _) (by simp) (fun _ => rfl) rfl id
  | sending msg rest =>
    rw [hp] at h hn
    cases rest with
    | nil =>
      obtain ⟨-, h⟩ := Option.ite_none_right_eq_some.mp h
      obtain rfl := Option.some.inj h
      exact brings_of_quiet hp rfl (List.Sublist.refl _) (by simp) (fun _ => rfl) rfl id
    | cons a rest =>
      obtain rfl := Option.some.inj h
      refine brings_of_quiet hp rfl (List.Sublist.refl _) ?_ (fun _ => rfl) rfl id
      intro x hx
      rw [List.mem_singleton.mp hx, hn.1]
      simp
  | marking msg i rest =>
    rw [hp] at h
    obtain rfl := Option.some.inj h
    exact brings_of_quiet hp rfl (List.Sublist.refl _) (by simp) (fun _ => rfl) rfl id
  | heading msg =>
    rw [hp] at h
    obtain ⟨-, h⟩ := Option.ite_none_right_eq_some.mp h
    obtain rfl := Option.some.inj h
    exact brings_of_quiet hp rfl (List.Sublist.refl _) (by simp) (fun _ => rfl) rfl id
  | served msg w key value =>
    rw [hp] at h
    obtain rfl := Option.some.inj h
    refine ⟨rfl, Or.inl (List.Sublist.refl _), fun q => ?_, fun q => ?_, fun _ => Or.inl ?_⟩
    · show _ ++ (Function.update n.threads () _ ()).unsentWrite _ q = _
      rw [hself, hp]
      rfl
    · rw [hp]
      exact Nat.zero_le _
    · show (Function.update n.threads () _ ()).AtWrite
      rw [hself]
      trivial
  | writing msg write rest =>
    rw [hp] at h hrest
    cases rest with
    | nil =>
      obtain rfl := Option.some.inj h
      refine ⟨rfl, Or.inr ⟨by rw [hp]; rfl, rfl⟩, fun q => ?_, fun q => ?_, fun _ => Or.inr ?_⟩
      · show _ ++ (Function.update n.threads () _ ()).unsentWrite _ q = _
        rw [hself, hp]
        rfl
      · rw [hp]
        exact Nat.zero_le _
      · show (Function.update n.threads () _ ()).abs.owed _ = _
        rw [hself]
        rfl
    | cons a rest =>
      obtain ⟨i, p⟩ := a
      obtain rfl := Option.some.inj h
      refine ⟨rfl, Or.inl (List.Sublist.refl _), fun q => ?_, fun q => ?_, fun _ => Or.inl ?_⟩
      · show (outTo q [(p, write)]).filterMap _ ++
          (Function.update n.threads () _ ()).unsentWrite _ q = _
        rw [hself, hp, outTo_single]
        have hnot : p ∉ rest.map Prod.snd := (List.nodup_cons.mp hrest).1
        by_cases hq : p = q
        · subst hq
          rw [if_pos rfl]
          show _ ++ (if p ∈ rest.map Prod.snd then _ else _) =
            if p ∈ p :: rest.map Prod.snd then _ else _
          rw [if_neg hnot, if_pos List.mem_cons_self, List.append_nil]
          cases hw : write.write <;> simp [hw]
        · rw [if_neg hq]
          show [] ++ (if q ∈ rest.map Prod.snd then _ else _) =
            if q ∈ p :: rest.map Prod.snd then _ else _
          rw [List.nil_append]
          simp [Ne.symm hq]
      · rw [hp]
        exact Nat.zero_le _
      · show (Function.update n.threads () _ ()).AtWrite
        rw [hself]
        trivial
  | dequeued msg =>
    rw [hp] at h
    obtain rfl := Option.some.inj h
    refine ⟨rfl, Or.inl (List.Sublist.refl _), fun q => ?_, fun q => ?_, fun hat => ?_⟩
    · show _ ++ (Function.update n.threads () _ ()).unsentWrite _ q = _
      rw [hself, hp]
      rfl
    · show _ ≤ _ + ((Function.update n.threads () _ ()).abs.owed _).count q
      rw [hself, hp]
      exact Nat.le_add_left ..
    · rw [hp] at hat
      exact hat.elim
  | releasing msg release rest =>
    rw [hp] at h hn
    have hw : release.write = none := PeerMessage.write_of_ne (by rw [hn.2.1]; simp)
    cases rest with
    | nil =>
      obtain rfl := Option.some.inj h
      exact brings_of_quiet hp rfl (List.Sublist.refl _) (by simp) (fun _ => rfl) rfl id
    | cons a rest =>
      obtain ⟨i, p⟩ := a
      obtain rfl := Option.some.inj h
      refine ⟨rfl, Or.inl (List.Sublist.refl _), fun q => ?_, fun q => ?_, fun hat => ?_⟩
      · have hnone : (outTo q [(p, release)]).filterMap PeerMessage.write = [] := by
          rw [outTo_single]
          split_ifs
          · rw [List.filterMap_cons_none hw, List.filterMap_nil]
          · rfl
        show (outTo q [(p, release)]).filterMap _ ++
          (Function.update n.threads () _ ()).unsentWrite _ q = _
        rw [hself, hp, hnone]
        rfl
      · show _ ≤ ((outTo q [(p, release)]).map PeerMessage.abs).countP _ +
          ((Function.update n.threads () _ ()).abs.owed _).count q
        rw [hself, hp, outTo_single]
        show (p :: rest.map Prod.snd).count q ≤ _ + (rest.map Prod.snd).count q
        rw [List.count_cons]
        by_cases hq : p = q
        · have habs : release.abs = .release release.timestamp := by
            rw [PeerMessage.abs, hn.2.1]
          simp [hq, habs, Nat.add_comm]
        · simp [hq]
      · rw [hp] at hat
        exact hat.elim

end advance

/-! ## what a message does -/

section handle
variable {ν : Type} [DecidableEq ν] {n : LockNode ν Unit} {id id' : ℕ} {m : PeerMessage} {q : ν}
  {r : LockNode ν Unit × List (ν × PeerMessage)}

/-- a message, as far as writes and releases are concerned -/
structure Takes (n : LockNode ν Unit) (m : PeerMessage)
    (r : LockNode ν Unit × List (ν × PeerMessage)) : Prop where
  threads : r.1.threads = n.threads
  out : ∀ x ∈ r.2, x.2.messageType = .replyLock
  store : m.messageType ≠ .serverWrite → r.1.store = n.store
  queue : n.lockQueue.Sublist r.1.lockQueue ∨
    m.messageType = .releaseLock ∧ r.1.lockQueue = n.lockQueue.tail

theorem handle_takes (h : n.handlePeerMessage id m q id' = some r) : Takes n m r := by
  unfold LockNode.handlePeerMessage at h
  cases hty : m.messageType with
  | requestLock =>
    have hin : n.lockQueue.Sublist ((enqueue n.lockQueue ⟨n.next, m⟩).getD n.lockQueue) := by
      rw [enqueue_eq]
      split_ifs
      · exact List.Sublist.refl _
      · exact SortedQueue.sublist_insert _
    simp only [hty] at h
    split at h
    · cases h
    · split at h
      · obtain rfl := Option.some.inj h
        exact ⟨rfl, by simp, fun _ => rfl, Or.inl hin⟩
      · obtain rfl := Option.some.inj h
        exact ⟨rfl, by simp [LockNode.handleRequestLock, lockMessage], fun _ => rfl, Or.inl hin⟩
  | releaseLock =>
    simp only [hty] at h
    obtain rfl := Option.some.inj h
    exact ⟨rfl, by simp, fun _ => rfl, Or.inr ⟨hty, rfl⟩⟩
  | replyLock =>
    simp only [hty] at h
    split at h
    · obtain rfl := Option.some.inj h
      split_ifs
      · exact ⟨rfl, by simp [LockNode.handleRequestLock, lockMessage], fun _ => rfl,
          Or.inl (List.Sublist.refl _)⟩
      · exact ⟨rfl, by simp, fun _ => rfl, Or.inl (List.Sublist.refl _)⟩
    · cases h
  | serverWrite =>
    simp only [hty] at h
    split at h
    · cases h
    · split at h
      · obtain ⟨store, -, rfl⟩ := Option.map_eq_some_iff.mp h
        exact ⟨rfl, by simp, fun hne => absurd hty hne, Or.inl (List.Sublist.refl _)⟩
      · obtain rfl := Option.some.inj h
        exact ⟨rfl, by simp, fun _ => rfl, Or.inl (List.Sublist.refl _)⟩

/-- replies carry no write and no release -/
theorem outTo_replies {out : List (ν × PeerMessage)}
    (h : ∀ x ∈ out, x.2.messageType = .replyLock) (q : ν) :
    (outTo q out).filterMap PeerMessage.write = [] ∧
      ((outTo q out).map PeerMessage.abs).countP Msg.isRelease = 0 := by
  have hmem : ∀ m ∈ outTo q out, m.messageType = .replyLock := by
    intro m hm
    obtain ⟨x, hx, rfl⟩ := List.mem_map.mp hm
    exact h x (List.mem_filter.mp hx).1
  constructor
  · refine List.filterMap_eq_nil_iff.mpr fun m hm => PeerMessage.write_of_ne ?_
    rw [hmem m hm]
    simp
  · refine List.countP_eq_zero.mpr fun y hy => ?_
    obtain ⟨m, hm, rfl⟩ := List.mem_map.mp hy
    rw [PeerMessage.abs, hmem m hm]
    simp

end handle

/-! ## the channels -/

section channels
variable {ν : Type} [DecidableEq ν] {d : Deployment ν} {c : Cluster ν Unit} {p : ν}

theorem put_chan (c : Cluster ν Unit) (p : ν) (r : LockNode ν Unit × List (ν × PeerMessage))
    (p' n : ν) : (c.put p r).chan p' n =
      if p' = p then c.chan p n ++ outTo n r.2 else c.chan p' n := by
  obtain ⟨node, out⟩ := r
  have hfold : ∀ c : Cluster ν Unit,
      (out.foldl (fun c x => c.push p x.1 x.2) c).chan p' n =
        if p' = p then c.chan p n ++ outTo n out else c.chan p' n := by
    induction out with
    | nil =>
      intro c
      split_ifs with h
      · rw [h, outTo_nil, List.append_nil]
        rfl
      · rfl
    | cons x out ih =>
      intro c
      rw [List.foldl_cons, ih]
      by_cases h : p' = p
      · rw [if_pos h, if_pos h, Cluster.push_chan]
        by_cases hx : x.1 = n
        · rw [if_pos ⟨rfl, hx.symm⟩, List.append_assoc, hx]
          unfold outTo
          rw [List.filter_cons_of_pos (by simpa using hx)]
          rfl
        · rw [if_neg fun he => hx he.2.symm]
          unfold outTo
          rw [List.filter_cons_of_neg (by simpa using hx)]
      · rw [if_neg h, if_neg h, Cluster.push_chan, if_neg fun he => h he.1]
  exact hfold _

theorem put_threads (c : Cluster ν Unit) (p : ν) (r : LockNode ν Unit × List (ν × PeerMessage))
    (p' : ν) : ((c.put p r).nodes p').threads =
      if p' = p then r.1.threads else (c.nodes p').threads := by
  rw [Cluster.put_nodes, Function.update_apply]
  split_ifs <;> rfl

theorem put_store (c : Cluster ν Unit) (p : ν) (r : LockNode ν Unit × List (ν × PeerMessage))
    (p' : ν) : ((c.put p r).nodes p').store =
      if p' = p then r.1.store else (c.nodes p').store := by
  rw [Cluster.put_nodes, Function.update_apply]
  split_ifs <;> rfl

theorem put_queue (c : Cluster ν Unit) (p : ν) (r : LockNode ν Unit × List (ν × PeerMessage))
    (p' : ν) : ((c.put p r).nodes p').lockQueue =
      if p' = p then r.1.lockQueue else (c.nodes p').lockQueue := by
  rw [Cluster.put_nodes, Function.update_apply]
  split_ifs <;> rfl

theorem numbers_abs (c : Cluster ν Unit) (n : ν) :
    (c.abs.queue n).map Rank.number = numbers c n := by
  rw [Cluster.abs_queue, List.map_map]
  rfl

theorem owing_abs [Fintype ν] (d : Deployment ν) (c : Cluster ν Unit) (p n : ν) :
    owing d.net c.abs p n = ((c.chan p n).map PeerMessage.abs).countP Msg.isRelease +
      ((((c.nodes p).threads ()).abs).owed (d.net.peers p)).count n :=
  owing_eq () p n

end channels

/-! ## what holds in every state -/

section agree
variable {ν : Type} [DecidableEq ν] [Fintype ν] {d : Deployment ν} {x x' : Replicas ν}
  {c c' : Cluster ν Unit}

structure Agree (d : Deployment ν) (x : Replicas ν) : Prop where
  held : Held d x.cluster
  /-- a write under way is still being sent, or its release has still to follow -/
  followed : ∀ p n, underWay d x.cluster p n ≠ [] →
    ((x.cluster.nodes p).threads ()).AtWrite ∨ 0 < owing d.net x.cluster.abs p n
  replays : ∀ n, run Store.step Store.empty (x.history n) = some (noLog (x.cluster.nodes n).store)
  backlog : ∀ n, ∃ l, Backlog d x n l

theorem ThreadPhase.AtWrite.inside {ph : ThreadPhase ν} (h : ph.AtWrite) : ph.abs.inside := by
  cases ph <;> simp_all [AtWrite, ThreadPhase.abs]

/-- nothing is sent to the own node -/
theorem Held.underWay_self (hd : d.Full) (hi : Held d c) (p : ν) : underWay d c p p = [] := by
  have hchan : c.chan p p = [] := by
    have hself := (hi.inv.self p).1
    rw [Cluster.abs_chan] at hself
    exact List.map_eq_nil_iff.mp hself
  have hrest := hi.inv.ne_of_rest hd.net (p := p) (q := p) (t := ())
  rw [Cluster.abs_phase] at hrest
  unfold underWay
  rw [hchan, List.filterMap_nil, List.nil_append]
  cases hp : (c.nodes p).threads () with
  | served msg w key value =>
    exact if_neg fun hm => (hd.net.mem_peers p p).mp hm rfl
  | writing msg write rest =>
    refine if_neg fun hm => ?_
    rw [hp] at hrest
    exact hrest hm rfl
  | _ => rfl

theorem Held.rest_nodup (hd : d.Full) (hi : Held d c) (p : ν) :
    (((c.nodes p).threads ()).abs.rest).Nodup :=
  (hd.net.nodup p).sublist (hi.inv.rest p ()).sublist

theorem Backlog.mem_underWay {n : ν} {l : List (ν × Req)} (h : Backlog d x n l) {y : ν × Req}
    (hy : y ∈ l) : underWay d x.cluster y.1 n ≠ [] := by
  have hmem : y.2 ∈ underWay d x.cluster y.1 n := by
    rw [← h.content]
    exact List.mem_map_of_mem (List.mem_filter.mpr ⟨hy, by simp⟩)
  exact List.ne_nil_of_mem hmem

/-- a step that leaves the backlog of a node alone -/
theorem Backlog.frame {n : ν} {l : List (ν × Req)} (h : Backlog d x n l)
    (hs : x'.served = x.served) (hh : x'.history n = x.history n)
    (hu : ∀ p, underWay d x'.cluster p n = underWay d x.cluster p n)
    (hq : (numbers x.cluster n).Sublist (numbers x'.cluster n)) : Backlog d x' n l where
  served := by rw [hs, hh, h.served]
  content p := by rw [hu, h.content]
  queued := h.queued.trans hq

/-- the first of a list in order is its first among others -/
theorem sublist_of_head {α : Type*} {l rest : List α} {a : α} (h : l.Sublist (a :: rest))
    (ha : a ∉ l) : l.Sublist rest := by
  cases h with
  | cons _ h => exact h
  | cons_cons _ h => exact absurd List.mem_cons_self ha

/-- the queue of the receiver loses the request of a node that has nothing under way to it -/
theorem Backlog.tail {n q : ν} {l : List (ν × Req)} (hd : d.Full) (h : Backlog d x n l)
    (hs : x'.served = x.served) (hh : x'.history n = x.history n)
    (hu : ∀ p, underWay d x'.cluster p n = underWay d x.cluster p n)
    (hq : numbers x.cluster n = d.nodeId q :: numbers x'.cluster n)
    (hnone : underWay d x.cluster q n = []) : Backlog d x' n l where
  served := by rw [hs, hh, h.served]
  content p := by rw [hu, h.content]
  queued := by
    have hsub := h.queued
    rw [hq] at hsub
    refine sublist_of_head hsub fun hm => ?_
    obtain ⟨y, hy, he⟩ := List.mem_map.mp hm
    have hne := h.mem_underWay hy
    rw [hd.nodeId_inj he] at hne
    exact hne hnone

/-! ### a thread goes on -/

theorem distributedLock_brings {n n' : LockNode ν Unit} {nodeId : ℕ}
    (h : n.distributedLock nodeId () = some n') (peers : List (Fin maxPeers × ν)) :
    Brings (peers.map Prod.snd) n (n', []) := by
  unfold LockNode.distributedLock at h
  split at h
  · rename_i hp
    obtain rfl := Option.some.inj h
    exact brings_of_quiet hp rfl (List.Sublist.refl _) (by simp) (fun _ => rfl) rfl fun hat => hat
  · cases h

theorem underWay_put {p : ν} {r : LockNode ν Unit × List (ν × PeerMessage)}
    (hb : Brings (d.net.peers p) (c.nodes p) r) (p' n : ν) :
    underWay d (c.put p r) p' n = underWay d c p' n := by
  unfold underWay
  rw [put_chan, put_threads]
  split_ifs with h
  · rw [h, List.filterMap_append, List.append_assoc, hb.write]
  · rfl

theorem owing_put {p : ν} {r : LockNode ν Unit × List (ν × PeerMessage)}
    (hb : Brings (d.net.peers p) (c.nodes p) r) (p' n : ν) :
    owing d.net c.abs p' n ≤ owing d.net (c.put p r).abs p' n := by
  rw [owing_abs, owing_abs, put_chan, put_threads]
  split_ifs with h
  · have hle := hb.release n
    rw [h, List.map_append, List.countP_append]
    omega
  · exact le_rfl

theorem Agree.thread (hd : d.Full) (ha : Agree d x) {p : ν}
    {r : LockNode ν Unit × List (ν × PeerMessage)}
    (hb : Brings (d.net.peers p) (x.cluster.nodes p) r) (hheld : Held d (x.cluster.put p r)) :
    Agree d ⟨x.cluster.put p r, x.history, x.served⟩ := by
  refine ⟨hheld, fun p' n hne => ?_, fun n => ?_, fun n => ?_⟩
  · rw [underWay_put hb] at hne
    rcases ha.followed p' n hne with hat | ho
    · rw [put_threads]
      split_ifs with h
      · subst h
        refine (hb.leave hat).imp id fun howed => ?_
        have hn : n ≠ p' := fun he => hne (he ▸ ha.held.underWay_self hd p')
        have hmem := List.count_pos_iff.mpr ((hd.net.mem_peers p' n).mpr hn)
        rw [owing_abs, put_threads, if_pos rfl, howed]
        exact Nat.lt_add_left _ hmem
      · exact Or.inl hat
    · exact Or.inr (ho.trans_le (owing_put hb p' n))
  · rw [put_store]
    split_ifs with h
    · rw [hb.store, ← h]
      exact ha.replays n
    · exact ha.replays n
  · obtain ⟨l, hl⟩ := ha.backlog n
    have hcases : (numbers x.cluster n).Sublist (numbers (x.cluster.put p r) n) ∨
        n = p ∧ ((x.cluster.nodes p).threads ()).abs.inside ∧
          r.1.lockQueue = (x.cluster.nodes p).lockQueue.tail := by
      unfold numbers
      rw [put_queue]
      split_ifs with h
      · subst h
        exact hb.queue.imp (fun hq => hq.map _) fun hq => ⟨rfl, hq⟩
      · exact Or.inl (List.Sublist.refl _)
    rcases hcases with hq | ⟨rfl, hin, hq⟩
    · exact ⟨l, hl.frame rfl rfl (fun p' => underWay_put hb p' n) hq⟩
    · -- at the end of its critical section the node takes its own request
      obtain ⟨ts, hlive⟩ := Phase.live_of_ahead (Phase.ahead_of_inside hin)
      have hhead := (ha.held.inv.inside n () ts hin hlive).1
      refine ⟨l, hl.tail hd (q := n) rfl rfl (fun p' => underWay_put hb p' n) ?_
        (ha.held.underWay_self hd n)⟩
      rw [Cluster.abs_queue, List.head?_map] at hhead
      obtain ⟨y, hy, hrank⟩ := Option.map_eq_some_iff.mp hhead
      obtain ⟨ys, hys⟩ := List.head?_eq_some_iff.mp hy
      have hnumber : y.message.nodeId = d.nodeId n := congrArg Rank.number hrank
      unfold numbers
      rw [put_queue, if_pos rfl, hq, hys, List.map_cons, hnumber, List.tail_cons]

/-! ### the holder runs its write -/

theorem sublist_of_append {α : Type*} {l a b : List α} (h : l.Sublist (a ++ b))
    (hb : ∀ y ∈ l, y ∉ b) : l.Sublist a := by
  obtain ⟨l1, l2, rfl, h1, h2⟩ := List.sublist_append_iff.mp h
  cases l2 with
  | nil => rwa [List.append_nil]
  | cons y l2 =>
    exact absurd (h2.subset List.mem_cons_self)
      (hb y (List.mem_append_right _ List.mem_cons_self))

section serve
variable {p : ν} {msg : PqueueData}

/-- a node that has just got the lock has no write under way -/
theorem Agree.none_of_critical (ha : Agree d x)
    (hp : (x.cluster.nodes p).threads () = .critical msg) (n : ν) :
    underWay d x.cluster p n = [] := by
  by_contra hne
  have hin : (x.cluster.abs.phase p ()) = .critical msg.message.timestamp := by
    rw [Cluster.abs_phase, hp]
    rfl
  rcases ha.followed p n hne with hat | ho
  · rw [hp] at hat
    exact hat
  · have hmem := ha.held.inv.mem_of_ahead (p := p) (t := ()) (by rw [hin]; rfl) (by rw [hin]; rfl) n
    have h0 := ha.held.order.heard p () _ n (by rw [hin]; rfl) hmem
    omega

/-- the others that have one have released the lock -/
theorem Agree.released_of_critical (ha : Agree d x)
    (hp : (x.cluster.nodes p).threads () = .critical msg) {q n : ν} (hq : q ≠ p)
    (hne : underWay d x.cluster q n ≠ []) : 0 < owing d.net x.cluster.abs q n := by
  refine (ha.followed q n hne).resolve_left fun hat => hq ?_
  have hin : (x.cluster.abs.phase p ()).inside := by
    rw [Cluster.abs_phase, hp]
    rfl
  have hinq : (x.cluster.abs.phase q ()).inside := hat.inside
  exact (ha.held.inv.exclusive hin hinq).1

/-- the holder has run all writes before its own -/
theorem Agree.backlog_of_critical (hd : d.Full) (ha : Agree d x)
    (hp : (x.cluster.nodes p).threads () = .critical msg) {l : List (ν × Req)}
    (hl : Backlog d x p l) : l = [] := by
  cases l with
  | nil => rfl
  | cons y l =>
    exfalso
    have hne := hl.mem_underWay List.mem_cons_self
    have hq : y.1 ≠ p := fun he => hne (he ▸ ha.held.underWay_self hd p)
    have hpos := ha.released_of_critical hp hq hne
    -- no release has still to reach the holder
    obtain ⟨dead, alive, hsplit⟩ := ha.held.inv.split p
    have hcrit : x.cluster.abs.phase p () = .critical msg.message.timestamp := by
      rw [Cluster.abs_phase, hp]
      rfl
    obtain rfl := hsplit.dead_of_critical ha.held.inv hcrit
    have hz : outstanding d.net x.cluster.abs p = 0 := hsplit.length.symm
    have h0 := (Finset.sum_eq_zero_iff.mp hz) y.1 (Finset.mem_univ _)
    omega

/-- at a peer the request of the holder stands behind those whose writes have still to come -/
theorem Agree.queued_of_critical (hd : d.Full) (ha : Agree d x)
    (hp : (x.cluster.nodes p).threads () = .critical msg) {n : ν} {l : List (ν × Req)}
    (hl : Backlog d x n l) :
    ((l.map fun y => d.nodeId y.1) ++ [d.nodeId p]).Sublist (numbers x.cluster n) := by
  have hcrit : x.cluster.abs.phase p () = .critical msg.message.timestamp := by
    rw [Cluster.abs_phase, hp]
    rfl
  obtain ⟨dead, alive, hsplit⟩ := ha.held.inv.split n
  obtain ⟨rest, rfl⟩ := hsplit.alive_of_critical ha.held.inv hcrit
  have hnum : numbers x.cluster n = dead.map Rank.number ++ d.nodeId p :: rest.map Rank.number := by
    rw [← numbers_abs, hsplit.queue, List.map_append]
    rfl
  have hsub := hl.queued
  rw [hnum] at hsub ⊢
  have hdead : (l.map fun y => d.nodeId y.1).Sublist (dead.map Rank.number) := by
    refine sublist_of_append hsub fun id hid hmem => ?_
    obtain ⟨y, hy, rfl⟩ := List.mem_map.mp hid
    have hne := hl.mem_underWay hy
    have hq : y.1 ≠ p := fun he => hne (he ▸ ha.none_of_critical hp n)
    have hpos := ha.released_of_critical hp hq hne
    rcases List.mem_cons.mp hmem with he | hm
    · exact hq (hd.nodeId_inj he)
    · -- a node whose release has still to come has no request that is alive in the queue
      obtain ⟨z, hz, hnumber⟩ := List.mem_map.mp hm
      obtain ⟨q, t, ts, hlive, rfl⟩ := hsplit.alive z (List.mem_cons_of_mem _ hz)
      have hqy : q = y.1 := hd.nodeId_inj hnumber
      subst hqy
      have hin : d.net.rank y.1 ts ∈ x.cluster.abs.queue n := by
        rw [hsplit.queue]
        exact List.mem_append_right _ (List.mem_cons_of_mem _ hz)
      have h0 := ha.held.order.heard y.1 t ts n hlive hin
      omega
  exact hdead.append (List.singleton_sublist.mpr List.mem_cons_self)

end serve

theorem run_history {s : Store} {rs : List Req} (h : run Store.step Store.empty rs = some (noLog s))
    {s' : Store} {r : Req} (hs : s.step r = some s') :
    run Store.step Store.empty (rs ++ [r]) = some (noLog s') := by
  rw [run_snoc, h, Option.bind_some, step_noLog, hs]
  rfl

theorem writesIn_append (rs : List Req) {r : Req} (h : r.writes ≠ none) :
    writesIn (rs ++ [r]) = writesIn rs ++ [r] := by
  unfold writesIn
  rw [List.filter_append, List.filter_cons_of_pos]
  · rfl
  · exact Option.isSome_iff_ne_none.mpr h

theorem serve_cases {n n' : LockNode ν Unit} {txid : Int} {line : CStr}
    (h : n.serve () txid line = some n') : ∃ msg w key value r store,
      n.threads () = .critical msg ∧ (command line).write = some r ∧
        w.request key value = some r ∧ (noLog n.store).step r = some (noLog store) ∧
          { n.setThread () (.served msg w key value) with store := store } = n' := by
  unfold LockNode.serve at h
  split at h
  · rename_i msg hp
    simp only [Option.bind_eq_bind, Option.bind_eq_some_iff] at h
    obtain ⟨⟨w, key, value⟩, hargs, ⟨response, store⟩, hstore, h⟩ := h
    obtain ⟨r, hr, hreq⟩ := broadcastArgs_request hargs
    refine ⟨msg, w, key, value, r, store, hp, hr, hreq, ?_, Option.some.inj h⟩
    have hh := handler_write hr n.store txid
    rw [hstore] at hh
    show (noLog (logTransaction n.store txid line)).step r = _
    rw [step_noLog, Store.step, ← hh]
    rfl
  · cases h

/-- the write of the holder is under way to each of its peers -/
theorem Agree.underWay_served (hd : d.Full) (ha : Agree d x) {p : ν} {msg : PqueueData}
    (hp : (x.cluster.nodes p).threads () = .critical msg) {node : LockNode ν Unit} {w : WriteType}
    {key value : CStr} {r : Req} (hreq : w.request key value = some r)
    (hnode : node.threads () = .served msg w key value)
    (hheld : Held d (x.cluster.setNode p node)) (p' n : ν) :
    underWay d (x.cluster.setNode p node) p' n =
      if p' = p ∧ n ≠ p then [r] else underWay d x.cluster p' n := by
  by_cases hpp : p' = p
  · subst hpp
    by_cases hnp : n = p'
    · subst hnp
      rw [if_neg fun h => h.2 rfl, hheld.underWay_self hd, ha.held.underWay_self hd]
    · rw [if_pos ⟨rfl, hnp⟩]
      have hnone := ha.none_of_critical hp n
      unfold underWay at hnone ⊢
      rw [Cluster.setNode_nodes, Function.update_self, hnode, Cluster.setNode_chan,
        (List.append_eq_nil_iff.mp hnone).1]
      show [] ++ (if n ∈ d.net.peers p' then _ else _) = _
      rw [if_pos ((hd.net.mem_peers p' n).mpr hnp), hreq]
      rfl
  · rw [if_neg fun h => hpp h.1]
    unfold underWay
    rw [Cluster.setNode_nodes, Function.update_of_ne hpp, Cluster.setNode_chan]

theorem Agree.serve (hd : d.Full) (ha : Agree d x) {p : ν} {node : LockNode ν Unit} {txid : Int}
    {line : CStr} (h : (x.cluster.nodes p).serve () txid line = some node)
    (hheld : Held d (x.cluster.setNode p node)) :
    ∃ r, (command line).write = some r ∧
      Agree d ⟨x.cluster.setNode p node,
        fun n => x.history n ++ if p = n then [r] else [], x.served ++ [r]⟩ := by
  obtain ⟨msg, w, key, value, r, store, hp, hr, hreq, hstep, hnode⟩ := serve_cases h
  have hw := writes_of_write hr
  have hself : node.threads () = .served msg w key value := by
    rw [← hnode]
    dsimp only [LockNode.setThread]
    rw [Function.update_self]
  have hunder := ha.underWay_served hd hp hreq hself hheld
  have hthread : ∀ p', p' ≠ p → ((x.cluster.setNode p node).nodes p').threads () =
      (x.cluster.nodes p').threads () := by
    intro p' hne
    rw [Cluster.setNode_nodes, Function.update_of_ne hne]
  have hqueue : ∀ n, numbers (x.cluster.setNode p node) n = numbers x.cluster n := by
    intro n
    unfold numbers
    have hnodes : (x.cluster.setNode p node).nodes = Function.update x.cluster.nodes p node := rfl
    rw [Cluster.field_eq LockNode.lockQueue hnodes (by rw [← hnode]; rfl)]
  refine ⟨r, hr, hheld, fun p' n hne => ?_, fun n => ?_, fun n => ?_⟩
  · by_cases hpp : p' = p
    · rw [hpp, Cluster.setNode_nodes, Function.update_self, hself]
      exact Or.inl trivial
    · rw [hunder, if_neg fun h => hpp h.1] at hne
      rw [hthread p' hpp]
      refine (ha.followed p' n hne).imp id fun ho => ?_
      rw [owing_abs] at ho ⊢
      rwa [hthread p' hpp]
  · show run Store.step Store.empty (x.history n ++ if p = n then [r] else []) = _
    rw [Cluster.setNode_nodes, Function.update_apply]
    by_cases hnp : n = p
    · subst hnp
      rw [if_pos rfl, if_pos rfl, ← hnode]
      rw [run_snoc, ha.replays n, Option.bind_some]
      exact hstep
    · rw [if_neg hnp, if_neg (Ne.symm hnp), List.append_nil]
      exact ha.replays n
  · obtain ⟨l, hl⟩ := ha.backlog n
    by_cases hnp : n = p
    · subst hnp
      obtain rfl := ha.backlog_of_critical hd hp hl
      refine ⟨[], ?_, fun p' => ?_, List.nil_sublist _⟩
      · show x.served ++ [r] = writesIn (x.history n ++ if n = n then [r] else []) ++ []
        rw [if_pos rfl, writesIn_append _ hw, hl.served]
        simp
      · rw [hunder, if_neg fun h => h.2 rfl]
        exact hl.content p'
    · refine ⟨l ++ [(p, r)], ?_, fun p' => ?_, ?_⟩
      · show x.served ++ [r] = writesIn (x.history n ++ if p = n then [r] else []) ++ _
        rw [if_neg (Ne.symm hnp), List.append_nil, hl.served]
        simp
      · rw [hunder, List.filter_append, List.map_append, hl.content]
        by_cases hpp : p' = p
        · subst hpp
          rw [if_pos ⟨rfl, hnp⟩, ha.none_of_critical hp n]
          simp
        · rw [if_neg fun h => hpp h.1]
          simp [Ne.symm hpp]
      · show ((l ++ [(p, r)]).map _).Sublist (numbers (x.cluster.setNode p node) n)
        rw [hqueue, List.map_append]
        exact ha.queued_of_critical hd hp hl

/-! ### a message comes -/

section deliver
variable {q p : ν} {m : PeerMessage} {ms : List PeerMessage}
  {r : LockNode ν Unit × List (ν × PeerMessage)}

theorem deliver_threads (ht : Takes (c.nodes p) m r) (p' : ν) :
    (((c.pop q p).put p r).nodes p').threads = (c.nodes p').threads := by
  rw [put_threads]
  split_ifs with h
  · rw [ht.threads, h]
  · rfl

theorem deliver_chan (hm : c.chan q p = m :: ms) (p' n : ν) :
    ((c.pop q p).put p r).chan p' n =
      (if p' = q ∧ n = p then ms else c.chan p' n) ++ if p' = p then outTo n r.2 else [] := by
  have hpop : ∀ p' n, (c.pop q p).chan p' n = if p' = q ∧ n = p then ms else c.chan p' n := by
    intro p' n
    rw [Cluster.pop_chan, hm, List.tail_cons]
  rw [put_chan, hpop, hpop]
  by_cases h : p' = p
  · rw [if_pos h, if_pos h, h]
  · rw [if_neg h, if_neg h, List.append_nil]

theorem deliver_writes (hm : c.chan q p = m :: ms) (ht : Takes (c.nodes p) m r) (p' n : ν) :
    underWay d ((c.pop q p).put p r) p' n =
      (if p' = q ∧ n = p then ms else c.chan p' n).filterMap PeerMessage.write ++
        ((c.nodes p').threads ()).unsentWrite (d.net.peers p') n := by
  unfold underWay
  rw [deliver_threads ht, deliver_chan hm, List.filterMap_append]
  refine congrArg (· ++ _) ?_
  split_ifs
  all_goals first
    | rw [(outTo_replies ht.out n).1, List.append_nil]
    | rw [List.filterMap_nil, List.append_nil]

theorem deliver_underWay (hm : c.chan q p = m :: ms) (ht : Takes (c.nodes p) m r) :
    underWay d c q p = m.write.toList ++ underWay d ((c.pop q p).put p r) q p := by
  rw [deliver_writes hm ht, if_pos ⟨rfl, rfl⟩, ← List.append_assoc]
  unfold underWay
  refine congrArg (· ++ _) ?_
  rw [hm, List.filterMap_cons]
  cases m.write <;> rfl

theorem deliver_underWay_of_ne (hm : c.chan q p = m :: ms) (ht : Takes (c.nodes p) m r) {p' n : ν}
    (hne : ¬ (p' = q ∧ n = p)) :
    underWay d ((c.pop q p).put p r) p' n = underWay d c p' n := by
  rw [deliver_writes hm ht, if_neg hne]
  rfl

theorem deliver_owing (hm : c.chan q p = m :: ms) (ht : Takes (c.nodes p) m r) (p' n : ν)
    (hty : p' = q ∧ n = p → m.messageType ≠ .releaseLock) :
    owing d.net ((c.pop q p).put p r).abs p' n = owing d.net c.abs p' n := by
  rw [owing_abs, owing_abs, deliver_threads ht, deliver_chan hm, List.map_append,
    List.countP_append]
  refine congrArg (· + _) ?_
  have hout : ((if p' = p then outTo n r.2 else []).map PeerMessage.abs).countP Msg.isRelease
      = 0 := by
    split_ifs
    · exact (outTo_replies ht.out n).2
    · rfl
  rw [hout, Nat.add_zero]
  split_ifs with h
  · have hrel : m.abs.isRelease = false := by
      have hne := hty h
      unfold PeerMessage.abs
      cases hmt : m.messageType <;> simp_all
    rw [h.1, h.2, hm, List.map_cons, List.countP_cons_of_neg (by rw [hrel]; simp)]
  · rfl

/-- a release comes behind the write of its node -/
theorem Held.underWay_of_release (hd : d.Full) (hi : Held d c) (hm : c.chan q p = m :: ms)
    (hty : m.messageType = .releaseLock) : underWay d c q p = [] := by
  have habs : m.abs = .release m.timestamp := by rw [PeerMessage.abs, hty]
  have hchan : c.abs.chan q p = .release m.timestamp :: ms.map PeerMessage.abs := by
    rw [Cluster.abs_chan, hm, List.map_cons, habs]
  have hne : p ≠ q := by
    rintro rfl
    rw [(hi.inv.self p).1] at hchan
    cases hchan
  have hfifo := hi.order.fifo q p
  rw [hchan] at hfifo
  have hms : ms.filterMap PeerMessage.write = [] := by
    refine List.filterMap_eq_nil_iff.mpr fun m' hm' => PeerMessage.write_of_ne fun hw => ?_
    have hheld := (List.pairwise_cons.mp hfifo).1 _ (List.mem_map_of_mem hm') (Or.inr rfl)
    rw [PeerMessage.abs, hw] at hheld
    cases hheld
  have hthread : ((c.nodes q).threads ()).unsentWrite (d.net.peers q) p = [] := by
    have hnot : ((c.nodes q).threads ()).abs.inside = false := by
      by_contra hin
      rw [Bool.not_eq_false] at hin
      exact hi.order.release_notMem hd.net hi.inv (p := q) (t := ()) (Or.inl hin) hne m.timestamp
        (by rw [hchan]; exact List.mem_cons_self)
    cases hp : (c.nodes q).threads () with
    | served msg w key value => rw [hp] at hnot; cases hnot
    | writing msg write rest => rw [hp] at hnot; cases hnot
    | _ => rfl
  unfold underWay
  rw [hm, List.filterMap_cons_none (PeerMessage.write_of_ne (by rw [hty]; simp)), hms, hthread]
  rfl

theorem deliver_numbers (ht : Takes (c.nodes p) m r) (n : ν) :
    (numbers c n).Sublist (numbers ((c.pop q p).put p r) n) ∨
      m.messageType = .releaseLock ∧ n = p ∧
        numbers ((c.pop q p).put p r) n = (numbers c n).tail := by
  unfold numbers
  rw [put_queue]
  split_ifs with h
  · subst h
    exact ht.queue.imp (fun hq => hq.map _) fun hq => ⟨hq.1, rfl, by rw [hq.2, List.map_tail]⟩
  · exact Or.inl (List.Sublist.refl _)

theorem Agree.followed_deliver (hd : d.Full) (ha : Agree d x) (hm : x.cluster.chan q p = m :: ms)
    (ht : Takes (x.cluster.nodes p) m r) {p' n : ν}
    (hne : underWay d ((x.cluster.pop q p).put p r) p' n ≠ []) :
    ((((x.cluster.pop q p).put p r).nodes p').threads ()).AtWrite ∨
      0 < owing d.net ((x.cluster.pop q p).put p r).abs p' n := by
  have hrel : p' = q ∧ n = p → m.messageType ≠ .releaseLock := by
    rintro ⟨rfl, rfl⟩ hty
    have hnil := ha.held.underWay_of_release hd hm hty
    rw [deliver_underWay hm ht] at hnil
    exact hne (List.append_eq_nil_iff.mp hnil).2
  have hold : underWay d x.cluster p' n ≠ [] := by
    by_cases h : p' = q ∧ n = p
    · obtain ⟨rfl, rfl⟩ := h
      rw [deliver_underWay hm ht]
      exact fun he => hne (List.append_eq_nil_iff.mp he).2
    · rwa [deliver_underWay_of_ne hm ht h] at hne
  rw [deliver_threads ht, deliver_owing hm ht p' n hrel]
  exact ha.followed p' n hold

/-- a message that carries no write -/
theorem Agree.message (hd : d.Full) (ha : Agree d x) (hm : x.cluster.chan q p = m :: ms)
    (ht : Takes (x.cluster.nodes p) m r) (hw : m.write = none)
    (hstore : r.1.store = (x.cluster.nodes p).store)
    (hhead : m.messageType = .releaseLock →
      ∃ l, numbers x.cluster p = d.nodeId q :: l)
    (hheld : Held d ((x.cluster.pop q p).put p r)) :
    Agree d ⟨(x.cluster.pop q p).put p r, x.history, x.served⟩ := by
  have hunder : ∀ p' n, underWay d ((x.cluster.pop q p).put p r) p' n =
      underWay d x.cluster p' n := by
    intro p' n
    by_cases h : p' = q ∧ n = p
    · obtain ⟨rfl, rfl⟩ := h
      rw [deliver_underWay hm ht, hw]
      rfl
    · exact deliver_underWay_of_ne hm ht h
  refine ⟨hheld, fun p' n hne => ha.followed_deliver hd hm ht hne, fun n => ?_, fun n => ?_⟩
  · rw [put_store]
    split_ifs with h
    · rw [hstore, ← h]
      exact ha.replays n
    · exact ha.replays n
  · obtain ⟨l, hl⟩ := ha.backlog n
    rcases deliver_numbers (q := q) ht n with hq | ⟨hty, rfl, hq⟩
    · exact ⟨l, hl.frame rfl rfl (fun p' => hunder p' n) hq⟩
    · obtain ⟨rest, hrest⟩ := hhead hty
      refine ⟨l, hl.tail hd (q := q) rfl rfl (fun p' => hunder p' n) ?_
        (ha.held.underWay_of_release hd hm hty)⟩
      show numbers x.cluster n = d.nodeId q :: numbers ((x.cluster.pop q n).put n r) n
      rw [hq, hrest, List.tail_cons]

/-- the write that comes is the first that the node has still to run -/
theorem Backlog.of_write (hd : d.Full) {l : List (ν × Req)} (hl : Backlog d x p l)
    (ho : Order d.net x.cluster.abs) {req : Req} {rest : List Req}
    (hunder : underWay d x.cluster q p = req :: rest) {ids : List ℕ}
    (hq : numbers x.cluster p = d.nodeId q :: ids) :
    ∃ l', l = (q, req) :: l' ∧ (l'.map fun y => d.nodeId y.1).Sublist ids := by
  have hcontent := hl.content q
  rw [hunder] at hcontent
  -- the queue has one request of each node
  have hids : d.nodeId q ∉ ids := by
    intro hmem
    have hone := ho.single q p
    have hpos : 0 < ids.countP (· = d.nodeId q) :=
      List.countP_pos_iff.mpr ⟨_, hmem, by simp⟩
    have hcount : (numbers x.cluster p).countP (· = d.nodeId q) =
        (x.cluster.abs.queue p).countP (·.number = d.net.number q) := by
      rw [← numbers_abs, List.countP_map]
      rfl
    rw [← hcount, hq, List.countP_cons_of_pos (by simp)] at hone
    omega
  have hmem : d.nodeId q ∈ l.map fun y => d.nodeId y.1 := by
    cases hf : l.filter fun y => y.1 = q with
    | nil => rw [hf] at hcontent; cases hcontent
    | cons y ys =>
      have hy := List.mem_filter.mp (hf ▸ List.mem_cons_self : y ∈ l.filter fun y => y.1 = q)
      exact List.mem_map.mpr ⟨y, hy.1, congrArg d.nodeId (of_decide_eq_true hy.2)⟩
  have hsub := hl.queued
  rw [hq] at hsub
  cases l with
  | nil => cases hmem
  | cons y l' =>
    rw [List.map_cons] at hsub
    rcases List.cons_sublist_cons'.mp hsub with hsub | ⟨hy, hrest⟩
    · rw [← List.map_cons (f := fun y : ν × Req => d.nodeId y.1)] at hsub
      exact absurd (hsub.subset hmem) hids
    · obtain ⟨n, req'⟩ := y
      obtain rfl : n = q := hd.nodeId_inj hy
      rw [List.filter_cons_of_pos (by simp), List.map_cons] at hcontent
      obtain ⟨rfl, -⟩ := List.cons.inj hcontent
      exact ⟨l', rfl, hrest⟩

theorem Agree.write (hd : d.Full) (ha : Agree d x) (hm : x.cluster.chan q p = m :: ms)
    (ht : Takes (x.cluster.nodes p) m r) (hrel : m.messageType ≠ .releaseLock) {req : Req}
    (hw : m.write = some req) (hmut : req.writes ≠ none)
    (hstore : (x.cluster.nodes p).store.step req = some r.1.store) {ids : List ℕ}
    (hq : numbers x.cluster p = d.nodeId q :: ids)
    (hheld : Held d ((x.cluster.pop q p).put p r)) :
    Agree d ⟨(x.cluster.pop q p).put p r,
      fun n => x.history n ++ if p = n then [req] else [], x.served⟩ := by
  have hunder := deliver_underWay (d := d) hm ht
  rw [hw, Option.toList_some, List.singleton_append] at hunder
  have hnumbers : ∀ n, (numbers x.cluster n).Sublist
      (numbers ((x.cluster.pop q p).put p r) n) := fun n =>
    (deliver_numbers ht n).resolve_right fun h => hrel h.1
  refine ⟨hheld, fun p' n hne => ha.followed_deliver hd hm ht hne, fun n => ?_, fun n => ?_⟩
  · show run Store.step Store.empty (x.history n ++ if p = n then [req] else []) = _
    rw [put_store]
    by_cases hn : n = p
    · subst hn
      rw [if_pos rfl, if_pos rfl]
      exact run_history (ha.replays n) hstore
    · rw [if_neg hn, if_neg (Ne.symm hn), List.append_nil]
      exact ha.replays n
  · obtain ⟨l, hl⟩ := ha.backlog n
    by_cases hn : n = p
    · subst hn
      obtain ⟨l', rfl, hsub⟩ := hl.of_write hd ha.held.order hunder hq
      have hids : ids.Sublist (numbers ((x.cluster.pop q n).put n r) n) := by
        have h := hnumbers n
        rw [hq] at h
        exact (List.sublist_cons_self _ _).trans h
      refine ⟨l', ?_, fun p' => ?_, hsub.trans hids⟩
      · show x.served = writesIn (x.history n ++ if n = n then [req] else []) ++ _
        rw [if_pos rfl, writesIn_append _ hmut, hl.served]
        simp
      · have hcontent := hl.content p'
        by_cases hp : p' = q
        · subst hp
          rw [hunder, List.filter_cons_of_pos (by simp), List.map_cons] at hcontent
          exact (List.cons.inj hcontent).2
        · rw [List.filter_cons_of_neg (by simpa using Ne.symm hp)] at hcontent
          rw [hcontent]
          exact (deliver_underWay_of_ne hm ht fun h => hp h.1).symm
    · refine ⟨l, hl.frame rfl ?_ (fun p' => ?_) (hnumbers n)⟩
      · show x.history n ++ (if p = n then [req] else []) = _
        rw [if_neg (Ne.symm hn), List.append_nil]
      · exact deliver_underWay_of_ne hm ht fun h => hn h.2

theorem Agree.deliver (hd : d.Full) (ha : Agree d x) {c : Cluster ν Unit}
    (hok : HolderOk d x.cluster (.deliver q p)) (h : x.cluster.step d (.deliver q p) = some c) :
    Agree d ⟨c, fun n => x.history n ++ x.cluster.runs (.deliver q p) n, x.served ++ []⟩ := by
  have hheld := held_step hd ha.held hok h
  obtain ⟨m, ms, r, hm, hr, rfl⟩ := Cluster.step_deliver h
  have ht := handle_takes hr
  have hruns : ∀ n, x.cluster.runs (.deliver q p) n = if p = n then
      (if (peek (x.cluster.nodes p).lockQueue).map (fun x => x.message.nodeId) = some m.nodeId
        then m.write else none).toList else [] := by
    intro n
    show (if p = n then (((x.cluster.chan q p).head?.bind _).toList) else []) = _
    rw [hm]
    rfl
  have hacc := ha.held.accepts hok m (by rw [hm]; rfl)
  have hhead : m.messageType = .releaseLock ∨ m.messageType = .serverWrite →
      ∃ ids, numbers x.cluster p = d.nodeId q :: ids := by
    intro hty
    obtain ⟨y, l, hq, -, hid⟩ := (hacc hty).head
    exact ⟨l.map fun y => y.message.nodeId, by unfold numbers; rw [hq, List.map_cons, hid]⟩
  simp only [hruns, List.append_nil]
  cases hw : m.write with
  | none =>
    have hstore : r.1.store = (x.cluster.nodes p).store := by
      by_cases hty : m.messageType = .serverWrite
      · have hnone : m.writeType.request m.key m.value = none := by
          rwa [PeerMessage.write, if_pos hty] at hw
        rw [(hacc (Or.inr hty)).write hty, handleServerWrite_none hnone] at hr
        obtain rfl := Option.some.inj hr
        rfl
      · exact ht.store hty
    simp only [ite_self, Option.toList_none, List.append_nil]
    exact ha.message hd hm ht hw hstore (fun hty => hhead (Or.inl hty)) hheld
  | some req =>
    have hty : m.messageType = .serverWrite := by
      by_contra hne
      rw [PeerMessage.write_of_ne hne] at hw
      cases hw
    have hreq : m.writeType.request m.key m.value = some req := by
      rwa [PeerMessage.write, if_pos hty] at hw
    have hmut : req.writes ≠ none := by
      cases hwt : m.writeType <;> rw [hwt] at hreq <;> cases hreq <;> exact Option.some_ne_none _
    rw [(hacc (Or.inr hty)).write hty, handleServerWrite_request hreq] at hr
    obtain ⟨store, hstore, rfl⟩ := Option.map_eq_some_iff.mp hr
    obtain ⟨y, l, hq, -, hid⟩ := (hacc (Or.inr hty)).head
    have hpeek : (peek (x.cluster.nodes p).lockQueue).map (fun x => x.message.nodeId)
        = some m.nodeId := by
      rw [hq, ha.held.tagged.chan q p m (by rw [hm]; exact List.mem_cons_self)]
      exact congrArg some hid
    obtain ⟨ids, hids⟩ := hhead (Or.inr hty)
    simp only [if_pos hpeek, Option.toList_some]
    have hagree := ha.write hd hm ht (by rw [hty]; simp) hw hmut hstore hids hheld
    exact hagree

end deliver

/-! ### a node alone -/

theorem Agree.own (ha : Agree d x) {p : ν} {r : Req} (hr : r.writes = none)
    (h : x.own p r = some x') : Agree d x' := by
  obtain ⟨store, hstore, rfl⟩ := Option.map_eq_some_iff.mp h
  obtain ⟨node, hnode⟩ :
      ∃ node, node = ({ x.cluster.nodes p with store := store } : LockNode ν Unit) := ⟨_, rfl⟩
  have hfield : ∀ {β : Type} (f : LockNode ν Unit → β), f node = f (x.cluster.nodes p) →
      ∀ p', f ((x.cluster.setNode p node).nodes p') = f (x.cluster.nodes p') :=
    fun f hf => Cluster.field_eq f rfl hf
  have hthreads := hfield LockNode.threads (by rw [hnode])
  have hqueue := hfield LockNode.lockQueue (by rw [hnode])
  have habs : (x.cluster.setNode p node).abs = x.cluster.abs := by
    refine State.ext (funext (hfield LockNode.timestamp (by rw [hnode])))
      (funext (hfield (fun n => n.lockQueue.map PqueueData.rank) (by rw [hnode])))
      (funext (hfield LockNode.mMutex (by rw [hnode])))
      (funext (hfield LockNode.repliesReceived (by rw [hnode])))
      (funext (hfield LockNode.pending (by rw [hnode]))) (funext fun p' => funext fun t => ?_) rfl
    exact hfield (fun n => (n.threads t).abs) (by rw [hnode]) p'
  have hunder : ∀ p' n, underWay d (x.cluster.setNode p node) p' n =
      underWay d x.cluster p' n := by
    intro p' n
    unfold underWay
    rw [hthreads]
    rfl
  rw [← hnode]
  refine ⟨⟨⟨fun p' t => ?_, ha.held.tagged.chan⟩, ?_, ?_, fun p' => ?_⟩, fun p' n hne => ?_,
    fun n => ?_, fun n => ?_⟩
  · rw [hthreads]
    exact ha.held.tagged.thread p' t
  · rw [habs]
    exact ha.held.inv
  · rw [habs]
    exact ha.held.order
  · rw [hqueue]
    exact ha.held.requests p'
  · rw [hunder] at hne
    rw [hthreads, habs]
    exact ha.followed p' n hne
  · show run Store.step Store.empty (Function.update x.history p _ n) =
      some (noLog (Function.update x.cluster.nodes p node n).store)
    by_cases hn : n = p
    · subst hn
      rw [Function.update_self, Function.update_self, hnode]
      exact run_history (ha.replays n) hstore
    · rw [Function.update_of_ne hn, Function.update_of_ne hn]
      exact ha.replays n
  · obtain ⟨l, hl⟩ := ha.backlog n
    refine ⟨l, ?_, fun p' => ?_, ?_⟩
    · have hw : writesIn (Function.update x.history p (x.history p ++ [r]) n) =
          writesIn (x.history n) := by
        rw [Function.update_apply]
        split_ifs with hn
        · unfold writesIn
          rw [List.filter_append, List.filter_cons_of_neg (by rw [hr]; simp), List.filter_nil,
            List.append_nil, hn]
        · rfl
      show x.served = writesIn (Function.update x.history p _ n) ++ _
      rw [hw, hl.served]
    · rw [hunder, hl.content]
    · show (l.map fun y => d.nodeId y.1).Sublist (numbers (x.cluster.setNode p node) n)
      unfold numbers
      rw [hqueue]
      exact hl.queued

/-! ## the run -/

theorem agree_init : Agree d (Replicas.init : Replicas ν) where
  held := held_init
  followed _ _ hne := absurd rfl hne
  replays _ := rfl
  backlog _ := ⟨[], rfl, fun _ => rfl, List.nil_sublist _⟩

theorem agree_step (hd : d.Full) (ha : Agree d x) {a : ServiceAct ν} (hok : ReplicaOk d x a)
    (h : x.step d a = some x') : Agree d x' := by
  cases a with
  | get p key => exact ha.own rfl h
  | flush p => exact ha.own rfl h
  | lock a =>
    obtain ⟨c, hc, rfl⟩ := Option.map_eq_some_iff.mp h
    have hheld := held_step hd ha.held hok.1 hc
    cases a with
    | lock p t =>
      obtain ⟨n, hn, rfl⟩ := Option.map_eq_some_iff.mp hc
      have hagree : Agree d ⟨x.cluster.setNode p n, x.history, x.served⟩ :=
        ha.thread hd (r := (n, [])) (distributedLock_brings hn (d.peers p)) hheld
      simpa [Cluster.runs, LockAct.serves] using hagree
    | advance p t =>
      obtain ⟨r, hr, rfl⟩ := Option.map_eq_some_iff.mp hc
      have hagree := ha.thread hd
        (advance_brings hr (ha.held.tagged.thread p t) (ha.held.rest_nodup hd p)) hheld
      simpa [Cluster.runs, LockAct.serves] using hagree
    | serve p t txid line =>
      obtain ⟨n, hn, rfl⟩ := Option.map_eq_some_iff.mp hc
      obtain ⟨r, hr, hagree⟩ := ha.serve hd hn hheld
      simpa [Cluster.runs, LockAct.serves, hr] using hagree
    | deliver q p => exact ha.deliver hd hok.1 hc

theorem length_runs (c : Cluster ν Unit) (a : LockAct ν Unit) (n : ν) :
    (c.runs a n).length ≤ 1 := by
  cases a with
  | serve p t txid line =>
    show (if p = n then (command line).write.toList else []).length ≤ 1
    split_ifs
    · cases (command line).write <;> simp
    · simp
  | deliver q p =>
    show (if p = n then (((c.chan q p).head?.bind _).toList) else []).length ≤ 1
    split_ifs
    · cases (c.chan q p).head?.bind _ <;> simp
    · simp
  | lock p t => simp [Cluster.runs]
  | advance p t => simp [Cluster.runs]

theorem lendless_step (ha : Agree d x) (hl : ∀ n, Lendless (x.history n)) {a : ServiceAct ν}
    (hok : ReplicaOk d x a) (h : x.step d a = some x') (n : ν) : Lendless (x'.history n) := by
  have hown : ∀ {p : ν} {r : Req}, r.writes = none → x.own p r = some x' →
      Lendless (x'.history n) := by
    intro p r hr h
    obtain ⟨store, -, rfl⟩ := Option.map_eq_some_iff.mp h
    show Lendless (Function.update x.history p _ n)
    rw [Function.update_apply]
    split_ifs with hn
    · subst hn
      refine (hl n).snoc (ha.replays n) ?_
      cases r with
      | put key value => cases hr
      | _ => exact id
    · exact hl n
  cases a with
  | get p key => exact hown rfl h
  | flush p => exact hown rfl h
  | lock a =>
    obtain ⟨c, -, rfl⟩ := Option.map_eq_some_iff.mp h
    show Lendless (x.history n ++ x.cluster.runs a n)
    have hlen := length_runs x.cluster a n
    cases hruns : x.cluster.runs a n with
    | nil =>
      rw [List.append_nil]
      exact hl n
    | cons r rs =>
      rw [hruns, List.length_cons] at hlen
      obtain rfl := List.length_eq_zero_iff.mp (by omega : rs.length = 0)
      exact (hl n).snoc (ha.replays n) (hok.2.2 n r (by rw [hruns]; simp))

end agree

/-! ## three nodes -/

/-- Node `q` gets the lock, puts `a` and releases the lock; `p` has waited and inserts `b`; node `r`
serves a GET and flushes when both writes have come, and then the second one comes to `q`. -/
def replicaRun {ν : Type} (p q r : ν) : List (ServiceAct ν) :=
  [[.lock q ()], List.replicate 6 (.advance q ()),
    [.deliver q p, .deliver q r, .deliver p q, .deliver r q, .advance q (), .advance q ()],
    [.lock p ()], List.replicate 6 (.advance p ()),
    [.deliver p q, .deliver p r, .deliver q p, .deliver r p, .advance p ()],
    [.serve q () 7 "PUT a 1".toList], List.replicate 6 (.advance q ()),
    [.deliver q p, .deliver q p, .deliver q r, .advance p (), .serve p () 8 "INSERT b 2".toList],
    List.replicate 3 (.advance p ()), [.advance q (), .deliver q r, .deliver p r]].flatten.map
      .lock ++ [.get r "a".toList, .flush r, .lock (.deliver p q)]

instance {ν : Type} [DecidableEq ν] [Fintype ν] (d : Deployment ν) (c : Cluster ν Unit) (n : ν) :
    Decidable (AllCome d c n) :=
  inferInstanceAs (Decidable (∀ p, underWay d c p n = []))

end LsmKv
