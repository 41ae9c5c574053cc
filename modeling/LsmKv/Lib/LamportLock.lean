import Mathlib.Algebra.BigOperators.Group.Finset.Basic
import Mathlib.Data.Fintype.BigOperators
import Mathlib.Data.Prod.Lex
import Mathlib.Tactic.Simps.Basic
import LsmKv.Lib.SortedQueue

/-!
# A distributed lock with one queue at each node

Nodes with several threads, and a channel from each node to each other one that keeps its order.
A request is stamped, put into the queue of its own node and sent to the peers by the thread that
holds the mutex of the node; each of them queues it and answers.  When all have answered, the
thread waits until its request is the first in its own queue.  A release takes the first request
from a queue, whosever it is.

* `Net`, `Net.rank`      the nodes' numbers and peers; the order of the requests;
* `Phase`, `Phase.live`  where a thread is, and the request it has made;
* `State`, `Step`        one step; `answer` and `enter` have a guard against requests that are
                         stamped but not yet known, and `ok` may restrict the deliveries of
                         releases and writes;
* `Step.live`, `Step.chan`, ..   what one step does to a part of the state.
-/

set_option linter.unusedSectionVars false

namespace LamportLock

/-- a timestamp, and the number of the node -/
abbrev Rank := ℕ ×ₗ ℕ

/-- the timestamp of a rank -/
def Rank.stamp (x : Rank) : ℕ := (ofLex x).1

/-- nodes, their numbers, and the peers each one sends to -/
structure Net (ν : Type*) where
  number : ν → ℕ
  peers : ν → List ν

namespace Net
variable {ν : Type*} (net : Net ν)

def rank (p : ν) (ts : ℕ) : Rank := toLex (ts, net.number p)

/-- fully connected, under different numbers -/
structure Full : Prop where
  number_inj : Function.Injective net.number
  mem_peers : ∀ p q, q ∈ net.peers p ↔ q ≠ p
  nodup : ∀ p, (net.peers p).Nodup

@[simp] theorem stamp_rank (p : ν) (ts : ℕ) : (net.rank p ts).stamp = ts := rfl

theorem rank_lt_of_stamp {p q : ν} {ts ts' : ℕ} (h : ts < ts') : net.rank p ts < net.rank q ts' :=
  Prod.Lex.toLex_lt_toLex.mpr (Or.inl h)

theorem lt_rank_of_stamp {x : Rank} {p : ν} {ts : ℕ} (h : x.stamp < ts) : x < net.rank p ts :=
  Prod.Lex.lt_iff.mpr (Or.inl h)

theorem rank_lt_rank {p : ν} {ts ts' : ℕ} : net.rank p ts < net.rank p ts' ↔ ts < ts' := by
  rw [rank, rank, Prod.Lex.toLex_lt_toLex]
  simp

variable {net}

theorem Full.rank_inj (hf : net.Full) {p q : ν} {ts ts' : ℕ} :
    net.rank p ts = net.rank q ts' ↔ p = q ∧ ts = ts' := by
  constructor
  · intro h
    have h' := Prod.mk.inj (toLex.injective h)
    exact ⟨hf.number_inj h'.2, h'.1⟩
  · rintro ⟨rfl, rfl⟩
    rfl

end Net

inductive Msg where
  | request (ts : ℕ)
  | reply
  | release (ts : ℕ)
  | write (ts : ℕ)
  deriving DecidableEq

namespace Msg

@[simp, grind] def isRequest : Msg → Bool
  | .request _ => true
  | .reply | .release _ | .write _ => false

@[simp, grind] def isRelease : Msg → Bool
  | .release _ => true
  | .request _ | .reply | .write _ => false

end Msg

/-- Where a thread is; `ts` is the timestamp of its request, `rest` the peers not yet sent to. -/
inductive Phase (ν : Type*) where
  | idle
  | stamped (ts : ℕ)
  | queued (ts : ℕ)
  | sending (ts : ℕ) (rest : List ν)
  | heading (ts : ℕ)
  | critical (ts : ℕ)
  | writing (ts w : ℕ) (rest : List ν)
  | dequeued (ts : ℕ)
  | releasing (ts r : ℕ) (rest : List ν)
  deriving DecidableEq

namespace Phase
variable {ν : Type*}

/-- the request, from its stamp to the removal from the own queue -/
@[simp, grind] def live : Phase ν → Option ℕ
  | .stamped ts | .queued ts | .sending ts _ | .heading ts | .critical ts | .writing ts _ _ =>
    some ts
  | .idle | .dequeued _ | .releasing _ _ _ => none

/-- the request is in the queue of its own node -/
@[simp, grind] def entered : Phase ν → Bool
  | .queued _ | .sending _ _ | .heading _ | .critical _ | .writing _ _ _ => true
  | .idle | .stamped _ | .dequeued _ | .releasing _ _ _ => false

/-- the peers that the request has not been sent to -/
@[simp, grind] def unsent (peers : List ν) : Phase ν → List ν
  | .stamped _ | .queued _ => peers
  | .sending _ rest => rest
  | .idle | .heading _ | .critical _ | .writing _ _ _ | .dequeued _ | .releasing _ _ _ => []

/-- all answers have come -/
@[simp, grind] def ahead : Phase ν → Bool
  | .heading _ | .critical _ | .writing _ _ _ => true
  | .idle | .stamped _ | .queued _ | .sending _ _ | .dequeued _ | .releasing _ _ _ => false

/-- in the critical section -/
@[simp, grind] def inside : Phase ν → Bool
  | .critical _ | .writing _ _ _ => true
  | .idle | .stamped _ | .queued _ | .sending _ _ | .heading _ | .dequeued _
  | .releasing _ _ _ => false

/-- the peers that a release has still to be sent to -/
@[simp, grind] def owed (peers : List ν) : Phase ν → List ν
  | .dequeued _ => peers
  | .releasing _ _ rest => rest
  | .idle | .stamped _ | .queued _ | .sending _ _ | .heading _ | .critical _
  | .writing _ _ _ => []

/-- the peers that the message at hand has still to be sent to -/
@[simp, grind] def rest : Phase ν → List ν
  | .sending _ rest | .writing _ _ rest | .releasing _ _ rest => rest
  | .idle | .stamped _ | .queued _ | .heading _ | .critical _ | .dequeued _ => []

theorem live_of_ahead {ph : Phase ν} (h : ph.ahead) : ∃ ts, ph.live = some ts := by
  cases ph <;> simp_all

theorem ahead_of_inside {ph : Phase ν} (h : ph.inside) : ph.ahead := by
  cases ph <;> simp_all

theorem entered_of_ahead {ph : Phase ν} (h : ph.ahead) : ph.entered := by
  cases ph <;> simp_all

theorem unsent_of_ahead {ph : Phase ν} {l : List ν} (h : ph.ahead) : ph.unsent l = [] := by
  cases ph <;> simp_all

theorem stamped_of_live {ph : Phase ν} {ts : ℕ} (h : ph.live = some ts)
    (he : ph.entered = false) : ph = .stamped ts := by
  cases ph <;> simp_all

end Phase

@[ext] structure State (ν τ : Type*) where
  clock : ν → ℕ
  queue : ν → List Rank
  mutex : ν → Option τ
  replies : ν → ℕ
  /-- `pending n p`: node `n` has not answered the request of `p` -/
  pending : ν → ν → Bool
  phase : ν → τ → Phase ν
  chan : ν → ν → List Msg

namespace State
variable {ν τ : Type*} [DecidableEq ν] [DecidableEq τ]

def init : State ν τ where
  clock _ := 0
  queue _ := []
  mutex _ := none
  replies _ := 0
  pending _ _ := false
  phase _ _ := .idle
  chan _ _ := []

@[simps] def setClock (s : State ν τ) (p : ν) (c : ℕ) : State ν τ :=
  { s with clock := Function.update s.clock p c }

@[simps] def setQueue (s : State ν τ) (p : ν) (l : List Rank) : State ν τ :=
  { s with queue := Function.update s.queue p l }

@[simps] def setMutex (s : State ν τ) (p : ν) (m : Option τ) : State ν τ :=
  { s with mutex := Function.update s.mutex p m }

@[simps] def setReplies (s : State ν τ) (p : ν) (r : ℕ) : State ν τ :=
  { s with replies := Function.update s.replies p r }

@[simps] def setPending (s : State ν τ) (n p : ν) (b : Bool) : State ν τ :=
  { s with pending := fun n' p' => if n' = n ∧ p' = p then b else s.pending n' p' }

@[simps] def setPhase (s : State ν τ) (p : ν) (t : τ) (ph : Phase ν) : State ν τ :=
  { s with phase := fun p' t' => if p' = p ∧ t' = t then ph else s.phase p' t' }

@[simps] def push (s : State ν τ) (p q : ν) (m : Msg) : State ν τ :=
  { s with chan := fun p' q' => if p' = p ∧ q' = q then s.chan p q ++ [m] else s.chan p' q' }

@[simps] def pop (s : State ν τ) (p q : ν) : State ν τ :=
  { s with chan := fun p' q' => if p' = p ∧ q' = q then (s.chan p q).tail else s.chan p' q' }

theorem setClock_self {s : State ν τ} {p : ν} {c : ℕ} (h : s.clock p = c) : s.setClock p c = s := by
  rw [setClock, ← h, Function.update_eq_self]

theorem setQueue_self {s : State ν τ} {p : ν} {l : List Rank} (h : s.queue p = l) :
    s.setQueue p l = s := by
  rw [setQueue, ← h, Function.update_eq_self]

theorem setMutex_self {s : State ν τ} {p : ν} {m : Option τ} (h : s.mutex p = m) :
    s.setMutex p m = s := by
  rw [setMutex, ← h, Function.update_eq_self]

theorem setReplies_self {s : State ν τ} {p : ν} {r : ℕ} (h : s.replies p = r) :
    s.setReplies p r = s := by
  rw [setReplies, ← h, Function.update_eq_self]

theorem setPending_self {s : State ν τ} {n p : ν} {b : Bool} (h : s.pending n p = b) :
    s.setPending n p b = s := by
  refine State.ext rfl rfl rfl rfl ?_ rfl rfl
  funext n' p'
  rw [setPending_pending]
  split_ifs with he
  · rw [he.1, he.2, h]
  · rfl

theorem setPending_setPending (s : State ν τ) (n p : ν) (b b' : Bool) :
    (s.setPending n p b).setPending n p b' = s.setPending n p b' := by
  refine State.ext rfl rfl rfl rfl ?_ rfl rfl
  funext n' p'
  simp only [setPending_pending]
  split_ifs <;> rfl

theorem setPhase_self {s : State ν τ} {p : ν} {t : τ} {ph : Phase ν} (h : s.phase p t = ph) :
    s.setPhase p t ph = s := by
  refine State.ext rfl rfl rfl rfl rfl ?_ rfl
  funext p' t'
  rw [setPhase_phase]
  split_ifs with he
  · rw [he.1, he.2, h]
  · rfl

theorem setPhase_setPhase (s : State ν τ) (p : ν) (t : τ) (ph ph' : Phase ν) :
    (s.setPhase p t ph).setPhase p t ph' = s.setPhase p t ph' := by
  refine State.ext rfl rfl rfl rfl rfl ?_ rfl
  funext p' t'
  simp only [setPhase_phase]
  split_ifs <;> rfl

attribute [grind =] setClock_clock setClock_queue setClock_mutex setClock_replies setClock_pending
  setClock_phase setClock_chan
attribute [grind =] setQueue_clock setQueue_queue setQueue_mutex setQueue_replies setQueue_pending
  setQueue_phase setQueue_chan
attribute [grind =] setMutex_clock setMutex_queue setMutex_mutex setMutex_replies setMutex_pending
  setMutex_phase setMutex_chan
attribute [grind =] setReplies_clock setReplies_queue setReplies_mutex setReplies_replies
  setReplies_pending setReplies_phase setReplies_chan
attribute [grind =] setPending_clock setPending_queue setPending_mutex setPending_replies
  setPending_pending setPending_phase setPending_chan
attribute [grind =] setPhase_clock setPhase_queue setPhase_mutex setPhase_replies setPhase_pending
  setPhase_phase setPhase_chan
attribute [grind =] push_clock push_queue push_mutex push_replies push_pending push_phase
  push_chan
attribute [grind =] pop_clock pop_queue pop_mutex pop_replies pop_pending pop_phase pop_chan

end State

open State SortedQueue

variable {ν τ : Type*} [DecidableEq ν] [DecidableEq τ]

/-- one step of the lock -/
inductive Step (net : Net ν) (ok : State ν τ → ν → ν → ℕ → Prop) : State ν τ → State ν τ → Prop
  | tick {s p c} (hc : s.clock p ≤ c) : Step net ok s (s.setClock p c)
  | stamp {s p t ts} (hp : s.phase p t = .idle) (hc : s.clock p < ts) :
      Step net ok s ((s.setClock p ts).setPhase p t (.stamped ts))
  | enqueue {s p t ts} (hp : s.phase p t = .stamped ts) :
      Step net ok s
        ((s.setQueue p (insert id (net.rank p ts) (s.queue p))).setPhase p t (.queued ts))
  | drop {s p t ts} (hp : s.phase p t = .stamped ts) : Step net ok s (s.setPhase p t .idle)
  | acquire {s p t ts} (hp : s.phase p t = .queued ts) (hm : s.mutex p = none) :
      Step net ok s ((s.setMutex p (some t)).setPhase p t (.sending ts (net.peers p)))
  | send {s p t ts q rest} (hp : s.phase p t = .sending ts (q :: rest)) :
      Step net ok s ((s.push p q (.request ts)).setPhase p t (.sending ts rest))
  | proceed {s p t ts} (hp : s.phase p t = .sending ts [])
      (hr : (net.peers p).length ≤ s.replies p) :
      Step net ok s (((s.setMutex p none).setReplies p 0).setPhase p t (.heading ts))
  | enter {s p t ts} (hp : s.phase p t = .heading ts)
      (hh : (s.queue p).head? = some (net.rank p ts))
      (hg : ∀ t' ts', s.phase p t' = .stamped ts' → ¬ ts' < ts) :
      Step net ok s (s.setPhase p t (.critical ts))
  | startWrite {s p t ts w} (hp : s.phase p t = .critical ts) (hc : s.clock p ≤ w) :
      Step net ok s ((s.setClock p w).setPhase p t (.writing ts w (net.peers p)))
  | sendWrite {s p t ts w q rest} (hp : s.phase p t = .writing ts w (q :: rest)) :
      Step net ok s ((s.push p q (.write w)).setPhase p t (.writing ts w rest))
  | endWrite {s p t ts w} (hp : s.phase p t = .writing ts w []) :
      Step net ok s (s.setPhase p t (.critical ts))
  | unlock {s p t ts} (hp : s.phase p t = .critical ts) :
      Step net ok s ((s.setQueue p (s.queue p).tail).setPhase p t (.dequeued ts))
  | stampRelease {s p t ts r} (hp : s.phase p t = .dequeued ts) (hc : s.clock p ≤ r) :
      Step net ok s ((s.setClock p r).setPhase p t (.releasing ts r (net.peers p)))
  | sendRelease {s p t ts r q rest} (hp : s.phase p t = .releasing ts r (q :: rest)) :
      Step net ok s ((s.push p q (.release r)).setPhase p t (.releasing ts r rest))
  | endRelease {s p t ts r} (hp : s.phase p t = .releasing ts r []) :
      Step net ok s (s.setPhase p t .idle)
  | deliverRequest {s n p ts ms} (hm : s.chan p n = .request ts :: ms) (hc : ts ≤ s.clock n) :
      Step net ok s (((s.pop p n).setQueue n (insert id (net.rank p ts) (s.queue n))).setPending
        n p true)
  | answer {s n p} (hp : s.pending n p = true)
      (hg : ∀ t ts rest, s.phase p t = .sending ts rest → ∀ t' ts',
        (s.phase n t').live = some ts' → p ∈ (s.phase n t').unsent (net.peers n) →
          ¬ net.rank n ts' < net.rank p ts) :
      Step net ok s ((s.setPending n p false).push n p .reply)
  | deliverReply {s n p ms} (hm : s.chan p n = .reply :: ms) :
      Step net ok s ((s.pop p n).setReplies n (s.replies n + 1))
  | deliverRelease {s n p r ms} (hm : s.chan p n = .release r :: ms) (hc : r ≤ s.clock n)
      (hok : ok s n p r) : Step net ok s ((s.pop p n).setQueue n (s.queue n).tail)
  | deliverWrite {s n p w ms} (hm : s.chan p n = .write w :: ms) (hc : w ≤ s.clock n)
      (hok : ok s n p w) : Step net ok s (s.pop p n)

/-! ## what one step can do -/

section steps
variable {net : Net ν} {ok : State ν τ → ν → ν → ℕ → Prop} {s s' : State ν τ}

theorem Step.clock_le (st : Step net ok s s') (p : ν) : s.clock p ≤ s'.clock p := by
  cases st <;> grind

/-- the thread's request is new, or it has been there -/
theorem Step.live {p : ν} {t : τ} {ts : ℕ} (st : Step net ok s s')
    (h : (s'.phase p t).live = some ts) :
    (s.phase p t).live = some ts ∨
      s.phase p t = .idle ∧ s'.phase p t = .stamped ts ∧ s.clock p < ts ∧ s'.clock p = ts := by
  cases st <;> grind

/-- a request leaves the lock by a failed insertion, or with its critical section -/
theorem Step.leave {p : ν} {t : τ} {ts : ℕ} (st : Step net ok s s')
    (h : (s.phase p t).live = some ts) :
    (s'.phase p t).live = some ts ∨ s.phase p t = .stamped ts ∨
      s.phase p t = .critical ts ∧ s'.phase p t = .dequeued ts := by
  cases st <;> grind

/-- a channel is as it was, or has lost its first message, or has a new one -/
theorem Step.chan (st : Step net ok s s') (p q : ν) :
    s'.chan p q = s.chan p q ∨ (∃ m, s.chan p q = m :: s'.chan p q) ∨
      ∃ m, s'.chan p q = s.chan p q ++ [m] ∧ ∀ ts, m = .request ts → ∃ t rest,
        s.phase p t = .sending ts (q :: rest) ∧ s'.phase p t = .sending ts rest := by
  cases st <;> grind

/-- the messages behind the last reply were there before, or one has just been sent -/
theorem Step.window (st : Step net ok s s') {p q : ν} {ts : ℕ}
    (h : .request ts ∈ (s'.chan q p).rtakeWhile (· ≠ .reply)) :
    .request ts ∈ (s.chan q p).rtakeWhile (· ≠ .reply) ∨
      ∃ t rest, s.phase q t = .sending ts (p :: rest) := by
  rcases st.chan q p with he | ⟨m, he⟩ | ⟨m, he, hs⟩
  · exact Or.inl (he ▸ h)
  · rw [he]
    exact Or.inl (rtakeWhile_tail h)
  · rw [he] at h
    by_cases hm : m = .reply
    · rw [List.rtakeWhile_concat_neg _ _ _ (by simpa using hm)] at h
      cases h
    · rw [List.rtakeWhile_concat_pos _ _ _ (by simpa using hm), List.mem_append,
        List.mem_singleton] at h
      refine h.imp_right fun h => ?_
      obtain ⟨t, rest, hp, -⟩ := hs ts h.symm
      exact ⟨t, rest, hp⟩

end steps

end LamportLock
