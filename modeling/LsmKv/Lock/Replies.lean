import LsmKv.Lock.Exclusion
import LsmKv.Lock.Trace

/-!
# Requests and their replies

The wait loop counts replies and compares them with `repliesQuorum`, whatever the number of peers.
A deferred reply is one flag for each peer.

* `Consented`            a thread leaves the wait loop with the reply of every peer to its request;
* `leaves_consented_iff`   exactly then as many replies have come as its node has peers, which is so
                         of every node with up to `repliesQuorum` peers;
* `early_leave`          four nodes, and a thread that leaves with two replies of three;
* `handle_balance`, `reply_balance`   what a message, and a step, does to the requests handled, the
                         replies and the flags;
* `replies_account`      with two peers a node, every request handled is answered once, or deferred
                         with the one flag.
-/

set_option linter.unusedSectionVars false

namespace LsmKv

open Rounds Run

variable {ν τ : Type} [DecidableEq ν] [DecidableEq τ]

namespace Traced

/-- a condition on the cluster alone -/
theorem guarded_cluster (d : Deployment ν) (ok : Cluster ν τ → LockAct ν τ → Prop)
    (x : Traced ν τ) (as : List (LockAct ν τ)) :
    Guarded (step d) (fun x a => ok x.cluster a) x as ↔
      Guarded (Cluster.step d) ok x.cluster as := by
  induction as generalizing x with
  | nil => exact Iff.rfl
  | cons a as ih =>
    refine and_congr_right fun _ => ⟨fun h c hc => ?_, fun h y hy => ?_⟩
    · obtain ⟨y, hy, rfl⟩ : ∃ y, step d x a = some y ∧ y.cluster = c := by
        unfold step
        rw [hc]
        exact ⟨_, rfl, rfl⟩
      exact (ih y).mp (h y hy)
    · obtain ⟨c, hc, rfl⟩ := Option.map_eq_some_iff.mp hy
      exact (ih _).mpr (h c hc)

end Traced

/-! ## consent -/

section consent
variable {d : Deployment ν} {x y : Traced ν τ}

/-- The replies that `p` has counted: every peer has replied to the request `msg`, and no reply is
one to another request or a second one of a peer. -/
structure Consent (d : Deployment ν) (x : Traced ν τ) (p : ν) (msg : PqueueData) : Prop where
  all : ∀ q ∈ (d.peers p).map Prod.snd, (q, msg.addr) ∈ x.rounds.counted p
  own : ∀ reply ∈ x.rounds.counted p, reply.2 = msg.addr
  once : (x.rounds.counted p).Nodup

/-- a thread that leaves the wait loop does so with consent -/
def Consented (d : Deployment ν) (x : Traced ν τ) : LockAct ν τ → Prop
  | .advance p t => ∀ msg ∈ ((x.cluster.nodes p).threads t).awaiting,
      repliesQuorum ≤ (x.cluster.nodes p).repliesReceived → Consent d x p msg
  | .lock _ _ | .serve _ _ _ _ | .deliver _ _ => True

/-- what holds in the states of a run -/
structure Recorded (d : Deployment ν) (x : Traced ν τ) : Prop where
  tagged : NodeTagged d x.cluster
  follows : Follows d x.cluster x.rounds

theorem recorded_init : Recorded d (Traced.init : Traced ν τ) := ⟨tagged_init, Follows.init⟩

theorem recorded_step (hd : ∀ p, ((d.peers p).map Prod.snd).Nodup) (hk : Recorded d x)
    {a : LockAct ν τ} (hok : LeaveOk d x.cluster a) (h : Traced.step d x a = some y) :
    Recorded d y := by
  obtain ⟨c, hc, rfl⟩ := Option.map_eq_some_iff.mp h
  exact ⟨tagged_step hk.tagged hc, follows_step hd hk.tagged hk.follows hok hc⟩

/-- a thread at the end of its loop over the peers has asked all of them -/
theorem Recorded.asked (hk : Recorded d x) {p : ν} {t : τ} {msg : PqueueData}
    (hp : (x.cluster.nodes p).threads t = .sending msg []) :
    x.rounds.round p = some (msg.addr, (d.peers p).map Prod.snd) := by
  obtain ⟨-, pre, hround, hpre⟩ := hk.follows.call p t msg.addr [] (by rw [hp]; rfl)
  rw [List.append_nil] at hpre
  rw [hround, hpre]

/-- **Consent is a matter of the number of replies.** -/
theorem Recorded.consent_iff (hd : ∀ p, ((d.peers p).map Prod.snd).Nodup) (hk : Recorded d x)
    {p : ν} {t : τ} {msg : PqueueData} (hp : (x.cluster.nodes p).threads t = .sending msg []) :
    Consent d x p msg ↔ (d.peers p).length ≤ (x.cluster.nodes p).repliesReceived := by
  have hround := hk.asked hp
  obtain ⟨rs, hnd, -, hc, -⟩ := (hk.follows.round p).busy _ _ hround
  rw [hk.follows.counted]
  constructor
  · intro h
    have hsub : (d.peers p).map Prod.snd ⊆ rs := by
      intro q hq
      have hm := h.all q hq
      rw [hc] at hm
      obtain ⟨q', hq', he⟩ := List.mem_map.mp hm
      exact (Prod.mk.inj he).1 ▸ hq'
    have hlen := ((hd p).subperm hsub).length_le
    rw [List.length_map] at hlen
    rw [hc, List.length_map]
    exact hlen
  · intro h
    refine ⟨(hk.follows.round p).consent hround (by rw [List.length_map]; exact h), ?_, ?_⟩
    · intro reply hr
      rw [hc] at hr
      obtain ⟨q, -, rfl⟩ := List.mem_map.mp hr
      rfl
    · rw [hc]
      exact hnd.map fun q q' he => (Prod.mk.inj he).1

theorem Recorded.consented_iff (hd : ∀ p, ((d.peers p).map Prod.snd).Nodup) (hk : Recorded d x)
    (a : LockAct ν τ) : Consented d x a ↔ LeaveOk d x.cluster a := by
  cases a with
  | advance p t =>
    constructor
    · intro h hawait hq
      obtain ⟨msg, hm⟩ := Option.isSome_iff_exists.mp hawait
      exact (hk.consent_iff hd (ThreadPhase.eq_of_awaiting hm)).mp (h msg hm hq)
    · intro h msg hm hq
      refine (hk.consent_iff hd (ThreadPhase.eq_of_awaiting hm)).mpr (h ?_ hq)
      rw [Option.mem_def.mp hm]
      rfl
  | _ => exact Iff.rfl

/-- no thread of a node with few peers leaves too early -/
theorem leaveOk_of_le (hq : ∀ p, (d.peers p).length ≤ repliesQuorum) (c : Cluster ν τ)
    (a : LockAct ν τ) : LeaveOk d c a := by
  cases a with
  | advance p t => exact fun _ h => (hq p).trans h
  | _ => trivial

/-- **Threads leave the wait loop with consent** exactly if they do so with as many replies as
their nodes have peers, and so they do where no node has more than `repliesQuorum`. -/
theorem leaves_consented_iff (hd : ∀ p, ((d.peers p).map Prod.snd).Nodup)
    (as : List (LockAct ν τ)) :
    (Guarded (Traced.step d) (Consented d) Traced.init as ↔
      Guarded (Cluster.step d) (LeaveOk d) Cluster.init as) ∧
    ((∀ p, (d.peers p).length ≤ repliesQuorum) →
      Guarded (Traced.step d) (Consented d) Traced.init as) := by
  have hiff : Guarded (Traced.step d) (Consented d) Traced.init as ↔
      Guarded (Traced.step d) (fun x a => LeaveOk d x.cluster a) Traced.init as := by
    constructor
    · apply Guarded.of_inv (fun x a y hk hok hs => ?_) (fun x a hk => (hk.consented_iff hd a).mp)
        recorded_init
      exact recorded_step hd hk ((hk.consented_iff hd a).mp hok) hs
    · exact Guarded.of_inv (fun x a y hk hok hs => recorded_step hd hk hok hs)
        (fun x a hk => (hk.consented_iff hd a).mpr) recorded_init
  refine ⟨hiff.trans (Traced.guarded_cluster d _ _ as), fun hq => hiff.mpr ?_⟩
  exact guarded_of_forall fun a _ x => leaveOk_of_le hq x.cluster a

end consent

/-- with two peers, `waitingRun` has two threads leave the loop -/
theorem leaves_consented_waitingRun :
    (run (Cluster.step threeNodes) Cluster.init waitingRun).isSome ∧
      Guarded (Traced.step threeNodes) (Consented threeNodes) Traced.init waitingRun :=
  ⟨by decide +kernel, (leaves_consented_iff threeNodes_full.nodup waitingRun).2
    fun p => (threeNodes_full.quorum p).le⟩

/-- four nodes, with the ids 0, 1, 2, 3 -/
def fourNodes : Deployment (Fin 4) where
  nodeId p := p
  peers p := (List.finRange 3).map fun i => (i.castLE (by decide), p.succAbove i)

/-- `p` asks `q`, `r` and a third peer; the replies of `q` and `r` come, and `p` goes on -/
def earlyRun (p q r : ν) : List (LockAct ν Unit) :=
  [[.lock p ()], List.replicate 8 (.advance p ()),
    [.deliver p q, .deliver p r, .deliver q p, .deliver r p]].flatten

/-- **A thread leaves without the reply of node 3**, which has not even taken its request. -/
theorem early_leave : (∀ p, ((fourNodes.peers p).map Prod.snd).Nodup) ∧
    (run (Traced.step fourNodes) Traced.init (earlyRun 0 1 2 ++ [.advance 0 ()])).isSome ∧
      ¬ Guarded (Traced.step fourNodes) (Consented fourNodes) Traced.init
        (earlyRun 0 1 2 ++ [.advance 0 ()]) := by
  refine ⟨by decide, by decide +kernel, fun hg => ?_⟩
  have h : (run (Traced.step fourNodes) Traced.init (earlyRun 0 1 2)).map (fun x =>
      (((x.cluster.nodes 0).threads ()).awaiting.isSome, (x.cluster.nodes 0).repliesReceived,
        (x.rounds.counted 0).map Prod.fst)) = some (true, 2, [1, 2]) := by decide +kernel
  obtain ⟨x, hx, he⟩ := Option.map_eq_some_iff.mp h
  obtain ⟨hawait, he⟩ := Prod.mk.inj he
  obtain ⟨hq, hcounted⟩ := Prod.mk.inj he
  obtain ⟨msg, hm⟩ := Option.isSome_iff_exists.mp hawait
  have hok := ((Run.guarded_snoc _ _ _ _ _).mp hg).2 x hx
  have hthird : (3, msg.addr) ∈ x.rounds.counted 0 := (hok msg hm hq.ge).all 3 (by decide)
  have hfst : (3 : Fin 4) ∈ (x.rounds.counted 0).map Prod.fst := List.mem_map_of_mem hthird
  rw [hcounted] at hfst
  exact absurd hfst (by decide)

/-! ## every request is answered once -/

section account
variable {d : Deployment ν} {x : Traced ν τ}

theorem advance_pending {n : LockNode ν τ} {id : ℕ} {peers : List (Fin maxPeers × ν)} {t : τ}
    {r : LockNode ν τ × List (ν × PeerMessage)} (hn : (n.threads t).OfNode id)
    (h : n.advance id peers t = some r) :
    r.1.pending = n.pending ∧ ∀ y ∈ r.2, y.2.messageType ≠ .replyLock := by
  cases LockNode.advance_cases hn h with
  | quiet h hs => exact ⟨h.pending, fun y hy => (h.out y hy).2⟩
  | start msg hp hm hr =>
    subst hr
    exact ⟨rfl, by simp⟩
  | ask msg i q rest hp hr =>
    subst hr
    rw [hp] at hn
    refine ⟨rfl, fun y hy => ?_⟩
    rw [List.mem_singleton.mp hy, hn.1]
    decide
  | leave msg hp hq hr =>
    subst hr
    exact ⟨rfl, by simp⟩

/-- **A message that a node handles**: a request is answered or sets the flag, and a reply to a
deferred one clears it. -/
theorem handle_balance {n : LockNode ν τ} {m : PeerMessage} {q : ν} {id id' : ℕ}
    {r : LockNode ν τ × List (ν × PeerMessage)}
    (hclear : m.messageType = .requestLock → n.pending q = false)
    (h : n.handlePeerMessage id m q id' = some r) (q' : ν) :
    countTo .replyLock r.2 q' + (r.1.pending q').toNat =
      (if q' = q ∧ m.messageType = .requestLock then 1 else 0) + (n.pending q').toNat := by
  cases hty : m.messageType with
  | requestLock =>
    obtain ⟨-, -, -, ⟨hpend, reply, hreply, hout⟩ | ⟨hpend, hout⟩⟩ :=
      LockNode.handle_request hty h
    · rw [hpend, hout, countTo_single, hreply]
      simp
    · rw [hpend, hout, Function.update_apply]
      by_cases hq : q' = q
      · rw [hq, if_pos rfl, hclear hty]
        simp [countTo]
      · rw [if_neg hq]
        simp [countTo, hq]
  | replyLock =>
    obtain ⟨-, -, -, hpend, ⟨hset, reply, hreply, hout⟩ | ⟨hunset, hout⟩⟩ :=
      LockNode.handle_reply hty h
    · rw [hpend, hout, countTo_single, hreply, Function.update_apply]
      by_cases hq : q' = q
      · rw [hq, if_pos rfl, hset]
        simp
      · rw [if_neg hq]
        simp [hq]
    · rw [hpend, hout, ← hunset, Function.update_eq_self]
      simp [countTo]
  | releaseLock =>
    have hquiet := LockNode.handle_other (Or.inl hty) h
    rw [hquiet.pending, countTo_eq_zero fun y hy => (hquiet.out y hy).2]
    simp
  | serverWrite =>
    have hquiet := LockNode.handle_other (Or.inr hty) h
    rw [hquiet.pending, countTo_eq_zero fun y hy => (hquiet.out y hy).2]
    simp

theorem handles_deliver {c : Cluster ν τ} {p q : ν} {m : PeerMessage} {ms : List PeerMessage}
    (hm : c.chan q p = m :: ms) (p' q' : ν) : c.handles (.deliver q p : LockAct ν τ) p' q' =
      if p' = p ∧ q' = q ∧ m.messageType = .requestLock then 1 else 0 := by
  by_cases he : p' = p ∧ q' = q
  · obtain ⟨rfl, rfl⟩ := he
    simp only [Cluster.handles, hm, List.head?_cons, Option.map_some, Option.some.injEq]
  · rw [if_neg fun h => he ⟨h.1, h.2.1⟩]
    exact if_neg fun h => he ⟨h.1, h.2.1⟩

/-- no flag stands for a peer whose request is on its way -/
theorem Follows.pending_eq_false {c : Cluster ν τ} {s : Rounds.State ν ℕ} (hf : Follows d c s)
    {p q : ν} (hpos : 0 < c.onWay .requestLock q p) : (c.nodes p).pending q = false := by
  rw [hf.requests] at hpos
  obtain ⟨k, ks, hk⟩ := List.exists_cons_of_ne_nil (List.ne_nil_of_length_pos hpos)
  rw [hf.pending, ((hf.round q).of_asked hk).2.1]
  rfl

/-- **The same of every step.** -/
theorem reply_balance {c c' : Cluster ν τ} {s : Rounds.State ν ℕ} (ht : NodeTagged d c)
    (hf : Follows d c s) {a : LockAct ν τ} (h : c.step d a = some c') (p q : ν) :
    c.replies d a p q + ((c'.nodes p).pending q).toNat =
      c.handles a p q + ((c.nodes p).pending q).toNat := by
  cases a with
  | lock p' t =>
    obtain ⟨n, hn, rfl⟩ := Option.map_eq_some_iff.mp h
    have hp : ((c.setNode p' n).nodes p).pending = (c.nodes p).pending :=
      Cluster.field_eq LockNode.pending rfl (LockNode.distributedLock_quiet hn).pending p
    rw [hp]
    simp [Cluster.replies, Cluster.handles, Cluster.sent, countTo]
  | serve p' t txid line =>
    obtain ⟨n, hn, rfl⟩ := Option.map_eq_some_iff.mp h
    have hp : ((c.setNode p' n).nodes p).pending = (c.nodes p).pending :=
      Cluster.field_eq LockNode.pending rfl (LockNode.serve_quiet hn).pending p
    rw [hp]
    simp [Cluster.replies, Cluster.handles, Cluster.sent, countTo]
  | advance p' t =>
    obtain ⟨r, hr, rfl⟩ := Option.map_eq_some_iff.mp h
    obtain ⟨hpend, hout⟩ := advance_pending (ht.thread p' t) hr
    rw [Cluster.field_eq LockNode.pending (Cluster.put_nodes c p' r) hpend]
    unfold Cluster.replies
    rw [sent_advance hr, countTo_eq_zero hout, ite_self]
    rfl
  | deliver q' p' =>
    obtain ⟨m, ms, r, hm, hr, rfl⟩ := Cluster.step_deliver h
    rw [handles_deliver hm, Cluster.replies, sent_deliver hm hr, Cluster.put_nodes,
      Function.update_apply]
    by_cases hp : p = p'
    · subst hp
      rw [if_pos rfl, if_pos (show p = (LockAct.deliver q' p : LockAct ν τ).node from rfl),
        handle_balance (fun hty => hf.pending_eq_false (Cluster.onWay_pos hm hty)) hr q]
      simp
    · rw [if_neg hp, if_neg (show ¬ p = (LockAct.deliver q' p' : LockAct ν τ).node from hp),
        if_neg fun h => hp h.1]
      rfl

/-- the replies and the flags of the requests handled -/
def Accounted (x : Traced ν τ) : Prop :=
  ∀ p q, x.replied p q + ((x.cluster.nodes p).pending q).toNat = x.received p q

theorem accounted_init : Accounted (Traced.init : Traced ν τ) := fun _ _ => rfl

theorem accounted_step {y : Traced ν τ} (hk : Recorded d x) (ha : Accounted x) {a : LockAct ν τ}
    (h : Traced.step d x a = some y) : Accounted y := by
  obtain ⟨c, hc, rfl⟩ := Option.map_eq_some_iff.mp h
  intro p q
  have hb := reply_balance hk.tagged hk.follows hc p q
  have hp := ha p q
  simp only
  omega

/-- **Every request that a node has handled** is answered, or it is the one that the flag stands
for, and with the flag set no other request of that peer is on its way. -/
theorem replies_account (hd : d.Full) {as : List (LockAct ν τ)}
    (hr : run (Traced.step d) Traced.init as = some x) (p q : ν) :
    x.replied p q + (if (x.cluster.nodes p).pending q = true then 1 else 0) = x.received p q ∧
      ((x.cluster.nodes p).pending q = true →
        ∀ m ∈ x.cluster.chan q p, m.messageType ≠ .requestLock) := by
  have hstep : ∀ (x : Traced ν τ) a y, (Recorded d x ∧ Accounted x) → LeaveOk d x.cluster a →
      Traced.step d x a = some y → Recorded d y ∧ Accounted y :=
    fun x a y h hok hs => ⟨recorded_step hd.nodup h.1 hok hs, accounted_step h.1 h.2 hs⟩
  have hok : Guarded (Traced.step d) (fun x a => LeaveOk d x.cluster a) Traced.init as :=
    guarded_of_forall fun a _ x => leaveOk_of_le (fun p => (hd.quorum p).le) x.cluster a
  obtain ⟨hk, ha⟩ := inv_of_guarded hstep ⟨recorded_init, accounted_init⟩ hok hr
  refine ⟨?_, fun hset m hm hty => ?_⟩
  · rw [← ha p q]
    cases (x.cluster.nodes p).pending q with
    | false => rfl
    | true => rfl
  · have hpos : 0 < x.cluster.onWay .requestLock q p :=
      List.countP_pos_iff.mpr ⟨m, hm, decide_eq_true hty⟩
    rw [hk.follows.pending_eq_false hpos] at hset
    cases hset

end account

/-- Both threads of `q` stamp a request, and the second one's goes out; `p` has sent an earlier
one. -/
def deferringRun (p q : ν) : List (LockAct ν Bool) :=
  [[.lock q false, .lock q true, .lock p false], List.replicate 6 (.advance p false),
    List.replicate 6 (.advance q true), [.deliver q p]].flatten

theorem replies_account_deferringRun : ∃ x,
    run (Traced.step threeNodes) Traced.init (deferringRun 0 1) = some x ∧
      x.received 0 1 = 1 ∧ (x.cluster.nodes 0).pending 1 = true ∧
      (x.replied 0 1 + (if (x.cluster.nodes 0).pending 1 = true then 1 else 0) = x.received 0 1 ∧
        ((x.cluster.nodes 0).pending 1 = true →
          ∀ m ∈ x.cluster.chan 1 0, m.messageType ≠ .requestLock)) := by
  have h : (run (Traced.step threeNodes) Traced.init (deferringRun 0 1)).map (fun x =>
      (x.received 0 1, (x.cluster.nodes 0).pending 1)) = some (1, true) := by decide +kernel
  obtain ⟨x, hx, he⟩ := Option.map_eq_some_iff.mp h
  obtain ⟨hrec, hset⟩ := Prod.mk.inj he
  exact ⟨x, hx, hrec, hset, replies_account threeNodes_full hx 0 1⟩

end LsmKv
