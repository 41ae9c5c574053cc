import LsmKv.Lib.Run
import LsmKv.Lock.Abstract

/-!
# Mutual exclusion of the distributed lock

A request is stamped before it is queued and sent, and in between the node answers later requests
of its peers.  Such a reply lets a peer enter its critical section; the earlier request then comes
before the peer's in every queue.

* `AtMostOneHolder`      at most one thread is between its two calls;
* `lock_exclusive`       it holds after a run whose steps meet `LockOk`;
* `racing_two_holders`   two holders, when a reply overtakes an earlier request.
-/

namespace LsmKv

open LamportLock Run

variable {ν τ : Type} [DecidableEq ν] [DecidableEq τ]

section exclusion
variable [Fintype ν] [Fintype τ] {d : Deployment ν} {c : Cluster ν τ}

theorem inv_run (hd : d.Full) {as : List (LockAct ν τ)}
    (hok : Guarded (Cluster.step d) (LockOk d) Cluster.init as)
    (hr : run (Cluster.step d) Cluster.init as = some c) : NodeTagged d c ∧ Inv d.net c.abs := by
  have hstep : ∀ (c : Cluster ν τ) a c', NodeTagged d c ∧ Inv d.net c.abs → LockOk d c a →
      c.step d a = some c' → NodeTagged d c' ∧ Inv d.net c'.abs := by
    intro c a c' hi hc h
    have hs : Relation.ReflTransGen (Step d.net fun _ _ _ _ => True) c.abs c'.abs :=
      refine_step hd hi.2 hi.1 h hc fun _ _ _ _ _ _ _ _ => trivial
    exact ⟨tagged_step hi.1 h, inv_steps hd.net hi.2 hs⟩
  exact inv_of_guarded hstep ⟨tagged_init, inv_init⟩ hok hr

/-- at most one thread of all nodes is between its two calls -/
def AtMostOneHolder (c : Cluster ν τ) : Prop :=
  ∀ p t p' t', ((c.nodes p).threads t).Holds → ((c.nodes p').threads t').Holds → p' = p ∧ t' = t

/-- **Mutual exclusion**, in every run whose steps meet the condition. -/
theorem lock_exclusive (hd : d.Full) {as : List (LockAct ν τ)}
    (hok : Guarded (Cluster.step d) (LockOk d) Cluster.init as)
    (hr : run (Cluster.step d) Cluster.init as = some c) : AtMostOneHolder c :=
  fun _ _ _ _ hp hp' => (inv_run hd hok hr).2.exclusive hp.abs hp'.abs

end exclusion

/-! ## three nodes -/

/-- node ids 0, 1, 2; the slots in the order of the ids -/
def threeNodes : Deployment (Fin 3) where
  nodeId p := p
  peers p := [(⟨0, by decide⟩, if p = 0 then 1 else 0), (⟨1, by decide⟩, if p = 2 then 1 else 2)]

theorem threeNodes_full : threeNodes.Full where
  nodeId_inj := Fin.val_injective
  mem_peers := by decide
  nodup := by decide
  quorum := by decide

/-- node 1 gets the lock while node 0 has stamped its request and not queued it -/
def racingRun : List (LockAct (Fin 3) Unit) :=
  [[.lock 0 (), .lock 1 ()], List.replicate 6 (.advance 1 ()),
    [.deliver 1 0, .deliver 1 2, .deliver 0 1, .deliver 2 1, .advance 1 (), .advance 1 ()],
    List.replicate 6 (.advance 0 ()),
    [.deliver 0 1, .deliver 0 2, .deliver 1 0, .deliver 2 0, .advance 0 (), .advance 0 ()]].flatten

theorem racing_two_holders : threeNodes.Full ∧
    ∃ c, run (Cluster.step threeNodes) Cluster.init racingRun = some c ∧ ¬ AtMostOneHolder c := by
  refine ⟨threeNodes_full, ?_⟩
  have h : (run (Cluster.step threeNodes) Cluster.init racingRun).map (fun c =>
      (decide ((c.nodes 0).threads ()).Holds, decide ((c.nodes 1).threads ()).Holds)) =
        some (true, true) := by decide +kernel
  obtain ⟨c, hc, he⟩ := Option.map_eq_some_iff.mp h
  obtain ⟨h0, h1⟩ := Prod.mk.inj he
  refine ⟨c, hc, fun hone => ?_⟩
  exact absurd (hone 0 () 1 () (of_decide_eq_true h0) (of_decide_eq_true h1)).1 (by decide)

/-- node 1 has the lock, and node 0 has all its replies and waits -/
def waitingRun : List (LockAct (Fin 3) Unit) :=
  [[.lock 1 ()], List.replicate 6 (.advance 1 ()),
    [.deliver 1 0, .deliver 1 2, .deliver 0 1, .deliver 2 1, .advance 1 (), .advance 1 ()],
    [.lock 0 ()], List.replicate 6 (.advance 0 ()),
    [.deliver 0 1, .deliver 0 2, .deliver 1 0, .deliver 2 0, .advance 0 ()]].flatten

theorem lock_exclusive_waitingRun :
    ∃ c, run (Cluster.step threeNodes) Cluster.init waitingRun = some c ∧
      ((c.nodes 1).threads ()).Holds ∧ AtMostOneHolder c := by
  have h : (run (Cluster.step threeNodes) Cluster.init waitingRun).map (fun c =>
      decide ((c.nodes 1).threads ()).Holds) = some true := by decide +kernel
  obtain ⟨c, hc, he⟩ := Option.map_eq_some_iff.mp h
  have hok : Guarded (Cluster.step threeNodes) (LockOk threeNodes) Cluster.init waitingRun := by
    decide +kernel
  exact ⟨c, hc, of_decide_eq_true he, lock_exclusive threeNodes_full hok hc⟩

end LsmKv
