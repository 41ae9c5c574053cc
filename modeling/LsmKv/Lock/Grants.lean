import LsmKv.Lib.LamportLock.Grants
import LsmKv.Lock.Exclusion

/-!
# The order of the critical sections (`blocking_node.c`)

* `grants`            the requests with which `distributed_lock` returns in a run, in their order;
* `grants_in_order`   they are in the order of the queues, by timestamp and node.
-/

set_option linter.unusedSectionVars false

namespace LsmKv

open LamportLock Run

variable {ν τ : Type} [DecidableEq ν] [DecidableEq τ]

/-- the request with which `distributed_lock` returns next -/
def ThreadPhase.grant : ThreadPhase ν → Option Rank
  | .heading msg => some msg.rank
  | .idle | .stamped _ | .queued _ | .sending _ _ | .marking _ _ _ | .critical _ | .served _ _ _ _
  | .writing _ _ _ | .dequeued _ | .releasing _ _ _ => none

def Cluster.grant (c : Cluster ν τ) : LockAct ν τ → Option Rank
  | .advance p t => ((c.nodes p).threads t).grant
  | .lock _ _ | .serve _ _ _ _ | .deliver _ _ => none

def grants (d : Deployment ν) : Cluster ν τ → List (LockAct ν τ) → List Rank
  | _, [] => []
  | c, a :: as =>
    match c.step d a with
    | none => []
    | some c' => (c.grant a).toList ++ grants d c' as

section order
variable [Fintype ν] [Fintype τ] {d : Deployment ν} {c c' : Cluster ν τ}

/-- the thread enters its critical section -/
theorem grant_abs (ht : NodeTagged d c) {a : LockAct ν τ} {x : Rank} (hx : c.grant a = some x)
    (h : c.step d a = some c') : ∃ p t ts, x = d.net.rank p ts ∧
      c.abs.phase p t = .heading ts ∧ c'.abs.phase p t = .critical ts := by
  cases a with
  | advance p t =>
    have hx : ((c.nodes p).threads t).grant = some x := hx
    cases hp : (c.nodes p).threads t with
    | heading msg =>
      rw [hp] at hx
      obtain rfl := Option.some.inj hx
      have hof := ht.thread p t
      rw [hp] at hof
      obtain ⟨r, hr, rfl⟩ := Option.map_eq_some_iff.mp h
      unfold LockNode.advance at hr
      rw [hp] at hr
      obtain ⟨-, hr⟩ := Option.ite_none_right_eq_some.mp hr
      obtain rfl := Option.some.inj hr
      refine ⟨p, t, msg.message.timestamp, rank_of_nodeId hof.2, ?_, ?_⟩
      · rw [Cluster.abs_phase, hp]
        rfl
      · rw [Cluster.abs_phase, Cluster.put_nodes, Function.update_self]
        show (Function.update (c.nodes p).threads t (.critical msg) t).abs = _
        rw [Function.update_self]
        rfl
    | _ => rw [hp] at hx; cases hx
  | _ => cases hx

/-- the request that gets the lock is later than those that have had it, and has now got it too -/
theorem passed_grant (hd : d.Full) (ht : NodeTagged d c) (hi : Inv d.net c.abs)
    (hi' : Inv d.net c'.abs) {a : LockAct ν τ} {x : Rank} (hx : c.grant a = some x)
    (h : c.step d a = some c') : Passed d.net c'.abs x ∧
      ∀ y, Passed d.net c.abs y → Passed d.net c'.abs y → y < x := by
  obtain ⟨p, t, ts, rfl, hp, hp'⟩ := grant_abs ht hx h
  have hin' : (c'.abs.phase p t).inside := by rw [hp']; rfl
  have hl' : (c'.abs.phase p t).live = some ts := by rw [hp']; rfl
  refine ⟨Or.inr ⟨p, t, ts, hin', hl', rfl⟩, fun y hy hy' => ?_⟩
  exact hy.lt_of_grant hy' hd.net hi' (by rw [hp]; rfl) (by rw [hp]; rfl) hin' hl' hi

theorem grants_pairwise (hd : d.Full) {as : List (LockAct ν τ)} {l : List Rank}
    (hok : Guarded (Cluster.step d) (LockOk d) c as) (ht : NodeTagged d c) (hi : Inv d.net c.abs)
    (hl : l.Pairwise (· < ·)) (hpassed : ∀ x ∈ l, Passed d.net c.abs x) :
    (l ++ grants d c as).Pairwise (· < ·) := by
  induction as generalizing c l with
  | nil =>
    show (l ++ []).Pairwise _
    rwa [List.append_nil]
  | cons a as ih =>
    unfold grants
    cases hs : c.step d a with
    | none =>
      show (l ++ []).Pairwise _
      rwa [List.append_nil]
    | some c' =>
      have hsteps : Relation.ReflTransGen (Step d.net fun _ _ _ _ => True) c.abs c'.abs :=
        refine_step hd hi ht hs hok.1 fun _ _ _ _ _ _ _ _ => trivial
      have hi' := inv_steps hd.net hi hsteps
      have hpassed' : ∀ x ∈ l, Passed d.net c'.abs x := fun x hx =>
        (hpassed x hx).steps hd.net hi hsteps
      show (l ++ ((c.grant a).toList ++ grants d c' as)).Pairwise _
      rw [← List.append_assoc]
      have hgrant : (l ++ (c.grant a).toList).Pairwise (· < ·) ∧
          ∀ x ∈ l ++ (c.grant a).toList, Passed d.net c'.abs x := by
        cases hx : c.grant a with
        | none =>
          rw [Option.toList_none, List.append_nil]
          exact ⟨hl, hpassed'⟩
        | some x =>
          obtain ⟨hpx, hlt⟩ := passed_grant hd ht hi hi' hx hs
          refine ⟨List.pairwise_append.mpr ⟨hl, List.pairwise_singleton _ _, fun y hy z hz => ?_⟩,
            fun y hy => ?_⟩
          · rw [List.mem_singleton.mp hz]
            exact hlt y (hpassed y hy) (hpassed' y hy)
          · rcases List.mem_append.mp hy with hy | hy
            · exact hpassed' y hy
            · exact List.mem_singleton.mp hy ▸ hpx
      exact ih (hok.2 c' hs) (tagged_step ht hs) hi' hgrant.1 hgrant.2

/-- **The lock is granted in the order of the requests**, in every run whose steps meet the
condition: each one is later, by timestamp and node, than all before it. -/
theorem grants_in_order (hd : d.Full) {as : List (LockAct ν τ)}
    (hok : Guarded (Cluster.step d) (LockOk d) Cluster.init as) :
    (grants d Cluster.init as).Pairwise (· < ·) :=
  grants_pairwise hd (l := []) hok tagged_init inv_init List.Pairwise.nil fun _ hx => by cases hx

end order

/-- the holder `q` writes and releases the lock, and `p` gets it -/
def handoverRun (p q : Fin 3) : List (LockAct (Fin 3) Unit) :=
  waitingRun ++ [[.serve q () 7 "PUT a 1".toList], List.replicate 8 (.advance q ()),
    [.deliver q p, .deliver q p, .advance p ()]].flatten

theorem grants_in_order_handoverRun :
    (grants threeNodes Cluster.init (handoverRun 0 1)).map (fun x => (ofLex x).2) = [1, 0] ∧
      (grants threeNodes Cluster.init (handoverRun 0 1)).Pairwise (· < ·) :=
  ⟨by decide +kernel, grants_in_order threeNodes_full (by decide +kernel)⟩

end LsmKv
