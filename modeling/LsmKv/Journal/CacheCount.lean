import LsmKv.Cache.Heap
import LsmKv.Store.Reads
import LsmKv.Store.Live
import LsmKv.Journal

/-!
# The count of the cache after a recovery (`server-main.c`, `server-part1.c`)

`recover` fills the cache before `run_server_1` sets `head` and `tail` to NULL and leaves
`global_cache_count` as it is.

* `Cache.Over k`        the count is `k` more than the nodes;
* `ops_over`            every operation keeps the surplus, and none follows NULL below `CACHE_SIZE`;
* `count_survives_iff`  so the count is right exactly if the replay leaves no node, and an eviction
                        follows a NULL `tail->prev` exactly if it leaves a full cache.
-/

namespace LsmKv

/-- the count is `k` more than the nodes, and at most `cacheSize` -/
structure Cache.Over (k : ℕ) (c : Cache) : Prop where
  count : c.globalCacheCount = c.nodes.length + k
  size : c.nodes.length + k ≤ cacheSize

theorem length_cacheGet (c : Cache) (s : CStr) :
    (cacheGet c s).2.nodes.length = c.nodes.length ∧
      (cacheGet c s).2.globalCacheCount = c.globalCacheCount := by
  cases hv : (cacheGet c s).1 with
  | none =>
    rw [(cacheGet_miss hv).2]
    exact ⟨rfl, rfl⟩
  | some v =>
    obtain ⟨hm, he⟩ := cacheGet_hit hv
    have hlen := List.length_eraseP_of_mem hm (p := fun m => decide (m.1 = s)) (by simp)
    have hpos := List.length_pos_of_mem hm
    rw [he]
    refine ⟨?_, rfl⟩
    rw [List.length_cons, hlen]
    omega

namespace Cache.Over
variable {k : ℕ} {c : Cache}

theorem get (h : c.Over k) (s : CStr) : (cacheGet c s).2.Over k := by
  obtain ⟨hl, hc⟩ := length_cacheGet c s
  exact ⟨by rw [hl, hc]; exact h.count, by rw [hl]; exact h.size⟩

theorem invalidate (h : c.Over k) (key : CStr) : (cacheInvalidate c key).Over k := by
  obtain ⟨hcount, hsize⟩ := h.get key
  unfold cacheInvalidate
  cases hv : (cacheGet c key).1 with
  | none =>
    rw [show cacheGet c key = (none, (cacheGet c key).2) from Prod.ext hv rfl]
    exact h.get key
  | some v =>
    obtain ⟨hm, he⟩ := cacheGet_hit hv
    rw [he, List.length_cons] at hcount hsize
    rw [show cacheGet c key = (some v, (cacheGet c key).2) from Prod.ext hv rfl]
    simp only [he, List.tail_cons] at hcount ⊢
    exact ⟨by push_cast at hcount ⊢; omega, by simp only; omega⟩

/-- below `cacheSize` there is a node to evict -/
theorem ne_nil (h : c.Over k) (hk : k < cacheSize) (hfull : c.globalCacheCount ≥ cacheSize) :
    c.nodes ≠ [] := by
  intro hnil
  have hcount := h.count
  rw [hnil, List.length_nil] at hcount
  omega

theorem put (h : c.Over k) (hk : k < cacheSize) {key value : CStr} {c' : Cache}
    (hp : cachePut c key value = some c') : c'.Over k := by
  obtain ⟨hcount, hsize⟩ := h
  unfold cachePut at hp
  cases hv : (cacheGet c key).1 with
  | none =>
    rw [show cacheGet c key = (none, c) from Prod.ext hv (cacheGet_miss hv).2] at hp
    dsimp only at hp
    split_ifs at hp with hfull hnil
    · cases hp
      have hdrop : (((key, value) :: c.nodes).dropLast).length = c.nodes.length := by
        rw [List.length_dropLast, List.length_cons, Nat.add_sub_cancel]
      exact ⟨by rw [hdrop]; exact hcount, by rw [hdrop]; exact hsize⟩
    · cases hp
      refine ⟨?_, ?_⟩
      · show c.globalCacheCount + 1 = ((c.nodes.length + 1 : ℕ) : ℤ) + k
        push_cast
        omega
      · show c.nodes.length + 1 + k ≤ cacheSize
        omega
  | some v =>
    obtain ⟨hl, hc⟩ := length_cacheGet c key
    obtain ⟨hm, he⟩ := cacheGet_hit hv
    rw [show cacheGet c key = (some v, (cacheGet c key).2) from Prod.ext hv rfl] at hp
    cases hp
    have hlen : ((key, value) :: (cacheGet c key).2.nodes.tail).length = c.nodes.length := by
      rw [← hl, he]
      rfl
    exact ⟨by rw [hlen]; exact hc.trans hcount, by rw [hlen]; exact hsize⟩

end Cache.Over

namespace CacheHeap

theorem op_over (M : Malloc) (fuel n : ℕ) {k : ℕ} (hk : k < cacheSize) {c : CacheHeap}
    {l : List (Addr × NodeData)} (h : Rep c l) (ho : (toCache c l).Over k) (o : Op) :
    ∃ c' r l', op M (fuel + (cacheSize + 1)) n c o = some (c', r) ∧ Rep c' l' ∧
      (toCache c' l').Over k := by
  have hlen : l.length ≤ cacheSize := by
    have := ho.size
    simp only [toCache, List.length_map] at this
    omega
  have hf : l.length < fuel + (cacheSize + 1) := by omega
  cases o with
  | get s =>
    obtain ⟨p, c', l', e, hr, -, hc⟩ := get_rep h hf s
    exact ⟨c', _, l', by rw [op, e]; rfl, hr, hc ▸ ho.get s⟩
  | put name defn =>
    have hne : c.globalCacheCount ≥ cacheSize → l ≠ [] := by
      intro hfull hnil
      refine ho.ne_nil hk hfull ?_
      rw [hnil]
      rfl
    obtain ⟨c', l', e, hr, hc⟩ := put_rep h hne hf (M.fresh n c.heap (exists_free h)) name defn
    exact ⟨c', _, l', by rw [op, e]; rfl, hr, ho.put hk hc⟩
  | invalidate key =>
    obtain ⟨c', l', e, hr, hc⟩ := invalidate_rep h hf key
    exact ⟨c', _, l', by rw [op, e]; rfl, hr, hc ▸ ho.invalidate key⟩

/-- **A surplus below `CACHE_SIZE` is kept**, whatever is called. -/
theorem ops_over (M : Malloc) (fuel : ℕ) {k : ℕ} (hk : k < cacheSize) (os : List Op) :
    ∀ (n : ℕ) {c : CacheHeap} {l : List (Addr × NodeData)}, Rep c l → (toCache c l).Over k →
      ∃ c' rs l', ops M (fuel + (cacheSize + 1)) n c os = some (c', rs) ∧ Rep c' l' ∧
        (toCache c' l').Over k := by
  induction os with
  | nil =>
    intro n c l h ho
    exact ⟨c, [], l, rfl, h, ho⟩
  | cons o os ih =>
    intro n c l h ho
    obtain ⟨c1, r, l1, e1, h1, ho1⟩ := op_over M fuel n hk h ho o
    obtain ⟨c2, rs, l2, e2, h2, ho2⟩ := ih (n + 1) h1 ho1
    refine ⟨c2, r :: rs, l2, ?_, h2, ho2⟩
    rw [ops, e1]
    simp only [Option.bind_eq_bind, Option.bind_some, e2]

/-- `head = tail = temp_node = NULL` in `run_server_1`: no pointer to the nodes is left -/
def initialised (c : Cache) : CacheHeap := ⟨fun _ => none, none, none, c.globalCacheCount⟩

theorem rep_initialised (c : Cache) : Rep (initialised c) [] :=
  ⟨List.nodup_nil, trivial, fun _ _ => rfl, rfl, fun h => absurd rfl h⟩

theorem toCache_initialised (s : Store) : toCache (initialised s.cache) [] = (runServer1 s).cache :=
  rfl

/-- The operations ran through, and the count is the number of nodes linked from `head`. -/
def CountsNodes (r : Option (CacheHeap × List OpResult)) : Prop :=
  ∃ c rs l, r = some (c, rs) ∧ Rep c l ∧ c.globalCacheCount = l.length

end CacheHeap

/-! ## the recovery -/

/-- a replayed entry keeps the cache a cache -/
theorem wf_replayEntry {s s' : Store} (hw : s.cache.Wf) {tx : Transaction}
    (h : replayEntry s tx = some s') : s'.cache.Wf := by
  unfold replayEntry at h
  split_ifs at h with hv
  · exact Option.some.inj h ▸ hw
  · cases hc : command tx.data with
    | bad => rw [hc] at h; exact Option.some.inj h ▸ hw
    | unknown => rw [hc] at h; exact Option.some.inj h ▸ hw
    | get key =>
      rw [hc] at h
      obtain ⟨reply, hr, rfl⟩ := Option.map_eq_some_iff.mp h
      exact wf_step hw (r := .get key) hr
    | put key value =>
      rw [hc] at h
      obtain ⟨value, rfl, h⟩ := Option.bind_eq_some_iff.mp h
      obtain ⟨reply, hr, rfl⟩ := Option.map_eq_some_iff.mp h
      exact wf_step hw (r := .put key value) hr
    | insert key value =>
      rw [hc] at h
      obtain ⟨value, rfl, h⟩ := Option.bind_eq_some_iff.mp h
      obtain ⟨reply, hr, rfl⟩ := Option.map_eq_some_iff.mp h
      exact wf_step hw (r := .insert key value) hr
    | delete key =>
      rw [hc] at h
      obtain ⟨reply, hr, rfl⟩ := Option.map_eq_some_iff.mp h
      exact wf_step hw (r := .delete key) hr

theorem wf_replay {entries : List Transaction} : ∀ {s t : Store}, s.cache.Wf →
    entries.foldlM replayEntry s = some t → t.cache.Wf := by
  induction entries with
  | nil =>
    intro s t hw h
    exact Option.some.inj h ▸ hw
  | cons tx entries ih =>
    intro s t hw h
    rw [List.foldlM_cons] at h
    obtain ⟨s1, h1, h⟩ := Option.bind_eq_some_iff.mp h
    exact ih (wf_replayEntry hw h1) h

theorem wf_recover {s t : Store} {rc : Int} (hw : s.cache.Wf) (h : recover s = some (rc, t)) :
    t.cache.Wf := by
  unfold recover at h
  cases hl : s.txLog with
  | none =>
    rw [hl] at h
    cases h
    exact hw
  | some entries =>
    rw [hl] at h
    obtain ⟨u, hu, h⟩ := Option.bind_eq_some_iff.mp h
    cases h
    show u.cache.Wf
    exact wf_replay hw hu

/-- the first node put in where the count is too great -/
theorem CacheHeap.put_initialised {c : Cache} (hfull : c.globalCacheCount ≥ cacheSize) (M : Malloc)
    (fuel : ℕ) (name defn : CStr) :
    ops M (fuel + (cacheSize + 1)) 0 (initialised c) [.put name defn] = none := by
  have hput : op M (fuel + (cacheSize + 1)) 0 (initialised c) (.put name defn) = none := by
    have hget : get (fuel + (cacheSize + 1)) (initialised c) name = some (none, initialised c) :=
      get_miss (rep_initialised _) (Nat.succ_pos _) (fun x hx => by cases hx)
    rw [op, put, hget]
    simp [pushHead, initialised, evict, hfull]
  rw [ops, hput]
  rfl

/-- a node that is not there is counted -/
theorem CacheHeap.not_countsNodes {c : Cache} (hc : c.globalCacheCount ≠ 0) (M : Malloc)
    (fuel : ℕ) : ¬ CountsNodes (ops M fuel 0 (initialised c) []) := by
  intro h
  obtain ⟨c', rs, l, he, hr, hl⟩ := h
  cases he
  cases l with
  | nil => exact hc hl
  | cons x l => cases hr.head

open CacheHeap in
/-- **When the count survives a start.**  After a recovery from any log and the initialisation, the
count is the number of nodes after every sequence of cache operations if and only if the replay has
left no node, and every sequence runs through, no eviction following a NULL `tail->prev`, if and
only if it has not filled the cache. -/
theorem count_survives_iff {s t : Store} {rc : Int} (h : recover (crash s) = some (rc, t))
    (M : Malloc) (fuel : ℕ) :
    ((∀ os, CountsNodes (ops M (fuel + (cacheSize + 1)) 0 (initialised t.cache) os)) ↔
      t.cache.nodes = []) ∧
    ((∀ os, (ops M (fuel + (cacheSize + 1)) 0 (initialised t.cache) os).isSome) ↔
      t.cache.nodes.length < cacheSize) := by
  obtain ⟨-, hcount, hsize⟩ := wf_recover (s := crash s) Cache.Wf.empty h
  have hover : (toCache (initialised t.cache) []).Over t.cache.nodes.length := by
    refine ⟨?_, ?_⟩
    · show t.cache.globalCacheCount = ((0 : ℕ) : ℤ) + t.cache.nodes.length
      rw [hcount]
      omega
    · show 0 + t.cache.nodes.length ≤ cacheSize
      omega
  refine ⟨⟨fun hall => ?_, fun hnil os => ?_⟩, ⟨fun hall => ?_, fun hlt os => ?_⟩⟩
  · by_contra hne
    refine not_countsNodes ?_ M _ (hall [])
    have hpos := List.length_pos_of_ne_nil hne
    rw [hcount]
    omega
  · rw [hnil] at hover
    obtain ⟨c, rs, l, he, hr, ho⟩ := ops_over M fuel (by decide) os 0 (rep_initialised _) hover
    refine ⟨c, rs, l, he, hr, ?_⟩
    have := ho.count
    simpa [toCache] using this
  · by_contra hge
    have hfull : t.cache.globalCacheCount ≥ cacheSize := by
      rw [hcount]
      omega
    have hnone := hall [.put [] []]
    rw [put_initialised hfull M] at hnone
    cases hnone
  · obtain ⟨c, rs, l, he, -, -⟩ := ops_over M fuel hlt os 0 (rep_initialised _) hover
    rw [he]
    rfl

/-- a log of PUTs of the keys -/
def putLog (keys : List CStr) : List Transaction :=
  keys.map fun k => ⟨7, "PUT ".toList ++ k ++ " v".toList, 1, 1⟩

/-- A log of 101 PUTs, between them a DELETE, which takes the table past the size at which it is
flushed. -/
def crowdLog : Store := { Store.empty with
  txLog := some (putLog (crowd.take 99) ++ [⟨8, "DELETE z".toList, 1, 1⟩] ++
    putLog (crowd.drop 99)) }

/-- a log that has been deleted from again -/
def putDeleteLog : Store := { Store.empty with
  txLog := some [⟨1, "PUT a v".toList, 1, 1⟩, ⟨2, "DELETE a".toList, 1, 1⟩] }

theorem count_survives_delete : ∃ t, recover (crash putDeleteLog) = some (0, t) ∧
    ∀ os, CacheHeap.CountsNodes (CacheHeap.ops default (0 + (cacheSize + 1)) 0
      (CacheHeap.initialised t.cache) os) := by
  have hrun : (recover (crash putDeleteLog)).map (fun r => (r.1, r.2.cache.nodes))
      = some (0, []) := by decide +kernel
  obtain ⟨⟨rc, t⟩, ht, he⟩ := Option.map_eq_some_iff.mp hrun
  obtain ⟨rfl, hnil⟩ := Prod.mk.inj he
  exact ⟨t, ht, (count_survives_iff ht default 0).1.mpr hnil⟩

/-- **A full cache is replayed**: the count is 101 without a node, and the first `cache_put` follows
a NULL pointer. -/
theorem count_outlives_nodes : ∃ t, recover (crash crowdLog) = some (0, t) ∧
    ¬ CacheHeap.CountsNodes (CacheHeap.ops default (0 + (cacheSize + 1)) 0
      (CacheHeap.initialised t.cache) []) ∧
    CacheHeap.ops default (0 + (cacheSize + 1)) 0 (CacheHeap.initialised t.cache)
      [.put ['a'] ['v']] = none := by
  have hrun : (recover (crash crowdLog)).map
      (fun r => (r.1, r.2.cache.globalCacheCount)) = some (0, 101) := by decide +kernel
  obtain ⟨⟨rc, t⟩, ht, he⟩ := Option.map_eq_some_iff.mp hrun
  obtain ⟨rfl, hcount⟩ := Prod.mk.inj he
  refine ⟨t, ht, CacheHeap.not_countsNodes ?_ _ _, CacheHeap.put_initialised ?_ _ _ _ _⟩
  · show t.cache.globalCacheCount ≠ 0
    rw [hcount]
    decide
  · show t.cache.globalCacheCount ≥ cacheSize
    rw [hcount]
    decide

end LsmKv
