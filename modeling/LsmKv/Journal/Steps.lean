import LsmKv.C1.Steps
import LsmKv.Journal.Coverage

/-!
# Requests over calls that may fail

The requests of `Store.lean` with `c1_batch_insert` call by call; their other steps make no call.

* `Sys`                  the store and the calls made;
* `c0DumpIo`, `insertC0Io`, `putC0Io`, `serveIo`   the functions of the source;
* `replayEntryIo`        one round of the loop of `recover`;
* `wp_serveIo`           a request hands `fullBatch` to c1, or touches neither c1 nor the log.
-/

namespace LsmKv

open Crash Crash.Code

structure Sys where
  store : Store
  log : List FsOp

namespace Sys

def dev (s : Sys) : Dev := ⟨s.store.c1, s.log⟩

def setDev (d : Dev) (s : Sys) : Sys := ⟨{ s.store with c1 := d.c1 }, d.log⟩

def setT (T : C0Node) (s : Sys) : Sys := ⟨{ s.store with T := T }, s.log⟩

def setCache (cache : Cache) (s : Sys) : Sys := ⟨{ s.store with cache := cache }, s.log⟩

def setStore (store : Store) (s : Sys) : Sys := ⟨store, s.log⟩

end Sys

/-- the result of `remove` is not looked at -/
def c0DumpIo (T : C0Node) : Code Sys Unit :=
  let size := T.c0Size
  if size = 0 then return ()
  else do
    let nodes ← ofOption ((T.dumpToArray (List.replicate size none) 0).1.mapM id)
    let rc ← zoom Sys.dev Sys.setDev (c1BatchInsertIo nodes)
    if rc = 0 then
      let _ ← call fun s : Sys => s.setStore (flushLog s.store)
      return ()
    else return ()

def insertC0Io (key value : CStr) : Code Sys Unit := do
  let s ← get
  let T := s.store.T.insert key value 0
  if T.c0Size = maxC0Size then do
    modify (Sys.setT .null)
    c0DumpIo T
  else modify (Sys.setT T)

def putC0Io (key value : CStr) : Code Sys Unit := do
  let s ← get
  match s.store.T.get key with
  | some _ => modify (Sys.setT (s.store.T.update key ⟨value, true⟩ 0).2)
  | none => insertC0Io key value

def cachePutIo (key value : CStr) : Code Sys Unit := do
  let s ← get
  let cache ← ofOption (cachePut s.store.cache key value)
  modify (Sys.setCache cache)

/-- the state after the request; DELETE and GET as in `Store.lean` -/
def serveIo : Req → Code Sys Unit
  | .put key value => do
    putC0Io key value
    cachePutIo key value
  | .insert key value => do
    let s ← get
    let (cacheLookup, cache) := cacheGet s.store.cache key
    modify (Sys.setCache cache)
    match cacheLookup with
    | some _ => return ()
    | none =>
      match s.store.T.get key with
      | some _ => return ()
      | none => do
        insertC0Io key value
        cachePutIo key value
  | .delete key => do
    let s ← get
    let r ← ofOption (server1DeleteRequest s.store key)
    modify (Sys.setStore r.2.2)
  | .get key => do
    let s ← get
    let r ← ofOption (server1GetRequest s.store key)
    modify (Sys.setStore r.2.2)
  | .timer => do
    let s ← get
    let c0Batch := s.store.T
    modify (Sys.setT .null)
    c0DumpIo c0Batch

def replayEntryIo (tx : Transaction) : Code Sys Unit :=
  if tx.valid = 0 then return ()
  else match command tx.data with
    | .bad => return ()
    | .get key => serveIo (.get key)
    | .put key value => do
      let value ← ofOption value
      serveIo (.put key value)
    | .insert key value => do
      let value ← ofOption value
      serveIo (.insert key value)
    | .delete key => serveIo (.delete key)
    | .unknown => return ()

/-! ## what they do -/

/-- `c1_batch_insert` returned and left `t` -/
def Handed (d : Dev) (nodes : List Entry) (os : List Outcome) (t : Dev) : Prop :=
  ∃ rc os', c1BatchInsertIo nodes d os = .done rc t os'

theorem Handed.returned {d t : Dev} {nodes : List Entry} {os : List Outcome}
    (h : Handed d nodes os t) : ∃ rc, Returned d nodes os rc t := by
  obtain ⟨rc, os', h⟩ := h
  have hw := wp_c1BatchInsertIo d nodes os
  unfold wp at hw
  rw [h] at hw
  exact ⟨rc, hw.1⟩

/-- **`c0_dump`** returns what `c1_batch_insert` left; the tree and the cache stay. -/
theorem wp_c0DumpIo {T : C0Node} (hT : T ≠ .null) (s : Sys) (os : List Outcome) :
    wp (c0DumpIo T)
      (fun _ t os' => Handed s.dev T.entries os t.dev ∧ t.store.T = s.store.T ∧
        (NoFails os → NoFails os' ∧ c0Dump T s.store = some t.store))
      (fun t => Ended s.dev T.entries os t.dev) s os := by
  have hsize : T.c0Size ≠ 0 := fun h => hT (c0Size_eq_zero.mp h)
  unfold c0DumpIo
  dsimp only
  rw [if_neg hsize, C0Node.dumpToArray_mapM]
  simp only [wp_bind, wp_ofOption, Option.some.injEq, forall_eq', wp_zoom]
  refine wp_mono (wp_done (wp_c1BatchInsertIo s.dev T.entries os)) ?_ fun t h => Or.inl h
  rintro rc t os1 ⟨⟨hret, hpure⟩, hrun⟩
  have hdump : NoFails os → ∀ b, (b = (if rc = 0 then none else s.store.txLog)) →
      c0Dump T s.store = some { s.store with c1 := t.c1, txLog := b } := by
    rintro h b rfl
    rw [c0Dump_eq hT, show c1BatchInsert s.store.c1 T.entries = some (rc, t.c1) from (hpure h).2]
    rfl
  split_ifs with hrc
  · rw [wp_bind]
    refine wp_call.mpr ⟨fun _ => ?_, fun hf => ?_, fun _ => Or.inr ⟨rc, hret⟩⟩
    · refine ⟨⟨rc, os1, hrun⟩, rfl, fun h => ⟨(hpure h).1.tail, ?_⟩⟩
      exact hdump h _ (by rw [if_pos hrc])
    · exact ⟨⟨rc, os1, hrun⟩, rfl, fun h => absurd (hpure h).1 (not_noFails_of_head hf)⟩
  · refine ⟨⟨rc, os1, hrun⟩, rfl, fun h => ⟨(hpure h).1, ?_⟩⟩
    exact hdump h _ (by rw [if_neg hrc])

/-- an insertion: what it hands to c1 if it fills the table -/
structure Inserted (s : Sys) (T : C0Node) (os : List Outcome) (t : Sys) : Prop where
  small : T.c0Size ≠ maxC0Size → t.dev = s.dev
  full : T.c0Size = maxC0Size →
    Handed s.dev T.entries os t.dev ∧ t.store.T = .null

theorem wp_insertC0Io (s : Sys) (key value : CStr) (os : List Outcome) :
    wp (insertC0Io key value)
      (fun _ t os' => Inserted s (s.store.T.insert key value 0) os t ∧
        (NoFails os → NoFails os' ∧ insertC0 s.store key value = some t.store))
      (fun t => (s.store.T.insert key value 0).c0Size = maxC0Size ∧
        Ended s.dev (s.store.T.insert key value 0).entries os t.dev) s os := by
  unfold insertC0Io
  simp only [wp_bind, wp_get]
  split_ifs with hsize
  · have hT : s.store.T.insert key value 0 ≠ .null := by
      intro hnull
      rw [hnull] at hsize
      cases hsize
    simp only [wp_bind, wp_modify]
    refine wp_mono (wp_c0DumpIo hT (s.setT .null) os) ?_ fun t h => ⟨hsize, h⟩
    rintro _ t os' ⟨hret, hnull, hpure⟩
    refine ⟨⟨fun h => absurd hsize h, fun _ => ⟨hret, hnull⟩⟩, fun h => ⟨(hpure h).1, ?_⟩⟩
    rw [insertC0, if_pos hsize]
    exact (hpure h).2
  · exact ⟨⟨fun _ => rfl, fun h => absurd h hsize⟩, fun h => ⟨h, insertC0_small hsize⟩⟩

theorem wp_cachePutIo (s : Sys) (key value : CStr) {Q : Unit → Sys → List Outcome → Prop}
    {C : Sys → Prop} {os : List Outcome}
    (h : ∀ cache, cachePut s.store.cache key value = some cache → Q () (s.setCache cache) os) :
    wp (cachePutIo key value) Q C s os := by
  unfold cachePutIo
  simp only [wp_bind, wp_get, wp_ofOption, wp_modify]
  exact h

/-- a request: what it hands to c1, and the store where no call fails -/
structure Served (s : Sys) (q : Req) (os : List Outcome) (t : Sys) : Prop where
  quiet : fullBatch s.store q = none → t.dev = s.dev
  handed : ∀ nodes, fullBatch s.store q = some nodes →
    Handed s.dev nodes os t.dev ∧ t.store.T = .null
  served : NoFails os → (serve s.store q).map (fun r => r.2.2) = some t.store

theorem fullBatch_put_root {s : Store} {key value : CStr} {e : Entry} (h : s.T.get key = some e) :
    fullBatch s (.put key value) = none := by
  rw [fullBatch, if_neg]
  rintro ⟨h', -⟩
  rw [h] at h'
  cases h'

/-- the batch of a write whose key is not at the root -/
theorem fullBatch_inserted {s : Sys} {q : Req} {T : C0Node} {os : List Outcome} {t : Sys}
    (hq : fullBatch s.store q = if T.c0Size = maxC0Size then some T.entries else none)
    (h : Inserted s T os t) (hs : NoFails os → (serve s.store q).map (fun r => r.2.2)
      = some t.store) : Served s q os t := by
  refine ⟨fun hn => ?_, fun nodes hn => ?_, hs⟩ <;> rw [hq] at hn <;> split_ifs at hn with hsize
  · exact h.small hsize
  · cases hn
    exact h.full hsize

theorem served_unbatched {s : Sys} {q : Req} {r : Reply} (hr : serve s.store q = some r)
    (hq : fullBatch s.store q = none) (os : List Outcome) : Served s q os (s.setStore r.2.2) := by
  refine ⟨fun _ => ?_, fun nodes hn => ?_, fun _ => by rw [hr]; rfl⟩
  · show (⟨r.2.2.c1, s.log⟩ : Dev) = ⟨s.store.c1, s.log⟩
    rw [(serve_unbatched hr hq).1]
  · rw [hq] at hn
    cases hn

/-- **A request hands its batch to c1**, or touches neither c1 nor its files. -/
theorem wp_serveIo (s : Sys) (q : Req) (os : List Outcome) :
    wp (serveIo q) (fun _ t _ => Served s q os t)
      (fun t => ∃ nodes, fullBatch s.store q = some nodes ∧ Ended s.dev nodes os t.dev) s os := by
  cases q with
  | put key value =>
    unfold serveIo putC0Io
    simp only [wp_bind, wp_get]
    cases hg : s.store.T.get key with
    | some e =>
      refine wp_cachePutIo _ key value fun cache hc => ?_
      refine ⟨fun _ => rfl, fun nodes hn => ?_, fun _ => ?_⟩
      · rw [fullBatch_put_root hg] at hn
        cases hn
      · rw [serve, server1PutRequest, putC0_root hg]
        show Option.map _ (Option.bind (cachePut s.store.cache key value) _) = _
        rw [show cachePut s.store.cache key value = some cache from hc]
        rfl
    | none =>
      have hq : fullBatch s.store (.put key value)
          = if (s.store.T.insert key value 0).c0Size = maxC0Size
            then some (s.store.T.insert key value 0).entries else none := by
        simp only [fullBatch, Req.Fills, hg, true_and]
      refine wp_mono (wp_insertC0Io s key value os) ?_ fun t h => ⟨_, by rw [hq, if_pos h.1], h.2⟩
      rintro _ t os' ⟨hins, hpure⟩
      refine wp_cachePutIo t key value fun cache hc => ?_
      refine fullBatch_inserted hq ⟨hins.small, hins.full⟩ fun h => ?_
      rw [serve, server1PutRequest, putC0_insert hg, (hpure h).2]
      show Option.map _ (Option.bind (cachePut t.store.cache key value) _) = _
      rw [hc]
      rfl
  | insert key value =>
    unfold serveIo
    simp only [wp_bind, wp_get, wp_modify]
    have hdup : s.store.cache.Has key ∨ s.store.T.get key ≠ none →
        Served s (.insert key value) os (s.setCache (cacheGet s.store.cache key).2) := by
      intro h
      refine ⟨fun _ => rfl, fun nodes hn => ?_, fun _ => ?_⟩
      · rw [fullBatch, if_neg (fun hf => h.elim hf.1 fun h => h hf.2.1)] at hn
        cases hn
      · rw [serve, insert_duplicate h]
        rfl
    cases hc : (cacheGet s.store.cache key).1 with
    | some v => exact hdup (Or.inl ⟨v, (cacheGet_hit hc).1⟩)
    | none =>
      obtain ⟨hno, hsame⟩ := cacheGet_miss hc
      cases hg : s.store.T.get key with
      | some e => exact hdup (Or.inr (by simp [hg]))
      | none =>
        have hq : fullBatch s.store (.insert key value)
            = if (s.store.T.insert key value 0).c0Size = maxC0Size
              then some (s.store.T.insert key value 0).entries else none := by
          simp only [fullBatch, Req.Fills, hno, hg, not_false_eq_true, true_and]
        simp only [wp_bind, hsame]
        refine wp_mono (wp_insertC0Io s key value os) ?_
          fun t h => ⟨_, by rw [hq, if_pos h.1], h.2⟩
        rintro _ t os' ⟨hins, hpure⟩
        refine wp_cachePutIo t key value fun cache hput => ?_
        refine fullBatch_inserted hq ⟨hins.small, hins.full⟩ fun h => ?_
        unfold serve server1InsertRequest
        simp only [hc, hsame, hg]
        rw [show insertC0 { s.store with cache := s.store.cache } key value = some t.store from
          (hpure h).2]
        show Option.map _ (Option.bind (cachePut t.store.cache key value) _) = _
        rw [hput]
        rfl
  | delete key =>
    unfold serveIo
    simp only [wp_bind, wp_get, wp_ofOption, wp_modify]
    exact fun r hr => served_unbatched (q := .delete key) hr rfl os
  | get key =>
    unfold serveIo
    simp only [wp_bind, wp_get, wp_ofOption, wp_modify]
    exact fun r hr => served_unbatched (q := .get key) hr rfl os
  | timer =>
    unfold serveIo
    simp only [wp_bind, wp_get, wp_modify]
    by_cases hsize : s.store.T.c0Size = 0
    · have hT := c0Size_eq_zero.mp hsize
      rw [hT]
      refine ⟨fun _ => rfl, fun nodes hn => ?_, fun _ => ?_⟩
      · rw [fullBatch, if_pos hsize] at hn
        cases hn
      · rw [serve, myTimerHandler, hT, c0Dump_null]
        rfl
    · have hq : fullBatch s.store .timer = some s.store.T.entries := by
        rw [fullBatch, if_neg hsize]
      refine wp_mono (wp_c0DumpIo (fun h => hsize (c0Size_eq_zero.mpr h)) (s.setT .null) os) ?_
        fun t h => ⟨_, hq, h⟩
      rintro _ t os' ⟨hret, hnull, hpure⟩
      refine ⟨fun hn => ?_, fun nodes hn => ?_, fun h => ?_⟩
      · rw [hq] at hn
        cases hn
      · rw [hq] at hn
        cases hn
        exact ⟨hret, hnull⟩
      · rw [serve, myTimerHandler]
        show Option.map _ (Option.map _ (c0Dump s.store.T (s.setT .null).store)) = _
        rw [(hpure h).2]
        rfl

/-- what a replayed entry hands to `c1_batch_insert` -/
def entryBatch (s : Store) (tx : Transaction) : Option (List Entry) :=
  if tx.valid = 0 then none else (command tx.data).write.bind (fullBatch s)

/-- **A replayed entry hands its batch to c1**, or touches neither c1 nor its files. -/
theorem wp_replayEntryIo (s : Sys) (tx : Transaction) (os : List Outcome) :
    wp (replayEntryIo tx)
      (fun _ t _ => (entryBatch s.store tx = none → t.dev = s.dev) ∧
        ∀ nodes, entryBatch s.store tx = some nodes → Handed s.dev nodes os t.dev)
      (fun t => ∃ nodes, entryBatch s.store tx = some nodes ∧ Ended s.dev nodes os t.dev)
      s os := by
  have hserve : ∀ q, entryBatch s.store tx = fullBatch s.store q → wp (serveIo q)
      (fun _ t _ => (entryBatch s.store tx = none → t.dev = s.dev) ∧
        ∀ nodes, entryBatch s.store tx = some nodes → Handed s.dev nodes os t.dev)
      (fun t => ∃ nodes, entryBatch s.store tx = some nodes ∧ Ended s.dev nodes os t.dev)
      s os := by
    intro q hq
    rw [hq]
    exact wp_mono (wp_serveIo s q os) (fun _ t _ h => ⟨h.quiet, fun n hn => (h.handed n hn).1⟩)
      fun t h => h
  unfold replayEntryIo
  by_cases hv : tx.valid = 0
  · rw [if_pos hv]
    exact ⟨fun _ => rfl, fun nodes hn => by simp [entryBatch, hv] at hn⟩
  · rw [if_neg hv]
    cases hc : command tx.data with
    | bad => exact ⟨fun _ => rfl, fun nodes hn => by simp [entryBatch, hv, hc, Command.write] at hn⟩
    | unknown =>
      exact ⟨fun _ => rfl, fun nodes hn => by simp [entryBatch, hv, hc, Command.write] at hn⟩
    | get key => exact hserve _ (by simp [entryBatch, hv, hc, Command.write, fullBatch])
    | delete key => exact hserve _ (by simp [entryBatch, hv, hc, Command.write])
    | put key value =>
      simp only [wp_bind, wp_ofOption]
      rintro value rfl
      exact hserve _ (by simp [entryBatch, hv, hc, Command.write])
    | insert key value =>
      simp only [wp_bind, wp_ofOption]
      rintro value rfl
      exact hserve _ (by simp [entryBatch, hv, hc, Command.write])

end LsmKv
