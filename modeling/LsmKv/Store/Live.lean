import LsmKv.Lib.Run
import LsmKv.Store

/-!
# Live keys over whole runs

The abstract store is a map from keys to values, changed by the accepted requests alone
(`accept`).  `Tracked` runs it beside the store.

* `Holds T c k v`        `_T` holds `(v, 0)` for `k`, or no node of `k` and c1 a record `(v, 0)`;
* `Live.Inv`             every live key is held, and what is cached is live;
* `StepOk`               the requests and flushes that do not run into a defect of the layers;
* `Inv.serve`            such a step is defined and keeps the invariant;
* `get_live`             after a run of such steps every live key that can be read is read right.
-/

namespace LsmKv

open KeySorted Run

/-- the map from keys to live values after a request that returned `rc` -/
def accept (live : CStr → Option CStr) (r : Req) (rc : Int) : CStr → Option CStr :=
  if rc = exitSuccess then
    match r with
    | .put key value => Function.update live key (some value)
    | .insert key value => Function.update live key (some value)
    | .delete key => Function.update live key none
    | .get _ => live
    | .timer => live
  else live

/-- the store and the map of its live keys -/
structure Tracked where
  store : Store
  live : CStr → Option CStr

namespace Tracked

def empty : Tracked := ⟨Store.empty, fun _ => none⟩

def step (t : Tracked) (r : Req) : Option Tracked :=
  (serve t.store r).map fun reply => ⟨reply.2.2, accept t.live r reply.1⟩

end Tracked

/-! ## the conditions -/

/-- a write of `key` reaches a node: the root, a new node, or one that holds the value already -/
def Lands (T : C0Node) (key value : CStr) : Prop :=
  T.get key = none → T.find key = none ∨ ∃ lent, ⟨key, ⟨value, lent⟩, 0⟩ ∈ T.entries

/-- The batch of `T` can be flushed: its records are read back, it has no key above all keys of
an existing data file, and a live key of both has the same record in both. -/
def FlushOk (c : C1) (live : CStr → Option CStr) (T : C0Node) : Prop :=
  T ≠ .null → (∀ e ∈ T.entries, Storable e) ∧ ¬ Spills c T.entries ∧
    ∀ e ∈ T.entries, live e.key ≠ none → ∀ l ∈ c.current, lineKey l = e.key → l = keyval e

/-- the insertion lands, and if it fills the table the batch can be flushed -/
def InsertOk (t : Tracked) (key value : CStr) : Prop :=
  Lands t.store.T key value ∧ ((t.store.T.insert key value 0).c0Size = maxC0Size →
    FlushOk t.store.c1 (Function.update t.live key (some value)) (t.store.T.insert key value 0))

/-- the key is cached, or at the root, or not in `_T` and covered by the index of c1 -/
def Readable (s : Store) (key : CStr) : Prop :=
  s.cache.Has key ∨ s.T.get key ≠ none ∨ s.T.find key = none ∧ Covered s.c1 key

def StepOk (t : Tracked) : Req → Prop
  | .put key value => t.store.T.get key = none → InsertOk t key value
  | .insert key value =>
    ¬ t.store.cache.Has key → t.store.T.get key = none → InsertOk t key value
  | .delete _ => True
  | .get key => t.live key ≠ none ∧ Readable t.store key
  | .timer => FlushOk t.store.c1 t.live t.store.T

instance (T : C0Node) (key value : CStr) : Decidable (Lands T key value) :=
  inferInstanceAs (Decidable (_ → _))

instance (c : C1) (live : CStr → Option CStr) (T : C0Node) : Decidable (FlushOk c live T) :=
  inferInstanceAs (Decidable (_ → _))

instance (t : Tracked) (key value : CStr) : Decidable (InsertOk t key value) :=
  inferInstanceAs (Decidable (_ ∧ _))

instance (s : Store) (key : CStr) : Decidable (Readable s key) :=
  inferInstanceAs (Decidable (_ ∨ _))

instance (t : Tracked) : (r : Req) → Decidable (StepOk t r)
  | .put _ _ => inferInstanceAs (Decidable (_ → _))
  | .insert _ _ => inferInstanceAs (Decidable (_ → _))
  | .delete _ => inferInstanceAs (Decidable True)
  | .get _ => inferInstanceAs (Decidable (_ ∧ _))
  | .timer => inferInstanceAs (Decidable (FlushOk _ _ _))

/-! ## the invariant -/

/-- where a live pair is held -/
def Holds (T : C0Node) (c : C1) (key value : CStr) : Prop :=
  (∃ lent, ⟨key, ⟨value, lent⟩, 0⟩ ∈ T.entries) ∨
  (T.find key = none ∧ ∃ e, Storable e ∧ e.key = key ∧ e.value.chars = value ∧ e.flag = 0 ∧
    keyval e ∈ c.current)

/-- The cross-layer invariant. -/
structure Live.Inv (s : Store) (live : CStr → Option CStr) : Prop where
  cache : s.cache.Wf
  cached : ∀ k v, (k, v) ∈ s.cache.nodes → live k = some v
  bst : s.T.Bst
  c1 : s.c1.Wf
  held : ∀ k v, live k = some v → Holds s.T s.c1 k v

theorem Live.Inv.empty : Live.Inv Store.empty fun _ => none where
  cache := Cache.Wf.empty
  cached := by simp [Store.empty, Cache.empty]
  bst := C0Node.bst_null
  c1 := C1.Wf.empty
  held := by simp

namespace Holds
variable {T : C0Node} {c : C1} {k v key : CStr}

/-- an insertion of another key, or of a key that stands in `_T`, leaves a pair where it is -/
theorem insert (hb : T.Bst) (hne : k ≠ key) (h : Holds T c k v) (value : CStr) (flag : Int) :
    Holds (T.insert key value flag) c k v := by
  rcases h with ⟨b, hb'⟩ | ⟨hno, he⟩
  · left
    rw [C0Node.entries_insert hb]
    exact ⟨b, mem_insertNew_of_mem hb'⟩
  · right
    refine ⟨?_, he⟩
    unfold C0Node.find at hno ⊢
    rw [C0Node.entries_insert hb, lookup_insertNew _ hb, if_neg hne, hno]

theorem update (hb : T.Bst) (hne : k ≠ key) {e : Entry} (hg : T.get key = some e)
    (h : Holds T c k v) (p : CPtr) (flag : Int) : Holds (T.update key p flag).2 c k v := by
  rcases h with ⟨b, hb'⟩ | ⟨hno, he⟩
  · exact Or.inl ⟨b, (C0Node.mem_update hb hg p flag _).mpr (Or.inr ⟨hne, hb'⟩)⟩
  · right
    refine ⟨lookup_none.mpr fun x hx => ?_, he⟩
    rcases (C0Node.mem_update hb hg p flag x).mp hx with rfl | ⟨-, hx'⟩
    · exact Ne.symm hne
    · exact lookup_none.mp hno x hx'

/-- an insertion that lands -/
theorem inserted (hb : T.Bst) (hg : T.get key = none) (hl : Lands T key v) :
    Holds (T.insert key v 0) c key v := by
  left
  rw [C0Node.entries_insert hb]
  rcases hl hg with hno | ⟨b, hmem⟩
  · exact ⟨false, self_mem_insertNew (lookup_none.mp hno)⟩
  · exact ⟨b, mem_insertNew_of_mem hmem⟩

end Holds

/-- **A flush keeps every live pair.** -/
theorem flush_holds {T : C0Node} {s : Store} {live : CStr → Option CStr} (hT : s.T = .null)
    (hb : T.Bst) (hc : s.c1.Wf) (hheld : ∀ k v, live k = some v → Holds T s.c1 k v)
    (hok : FlushOk s.c1 live T) : ∃ s', c0Dump T s = some s' ∧ s'.cache = s.cache ∧
      s'.T = .null ∧ s'.c1.Wf ∧ ∀ k v, live k = some v → Holds s'.T s'.c1 k v := by
  by_cases hnull : T = .null
  · subst hnull
    exact ⟨s, c0Dump_null s, rfl, hT, hc, hT ▸ hheld⟩
  · obtain ⟨hst, hspill, hsame⟩ := hok hnull
    have hne : T.entries ≠ [] := by
      intro h
      have := C0Node.c0Size_eq T
      rw [h] at this
      exact hnull (c0Size_eq_zero.mp this)
    obtain ⟨c', hins, hwf, -, hcur⟩ := c1BatchInsert_eq hc hne hb hst hspill
    refine ⟨{ s with c1 := c', txLog := none }, ?_, rfl, hT, hwf, fun k v hk => ?_⟩
    · rw [c0Dump_eq hnull, hins]
      rfl
    · right
      refine ⟨by rw [hT]; rfl, ?_⟩
      rw [hcur]
      rcases hheld k v hk with ⟨b, hmem⟩ | ⟨-, e, he, rfl, rfl, hf, hl⟩
      · have hs := hst _ hmem
        exact ⟨_, hs, rfl, rfl, rfl, batch_mem_current hmem hs.fits rfl
          (hsame _ hmem (by simp only [hk]; simp))⟩
      · exact ⟨e, he, rfl, rfl, hf, old_mem_current hl (by rw [lineFlag_keyval he.fits, hf])⟩

namespace Live.Inv
variable {s : Store} {live : CStr → Option CStr}

/-- the cache after `cache_put(key, value)` agrees with the new map -/
theorem cachePut (h : Live.Inv s live) (key value : CStr) : ∃ cache,
    cachePut s.cache key value = some cache ∧ cache.Wf ∧
      ∀ k v, (k, v) ∈ cache.nodes → Function.update live key (some value) k = some v := by
  obtain ⟨cache, hp, hwf, -, hmem⟩ := h.cache.put key value
  refine ⟨cache, hp, hwf, fun k v hn => ?_⟩
  rcases hmem _ hn with e | ⟨hne, hn'⟩
  · obtain ⟨rfl, rfl⟩ := Prod.mk.inj e
    simp
  · rw [Function.update_of_ne hne]
    exact h.cached k v hn'

/-- the section of an insertion that lands -/
theorem insertC0 (h : Live.Inv s live) {key value : CStr} (hg : s.T.get key = none)
    (hok : InsertOk ⟨s, live⟩ key value) : ∃ s1, insertC0 s key value = some s1 ∧
      s1.cache = s.cache ∧ s1.T.Bst ∧ s1.c1.Wf ∧
      ∀ k v, Function.update live key (some value) k = some v → Holds s1.T s1.c1 k v := by
  have hb := h.bst.insert key value 0
  have hheld : ∀ k v, Function.update live key (some value) k = some v →
      Holds (s.T.insert key value 0) s.c1 k v := by
    intro k v hk
    by_cases hkk : k = key
    · subst hkk
      obtain rfl : value = v := by simpa using hk
      exact Holds.inserted h.bst hg hok.1
    · rw [Function.update_of_ne hkk] at hk
      exact (h.held k v hk).insert h.bst hkk value 0
  unfold LsmKv.insertC0
  dsimp only
  split_ifs with hsize
  · obtain ⟨s1, hd, hca, hT, hwf, hall⟩ := flush_holds (s := { s with T := .null }) rfl hb h.c1
      hheld (hok.2 hsize)
    exact ⟨s1, hd, hca, hT ▸ C0Node.bst_null, hwf, hall⟩
  · exact ⟨_, rfl, rfl, hb, h.c1, hheld⟩

theorem put (h : Live.Inv s live) {key value : CStr}
    (hok : s.T.get key = none → InsertOk ⟨s, live⟩ key value) :
    ∃ s', server1PutRequest s key value = some (exitSuccess, success, s') ∧
      Live.Inv s' (Function.update live key (some value)) := by
  obtain ⟨cache, hp, hcwf, hcached⟩ := h.cachePut key value
  obtain ⟨s1, h1, hca, hb, hwf, hheld⟩ : ∃ s1, putC0 s key value = some s1 ∧
      s1.cache = s.cache ∧ s1.T.Bst ∧ s1.c1.Wf ∧
      ∀ k v, Function.update live key (some value) k = some v → Holds s1.T s1.c1 k v := by
    cases hg : s.T.get key with
    | none =>
      rw [putC0_insert hg]
      exact h.insertC0 hg (hok hg)
    | some e =>
      rw [putC0_root hg]
      refine ⟨_, rfl, rfl, h.bst.update hg _ _, h.c1, fun k v hk => ?_⟩
      by_cases hkk : k = key
      · subst hkk
        obtain rfl : value = v := by simpa using hk
        exact Or.inl ⟨true, (C0Node.mem_update h.bst hg _ _ _).mpr (Or.inl rfl)⟩
      · rw [Function.update_of_ne hkk] at hk
        exact (h.held k v hk).update h.bst hkk hg _ _
  refine ⟨{ s1 with cache := cache }, ?_, ⟨hcwf, hcached, hb, hwf, hheld⟩⟩
  rw [← hca] at hp
  simp [server1PutRequest, h1, hp]

/-- a request that touches the cache alone, by a lookup -/
theorem lookup (h : Live.Inv s live) (key : CStr) :
    Live.Inv { s with cache := (cacheGet s.cache key).2 } live :=
  ⟨h.cache.get key, fun k v hn => h.cached k v ((h.cache.mem_get key _).mp hn), h.bst, h.c1, h.held⟩

theorem insert (h : Live.Inv s live) {key value : CStr}
    (hok : ¬ s.cache.Has key → s.T.get key = none → InsertOk ⟨s, live⟩ key value) :
    ∃ rc ret s', server1InsertRequest s key value = some (rc, ret, s') ∧
      Live.Inv s' (accept live (.insert key value) rc) := by
  unfold server1InsertRequest
  cases hc : (cacheGet s.cache key).1 with
  | some v =>
    simp only [hc]
    exact ⟨_, _, _, rfl, h.lookup key⟩
  | none =>
    simp only [hc]
    cases hg : s.T.get key with
    | some e => exact ⟨_, _, _, rfl, h.lookup key⟩
    | none =>
      obtain ⟨hno, hsame⟩ := cacheGet_miss hc
      obtain ⟨cache, hp, hcwf, hcached⟩ := h.cachePut key value
      obtain ⟨s1, h1, hca, hb, hwf, hheld⟩ := h.insertC0 hg (hok hno hg)
      rw [← hca] at hp
      refine ⟨exitSuccess, success, { s1 with cache := cache }, ?_, hcwf, hcached, hb, hwf, hheld⟩
      simp [hsame, h1, hp]

theorem delete (h : Live.Inv s live) (key : CStr) :
    ∃ s', server1DeleteRequest s key = some (exitSuccess, success, s') ∧
      Live.Inv s' (Function.update live key none) := by
  obtain ⟨hcwf, hmem⟩ := h.cache.invalidate key
  obtain ⟨hca, hc1, -⟩ := deleteC0_frame s key
  refine ⟨_, rfl, ?_, ?_, ?_, ?_, ?_⟩
  · rw [hca]
    exact hcwf
  · intro k v hn
    rw [hca] at hn
    obtain ⟨hn', hne⟩ := (hmem _).mp hn
    rw [Function.update_of_ne hne]
    exact h.cached k v hn'
  · show (deleteC0 s key).T.Bst
    unfold deleteC0
    cases hg : s.T.get key with
    | none => exact h.bst.insert _ _ _
    | some e =>
      obtain ⟨a, b, -, heq, -⟩ := C0Node.update_root hg e.value 1
      have hk := (C0Node.get_mem hg).2
      simp only [hk, heq]
      exact h.bst.update hg _ _
  · show (deleteC0 s key).c1.Wf
    rw [hc1]
    exact h.c1
  · intro k v hk
    have hne : k ≠ key := by rintro rfl; simp at hk
    rw [Function.update_of_ne hne] at hk
    have hold := h.held k v hk
    show Holds (deleteC0 s key).T (deleteC0 s key).c1 k v
    rw [hc1]
    unfold deleteC0
    cases hg : s.T.get key with
    | none => exact hold.insert h.bst hne _ _
    | some e =>
      obtain ⟨a, b, -, heq, -⟩ := C0Node.update_root hg e.value 1
      have hk := (C0Node.get_mem hg).2
      simp only [hk, heq]
      exact hold.update h.bst hne hg _ _

/-- **A live key that can be read is read right.** -/
theorem get (h : Live.Inv s live) {key v : CStr} (hv : live key = some v)
    (hr : Readable s key) : ∃ s', server1GetRequest s key = some (exitSuccess, v, s') ∧
      Live.Inv s' live := by
  unfold server1GetRequest
  cases hc : (cacheGet s.cache key).1 with
  | some w =>
    obtain rfl : v = w := by
      have := h.cached key w (cacheGet_hit hc).1
      rw [hv] at this
      exact Option.some.inj this
    simp only [hc]
    exact ⟨_, rfl, h.lookup key⟩
  | none =>
    obtain ⟨hno, hsame⟩ := cacheGet_miss hc
    obtain ⟨cache, hp, hcwf, hcached⟩ := h.cachePut key v
    have hupd : Function.update live key (some v) = live := by
      rw [← hv]
      exact Function.update_eq_self key live
    rw [hupd] at hcached
    have hinv : Live.Inv { s with cache := cache } live := ⟨hcwf, hcached, h.bst, h.c1, h.held⟩
    simp only [hc, hsame]
    cases hg : s.T.get key with
    | some e =>
      have hfind := C0Node.get_find h.bst hg
      have hval : e.value.chars = v := by
        rcases h.held key v hv with ⟨b, hmem⟩ | ⟨hnone, -⟩
        · have := h.bst.lookup_mem hmem
          rw [C0Node.find] at hfind
          rw [show Entry.key ⟨key, ⟨v, b⟩, 0⟩ = key from rfl, hfind] at this
          rw [Option.some.inj this]
        · rw [hnone] at hfind
          cases hfind
      simp only [hval, hp]
      exact ⟨_, rfl, hinv⟩
    | none =>
      rcases hr with hhas | hroot | ⟨hnone, hcov⟩
      · exact absurd hhas hno
      · exact absurd hg hroot
      · rcases h.held key v hv with ⟨b, hmem⟩ | ⟨-, e, he, rfl, rfl, -, hl⟩
        · exact absurd rfl (lookup_none.mp hnone _ hmem)
        · obtain ⟨file, hfile, md, hmd, j, hj, ⟨line, p⟩, hx, hk, hlt⟩ := hcov
          have hp' := List.mem_zipIdx_iff_getElem?.mp hx
          obtain ⟨md', hmd', hidx⟩ := h.c1.metadata
          obtain rfl : md = md' := Option.some.inj (hmd.symm.trans hmd')
          have hcur := current_eq hfile
          have hsort := h.c1.sorted
          have hwfl := h.c1.wfLine
          rw [hcur] at hl hsort hwfl hidx
          obtain rfl : line = keyval e := hsort.eq_of_key (List.mem_of_getElem? hp') hl
            (hk.trans (lineKey_keyval he.fits).symm)
          obtain ⟨i, hi⟩ := Option.ne_none_iff_exists'.mp he.slot
          have hget := c1Get_found hfile hmd hsort hwfl hidx hp'
            (by rw [first_keyval he.fits, hk]) (by rwa [hk]) (by rwa [hk]) hlt
          rw [hk, lineVal_keyval he.fits] at hget
          simp only [hget, hp, Option.bind_eq_bind, Option.bind_some]
          exact ⟨_, rfl, hinv⟩

/-- **One step.** -/
theorem step {t : Tracked} (h : Live.Inv t.store t.live) {r : Req} (hok : StepOk t r) :
    ∃ t', t.step r = some t' ∧ Live.Inv t'.store t'.live := by
  unfold Tracked.step
  cases r with
  | put key value =>
    obtain ⟨s', hs, hi⟩ := h.put hok
    exact ⟨_, by rw [serve, hs]; rfl, hi⟩
  | insert key value =>
    obtain ⟨rc, ret, s', hs, hi⟩ := h.insert hok
    exact ⟨_, by rw [serve, hs]; rfl, hi⟩
  | delete key =>
    obtain ⟨s', hs, hi⟩ := h.delete key
    exact ⟨_, by rw [serve, hs]; rfl, hi⟩
  | get key =>
    obtain ⟨v, hv⟩ := Option.ne_none_iff_exists'.mp hok.1
    obtain ⟨s', hs, hi⟩ := h.get hv hok.2
    exact ⟨_, by rw [serve, hs]; rfl, hi⟩
  | timer =>
    obtain ⟨s1, hd, hca, hT, hwf, hall⟩ := flush_holds (s := { t.store with T := .null }) rfl
      h.bst h.c1 h.held hok
    refine ⟨_, by rw [serve, myTimerHandler, hd]; rfl, ?_, ?_, hT ▸ C0Node.bst_null, hwf, hall⟩
    · rw [hca]
      exact h.cache
    · rw [hca]
      exact h.cached

end Live.Inv

/-- **Store refinement for live keys.**  A run whose steps meet `StepOk` is defined, and after it
every live key that can be read is read with its live value. -/
theorem get_live (rs : List Req) (hg : Guarded Tracked.step StepOk Tracked.empty rs) :
    ∃ t, run Tracked.step Tracked.empty rs = some t ∧ ∀ k v, t.live k = some v →
      Readable t.store k → ∃ s, serve t.store (.get k) = some (exitSuccess, v, s) := by
  obtain ⟨t, ht, hi⟩ := run_of_guarded
    (fun t r (h : Live.Inv t.store t.live) hok => h.step hok) Live.Inv.empty hg
  refine ⟨t, ht, fun k v hv hr => ?_⟩
  obtain ⟨s', hs, -⟩ := hi.get hv hr
  exact ⟨s', hs⟩

/-- a run through a flush, a merge and a deletion -/
def liveRun : List Req :=
  [.put ['b'] ['1'], .timer, .put ['a'] ['2'], .get ['b'], .timer, .delete ['b'],
    .insert ['c'] ['3'], .get ['a']]

theorem get_live_liveRun :
    ∃ t, run Tracked.step Tracked.empty liveRun = some t ∧ ∀ k v, t.live k = some v →
      Readable t.store k → ∃ s, serve t.store (.get k) = some (exitSuccess, v, s) :=
  get_live liveRun (by decide +kernel)

/-- the keys that fill the table and then the cache -/
def crowd : List CStr :=
  ("0123456789".toList.flatMap fun c => "abcdefghij".toList.map fun d => [c, d]) ++ [['a']]

/-- a key put, flushed, put again and flushed, then evicted from the cache -/
def staleRun : List Req :=
  [.put ['y'] ['o', 'l', 'd'], .timer, .put ['y'] ['n', 'e', 'w'], .timer] ++
    crowd.map fun k => .put k ['v']

theorem staleRun_reads : (run Tracked.step Tracked.empty staleRun).map (fun t =>
      (t.live ['y'], (serve t.store (.get ['y'])).map fun r => (r.1, r.2.1)))
    = some (some ['n', 'e', 'w'], some (exitSuccess, ['o', 'l', 'd'])) := by
  decide +kernel

/-- The value of the first batch is read again. -/
theorem get_stale : ∃ t s, run Tracked.step Tracked.empty staleRun = some t ∧
    t.live ['y'] = some ['n', 'e', 'w'] ∧
    serve t.store (.get ['y']) = some (exitSuccess, ['o', 'l', 'd'], s) := by
  obtain ⟨t, ht, h⟩ := Option.map_eq_some_iff.mp staleRun_reads
  obtain ⟨hlive, hget⟩ := Prod.mk.inj h
  obtain ⟨⟨rc, ret, s⟩, hr, h'⟩ := Option.map_eq_some_iff.mp hget
  obtain ⟨rfl, rfl⟩ := Prod.mk.inj h'
  exact ⟨t, s, ht, hlive, hr⟩

end LsmKv
