import LsmKv.Lib.Lru
import LsmKv.Store.Reads

/-!
# Writes that are still cached

The cache stands before `_T` and c1: whatever these make of a value, a key that was written and
not pushed out of the cache since is read with that value.

* `Req.named`        the key that a request looks up in the cache;
* `others k rs`      the other keys that the requests `rs` name;
* `Cached S k v c`   `(k, v)` is cached, with none but keys of `S` used since;
* `recent_write`     a key is read as written until as many others are named as the cache has nodes.
-/

namespace LsmKv

open Lru Run

/-- the key that a request names -/
def Req.named : Req → Option CStr
  | .put key _ => some key
  | .insert key _ => some key
  | .delete key => some key
  | .get key => some key
  | .timer => none

/-- the keys but `k` that the requests name -/
def others (k : CStr) (rs : List Req) : Finset CStr := (rs.filterMap Req.named).toFinset.erase k

/-- no PUT or DELETE of `k`; an INSERT may come -/
def Spares (k : CStr) (r : Req) : Prop := r ≠ .delete k ∧ ∀ w, r ≠ .put k w

/-- the pair is cached, with keys of `S` before it -/
structure Cached (S : Finset CStr) (k v : CStr) (c : Cache) : Prop where
  wf : c.Wf
  cached : (k, v) ∈ c.nodes
  recent : Recent S k c.keys

namespace Cached
variable {S : Finset CStr} {k v key : CStr} {c : Cache}

theorem has (h : Cached S k v c) : c.Has k := ⟨v, h.cached⟩

theorem lookup (h : Cached S k v c) (hkey : key = k ∨ key ∈ S ∧ key ≠ k) :
    Cached S k v (cacheGet c key).2 := by
  refine ⟨h.wf.get key, (h.wf.mem_get key _).mpr h.cached, ?_⟩
  by_cases hhas : c.Has key
  · rw [Cache.Wf.keys_get hhas]
    rcases hkey with rfl | ⟨hS, hne⟩
    · exact Recent.head ..
    · exact h.recent.front hS hne
  · rw [(cacheGet_miss (cacheGet_none_iff.mpr hhas)).2]
    exact h.recent

theorem put (h : Cached S k v c) (hS : key ∈ S) (hne : key ≠ k) (hcard : S.card < cacheSize)
    {w : CStr} {c' : Cache} (hp : cachePut c key w = some c') : Cached S k v c' := by
  obtain ⟨c'', hp', hwf, -, hmem⟩ := h.wf.put key w
  obtain rfl : c' = c'' := Option.some.inj (hp.symm.trans hp')
  have hrecent : Recent S k c'.keys := by
    rw [h.wf.keys_put hp]
    exact h.recent.touch h.wf.nodup hS hne hcard
  refine ⟨hwf, ?_, hrecent⟩
  obtain ⟨u, hu⟩ := Cache.Wf.has_iff.mpr hrecent.mem
  rcases hmem _ hu with he | ⟨-, hold⟩
  · exact absurd (Prod.mk.inj he).1.symm hne
  · exact h.wf.unique h.cached hold ▸ hu

theorem invalidate (h : Cached S k v c) (hne : key ≠ k) : Cached S k v (cacheInvalidate c key) := by
  obtain ⟨hwf, hmem⟩ := h.wf.invalidate key
  refine ⟨hwf, (hmem _).mpr ⟨h.cached, hne.symm⟩, ?_⟩
  rw [Cache.Wf.keys_invalidate]
  exact h.recent.erase hne

/-- **One request** that names `k` or a key of `S`. -/
theorem step {s s' : Store} (h : Cached S k v s.cache) (hcard : S.card < cacheSize) {r : Req}
    (hnamed : ∀ x ∈ r.named, x ≠ k → x ∈ S) (hspare : Spares k r) (hs : s.step r = some s') :
    Cached S k v s'.cache := by
  obtain ⟨reply, hserve, rfl⟩ := Option.map_eq_some_iff.mp hs
  have hcase : ∀ x ∈ r.named, x = k ∨ x ∈ S ∧ x ≠ k := fun x hx =>
    (eq_or_ne x k).imp_right fun hne => ⟨hnamed x hx hne, hne⟩
  cases r with
  | put key w =>
    have hne : key ≠ k := fun he => hspare.2 w (by rw [he])
    obtain ⟨s1, cache, h1, hp, rfl⟩ := put_eq hserve
    exact h.put (hnamed key rfl hne) hne hcard hp
  | insert key w =>
    rcases insert_eq hserve with ⟨-, rfl⟩ | ⟨hno, -, s1, cache, h1, hp, rfl⟩
    · exact h.lookup (hcase key rfl)
    · have hne : key ≠ k := fun he => hno (he ▸ h.has)
      exact h.put (hnamed key rfl hne) hne hcard hp
  | delete key =>
    have hne : key ≠ k := fun he => hspare.1 (by rw [he])
    cases hserve
    rw [← (deleteC0_frame s key).1] at h
    exact h.invalidate hne
  | get key =>
    rcases get_eq hserve with ⟨w, -, rfl⟩ | ⟨hno, w, cache, hp, rfl, -⟩
    · exact h.lookup (hcase key rfl)
    · have hne : key ≠ k := fun he => hno (he ▸ h.has)
      exact h.put (hnamed key rfl hne) hne hcard hp
  | timer =>
    obtain ⟨s1, hd, rfl⟩ := Option.map_eq_some_iff.mp hserve
    exact (c0Dump_frame hd).1 ▸ h

theorem run {s s' : Store} (h : Cached S k v s.cache) (hcard : S.card < cacheSize) {rs : List Req}
    (hnamed : others k rs ⊆ S) (hspare : ∀ r ∈ rs, Spares k r)
    (hr : Run.run Store.step s rs = some s') : Cached S k v s'.cache := by
  have hnamed' : ∀ r ∈ rs, ∀ x ∈ r.named, x ≠ k → x ∈ S := fun r hr x hx hne =>
    hnamed (Finset.mem_erase.mpr ⟨hne, List.mem_toFinset.mpr (List.mem_filterMap.mpr ⟨r, hr, hx⟩)⟩)
  refine inv_of_guarded (fun s r s' (h : Cached S k v s.cache)
    (hok : (∀ x ∈ r.named, x ≠ k → x ∈ S) ∧ Spares k r) hs => h.step hcard hok.1 hok.2 hs) h ?_ hr
  exact guarded_of_forall fun r hr _ => ⟨hnamed' r hr, hspare r hr⟩

theorem get {s : Store} (h : Cached S k v s.cache) :
    ∃ s', serve s (.get k) = some (exitSuccess, v, s') := by
  cases hc : (cacheGet s.cache k).1 with
  | none => exact absurd h.has (cacheGet_miss hc).1
  | some w =>
    obtain rfl : w = v := h.wf.unique (cacheGet_hit hc).1 h.cached
    refine ⟨{ s with cache := (cacheGet s.cache k).2 }, ?_⟩
    show server1GetRequest s k = _
    unfold server1GetRequest
    simp only [hc]

end Cached

/-- an accepted PUT or INSERT puts its pair at the head of the cache -/
theorem cached_of_write {s s' : Store} {k v ret : CStr} {r : Req} (hw : s.cache.Wf)
    (hr : r = .put k v ∨ r = .insert k v) (hs : serve s r = some (exitSuccess, ret, s')) :
    Cached ∅ k v s'.cache := by
  obtain ⟨cache, hp, hcache⟩ : ∃ cache, cachePut s.cache k v = some cache ∧ s'.cache = cache := by
    rcases hr with rfl | rfl
    · obtain ⟨s1, cache, -, hp, he⟩ := put_eq hs
      cases he
      exact ⟨cache, hp, rfl⟩
    · rcases insert_eq hs with ⟨-, he⟩ | ⟨-, -, s1, cache, -, hp, he⟩
      · exact absurd (congrArg Prod.fst he).symm exit_ne
      · cases he
        exact ⟨cache, hp, rfl⟩
  obtain ⟨c', hp', hwf, hmem, -⟩ := hw.put k v
  obtain rfl : cache = c' := Option.some.inj (hp.symm.trans hp')
  rw [hcache]
  refine ⟨hwf, hmem, ?_⟩
  rw [hw.keys_put hp, show cacheSize = 100 + 1 from rfl, List.take_succ_cons]
  exact Recent.head ..

/-- **A write is read back while fewer than `CACHE_SIZE` other keys were named since**, whatever
the table and c1 have made of it: a GET returns the value, an INSERT finds the duplicate. -/
theorem recent_write {as bs : List Req} {r : Req} {k v ret : CStr} {s0 s1 s : Store}
    (ha : run Store.step Store.empty as = some s0) (hr : r = .put k v ∨ r = .insert k v)
    (hacc : serve s0 r = some (exitSuccess, ret, s1)) (hb : run Store.step s1 bs = some s)
    (hspare : ∀ q ∈ bs, Spares k q) (hfew : (others k bs).card < cacheSize) :
    (∃ s', serve s (.get k) = some (exitSuccess, v, s')) ∧
      ∀ w, ∃ s', serve s (.insert k w) = some (exitFailure, duplicate, s') := by
  have hstart := cached_of_write (wf_of_run ha) hr hacc
  have hcached : Cached (others k bs) k v s.cache :=
    Cached.run ⟨hstart.wf, hstart.cached, hstart.recent.mono (Finset.empty_subset _)⟩ hfew
      (fun _ hx => hx) hspare hb
  exact ⟨hcached.get, fun w => ⟨_, insert_duplicate (Or.inl hcached.has) w⟩⟩

/-- c1 keeps the first value of the key, the cache has the second one -/
theorem recent_write_flushed : ∃ s0 s1 s s' ret,
    run Store.step Store.empty [.put ['a'] ['1'], .timer] = some s0 ∧
      serve s0 (.put ['a'] ['2']) = some (exitSuccess, ret, s1) ∧
      run Store.step s1 [.timer, .put ['b'] ['3'], .insert ['a'] ['4']] = some s ∧
      c1Get s.c1 ['a'] = some (some ['1']) ∧
      serve s (.get ['a']) = some (exitSuccess, ['2'], s') := by
  have hview : ((run Store.step Store.empty [.put ['a'] ['1'], .timer]).bind fun s0 =>
      (serve s0 (.put ['a'] ['2'])).bind fun reply =>
        (run Store.step reply.2.2 [.timer, .put ['b'] ['3'], .insert ['a'] ['4']]).map fun s =>
          (reply.1, c1Get s.c1 ['a'])) = some (exitSuccess, some (some ['1'])) := by
    decide +kernel
  obtain ⟨s0, h0, hview⟩ := Option.bind_eq_some_iff.mp hview
  obtain ⟨⟨rc, ret, s1⟩, h1, hview⟩ := Option.bind_eq_some_iff.mp hview
  obtain ⟨s, h2, hview⟩ := Option.map_eq_some_iff.mp hview
  obtain ⟨rfl, hc⟩ := Prod.mk.inj hview
  have hspare : ∀ q ∈ [Req.timer, .put ['b'] ['3'], .insert ['a'] ['4']], Spares ['a'] q := by
    simp [Spares]
  obtain ⟨⟨s', hget⟩, -⟩ := recent_write h0 (Or.inl rfl) h1 h2 hspare (by decide)
  exact ⟨s0, s1, s, s', ret, h0, h1, h2, hc, hget⟩

end LsmKv
