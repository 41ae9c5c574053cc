import LsmKv.Lib.Run
import LsmKv.Journal

/-!
# Replay and live execution

From a state just after a flush a server handles client writes, crashes and recovers.

* `c0Map`               the map of `_T`, as far as its values can still be read;
* `ReplayAgrees`        after the crash `recover` leaves the map the live `_T` had;
* `NoDump`              the write does not fill the table;
* `ReplayOk`            the write is not one on which live and replay part;
* `Replayed`            the replay against the live run: one tree, and the replay's cache is the
                        part of the live cache that the writes have touched;
* `replay_agrees_iff`   the replay agrees after every prefix exactly when every write is `ReplayOk`.
-/

namespace LsmKv

open KeySorted Run

/-- the number `rand` returns for it, and a request line -/
abbrev ClientReq := Int × CStr

/-- one client request, once its lock is granted -/
def handle (s : Store) (r : ClientReq) : Option Store :=
  (serverHandlerBlocking s r.1 r.2).map Prod.snd

/-- the line is a PUT or INSERT with a value, or a DELETE -/
def IsWrite (r : ClientReq) : Prop := (command r.2).write ≠ none

instance (r : ClientReq) : Decidable (IsWrite r) := inferInstanceAs (Decidable (_ ≠ _))

/-- What `_T` says of a key: nothing, if its value points into a request line that was freed. -/
def c0Map (T : C0Node) (key : CStr) : Option (Option (CStr × Int)) :=
  match T.find key with
  | none => some none
  | some e => if e.value.lent then none else some (some (e.value.chars, e.flag))

def SameMap (T T' : C0Node) : Prop := ∀ k, ∃ m, c0Map T k = some m ∧ c0Map T' k = some m

def ReplayAgrees (s0 : Store) (rs : List ClientReq) : Prop :=
  ∃ s rc s', run handle s0 rs = some s ∧ recover (crash s) = some (rc, s') ∧ SameMap s.T s'.T

/-- a state just after a flush -/
structure Flushed (s : Store) : Prop where
  tree : s.T = .null
  log : s.txLog = none
  cache : s.cache.Wf

/-- the write does not bring the table to its limit -/
def NoDumpReq (s : Store) : Req → Prop
  | .put key value => s.T.get key = none → (s.T.insert key value 0).c0Size ≠ maxC0Size
  | .insert key value => ¬ s.cache.Has key → s.T.get key = none →
      (s.T.insert key value 0).c0Size ≠ maxC0Size
  | _ => True

instance (s : Store) : (q : Req) → Decidable (NoDumpReq s q)
  | .put _ _ => inferInstanceAs (Decidable (_ → _))
  | .insert _ _ => inferInstanceAs (Decidable (_ → _))
  | .delete _ => inferInstanceAs (Decidable True)
  | .get _ => inferInstanceAs (Decidable True)
  | .timer => inferInstanceAs (Decidable True)

def NoDump (s : Store) (r : ClientReq) : Prop := ∀ q ∈ (command r.2).write, NoDumpReq s q

instance (s : Store) (r : ClientReq) : Decidable (NoDump s r) :=
  inferInstanceAs (Decidable (∀ q ∈ (command r.2).write, NoDumpReq s q))

/-- no PUT of the key at the root, and no INSERT of a key that is cached and not in `_T` -/
def ReplayOkReq (s : Store) : Req → Prop
  | .put key _ => s.T.get key = none
  | .insert key _ => s.cache.Has key → s.T.find key ≠ none
  | _ => True

def ReplayOk (s : Store) (r : ClientReq) : Prop := ∀ q ∈ (command r.2).write, ReplayOkReq s q

/-! ## the simulation -/

/-- The live state `s` and the state `r` of the replay. -/
structure Replayed (s r : Store) : Prop where
  tree : r.T = s.T
  bst : s.T.Bst
  own : ∀ e ∈ s.T.entries, e.value.lent = false
  wf : s.cache.Wf
  wf' : r.cache.Wf
  older : ∃ U, s.cache.keys = r.cache.keys ++ U ∧ ∀ k ∈ U, s.T.find k = none
  held : ∀ k ∈ r.cache.keys, s.T.find k ≠ none

/-- Both caches after a use of `k`: what the live one keeps of the older names. -/
theorem touch_append (R U : List CStr) (k : CStr) (n : Nat) (hnd : (R ++ U).Nodup) :
    ∃ V, (k :: (R ++ U).erase k).take n = (k :: R.erase k).take n ++ V ∧
      ∀ u ∈ V, u ∈ U ∧ u ≠ k := by
  have hU : U.Nodup := (List.nodup_append.mp hnd).2.1
  have herase : (R ++ U).erase k = R.erase k ++ U.erase k := by
    rw [List.erase_append]
    split_ifs with hk
    · rw [List.erase_of_not_mem fun hu => (List.nodup_append.mp hnd).2.2 k hk k hu rfl]
    · rw [List.erase_of_not_mem hk]
  refine ⟨(U.erase k).take (n - (k :: R.erase k).length), ?_, fun u hu => ?_⟩
  · rw [herase, ← List.cons_append, List.take_append]
  · have hu' := List.mem_of_mem_take hu
    exact ⟨List.mem_of_mem_erase hu', ((List.Nodup.mem_erase_iff hU).mp hu').1⟩

namespace Replayed
variable {s r : Store}

theorem nodup (h : Replayed s r) {U : List CStr} (hU : s.cache.keys = r.cache.keys ++ U) :
    (r.cache.keys ++ U).Nodup := hU ▸ h.wf.nodup

/-- a cached key of the replay is cached live -/
theorem has (h : Replayed s r) {k : CStr} (hk : r.cache.Has k) : s.cache.Has k := by
  obtain ⟨U, hU, -⟩ := h.older
  rw [Cache.Wf.has_iff] at hk ⊢
  rw [hU]
  exact List.mem_append_left _ hk

/-- and a key that is cached live and stands in `_T` is cached in the replay -/
theorem has' (h : Replayed s r) {k : CStr} (hk : s.cache.Has k) (hT : s.T.find k ≠ none) :
    r.cache.Has k := by
  obtain ⟨U, hU, hold⟩ := h.older
  rw [Cache.Wf.has_iff] at hk ⊢
  rw [hU] at hk
  exact (List.mem_append.mp hk).resolve_right fun hu => hT (hold k hu)

/-- **A write that both apply**: an insertion, then the cache. -/
theorem write (h : Replayed s r) (key value : CStr) :
    ∃ cache cache', cachePut s.cache key value = some cache ∧
      cachePut r.cache key value = some cache' ∧
      Replayed { s with T := s.T.insert key value 0, cache := cache }
        { r with T := r.T.insert key value 0, cache := cache' } := by
  obtain ⟨cache, hp, hwf, -, -⟩ := h.wf.put key value
  obtain ⟨cache', hp', hwf', -, -⟩ := h.wf'.put key value
  have hk := h.wf.keys_put hp
  have hk' := h.wf'.keys_put hp'
  obtain ⟨U, hU, hold⟩ := h.older
  obtain ⟨V, hV, hVU⟩ := touch_append r.cache.keys U key cacheSize (h.nodup hU)
  refine ⟨cache, cache', hp, hp', ?_, h.bst.insert _ _ _, ?_, hwf, hwf', ⟨V, ?_, ?_⟩, ?_⟩
  · show r.T.insert key value 0 = s.T.insert key value 0
    rw [h.tree]
  · intro e he
    rw [C0Node.entries_insert h.bst] at he
    rcases mem_insertNew he with rfl | he'
    · rfl
    · exact h.own e he'
  · show cache.keys = cache'.keys ++ V
    rw [hk, hk', hU, hV]
  · intro u hu
    obtain ⟨hu', hne⟩ := hVU u hu
    show (s.T.insert key value 0).find u = none
    rw [C0Node.find_insert h.bst, if_neg hne]
    exact hold u hu'
  · intro k hk1
    show (s.T.insert key value 0).find k ≠ none
    rw [C0Node.find_insert h.bst]
    split_ifs with hkk
    · cases s.T.find k <;> simp
    · rw [show cache'.keys = _ from hk'] at hk1
      rcases List.mem_cons.mp (List.mem_of_mem_take hk1) with e | hk2
      · exact absurd e hkk
      · exact h.held k (List.mem_of_mem_erase hk2)

/-- a lookup of a key that both have cached -/
theorem lookup (h : Replayed s r) {key : CStr} (hk : r.cache.Has key) :
    Replayed { s with cache := (cacheGet s.cache key).2 }
      { r with cache := (cacheGet r.cache key).2 } := by
  obtain ⟨U, hU, hold⟩ := h.older
  refine ⟨h.tree, h.bst, h.own, h.wf.get key, h.wf'.get key, ⟨U, ?_, hold⟩, ?_⟩
  · rw [Cache.Wf.keys_get (h.has hk), Cache.Wf.keys_get hk, hU,
      List.erase_append_left _ (Cache.Wf.has_iff.mp hk), List.cons_append]
  · intro k hk1
    rw [Cache.Wf.keys_get hk] at hk1
    rcases List.mem_cons.mp hk1 with rfl | hk2
    · exact h.held k (Cache.Wf.has_iff.mp hk)
    · exact h.held k (List.mem_of_mem_erase hk2)

/-- a deletion -/
theorem delete (h : Replayed s r) (key : CStr) :
    Replayed { deleteC0 s key with cache := cacheInvalidate s.cache key }
      { deleteC0 r key with cache := cacheInvalidate r.cache key } := by
  obtain ⟨U, hU, hold⟩ := h.older
  -- the tree after it, in the terms that the invariant asks for
  obtain ⟨T, hTs, hTr, hb, hown, hfind⟩ : ∃ T, (deleteC0 s key).T = T ∧ (deleteC0 r key).T = T ∧
      T.Bst ∧ (∀ e ∈ T.entries, e.value.lent = false) ∧
      (∀ k, k ≠ key → T.find k = s.T.find k) := by
    unfold deleteC0
    rw [h.tree]
    cases hg : s.T.get key with
    | none =>
      refine ⟨_, rfl, rfl, h.bst.insert _ _ _, fun e he => ?_, fun k hk => ?_⟩
      · rw [C0Node.entries_insert h.bst] at he
        rcases mem_insertNew he with rfl | he'
        · rfl
        · exact h.own e he'
      · rw [C0Node.find_insert h.bst, if_neg hk]
    | some e =>
      obtain ⟨-, -, -, heq, -⟩ := C0Node.update_root hg e.value 1
      obtain ⟨hmem, hkey⟩ := C0Node.get_mem hg
      simp only [hkey, heq]
      refine ⟨_, rfl, rfl, h.bst.update hg _ _, fun x hx => ?_, fun k hk => ?_⟩
      · rcases (C0Node.mem_update h.bst hg _ _ x).mp hx with rfl | ⟨-, hx'⟩
        · exact h.own e hmem
        · exact h.own x hx'
      · rw [C0Node.find_update h.bst hg, if_neg hk]
  have hnd := h.nodup hU
  have hk' : (cacheInvalidate r.cache key).keys = r.cache.keys.erase key :=
    Cache.Wf.keys_invalidate key
  have hne : ∀ k ∈ r.cache.keys.erase key, k ≠ key := fun k hk =>
    ((List.Nodup.mem_erase_iff h.wf'.nodup).mp hk).1
  refine ⟨?_, ?_, ?_, (h.wf.invalidate key).1, (h.wf'.invalidate key).1, ⟨U.erase key, ?_, ?_⟩, ?_⟩
  · show (deleteC0 r key).T = (deleteC0 s key).T
    rw [hTs, hTr]
  · show (deleteC0 s key).T.Bst
    rw [hTs]
    exact hb
  · show ∀ e ∈ (deleteC0 s key).T.entries, e.value.lent = false
    rw [hTs]
    exact hown
  · show (cacheInvalidate s.cache key).keys = (cacheInvalidate r.cache key).keys ++ _
    rw [hk', Cache.Wf.keys_invalidate, hU, List.erase_append]
    split_ifs with hk
    · rw [List.erase_of_not_mem fun hu => (List.nodup_append.mp hnd).2.2 key hk key hu rfl]
    · rw [List.erase_of_not_mem hk]
  · intro u hu
    have hU' : U.Nodup := (List.nodup_append.mp hnd).2.1
    obtain ⟨hne', hu'⟩ := (List.Nodup.mem_erase_iff hU').mp hu
    show (deleteC0 s key).T.find u = none
    rw [hTs, hfind u hne']
    exact hold u hu'
  · intro k hk
    rw [show (_ : List CStr) = _ from hk'] at hk
    show (deleteC0 s key).T.find k ≠ none
    rw [hTs, hfind k (hne k hk)]
    exact h.held k (List.mem_of_mem_erase hk)

/-- **One write**, live and replayed. -/
theorem step (h : Replayed s r) {q : Req} (hq : q.writes ≠ none) (hn : NoDumpReq s q)
    (hok : ReplayOkReq s q) : ∃ a b, serve s q = some a ∧ serve r q = some b ∧
      Replayed a.2.2 b.2.2 ∧ (a.2.2.c1 = s.c1 ∧ a.2.2.txLog = s.txLog) ∧
      b.2.2.c1 = r.c1 ∧ b.2.2.txLog = r.txLog := by
  cases q with
  | put key value =>
    have hg : s.T.get key = none := hok
    have hg' : r.T.get key = none := h.tree ▸ hg
    have hsize : (s.T.insert key value 0).c0Size ≠ maxC0Size := hn hg
    have hsize' : (r.T.insert key value 0).c0Size ≠ maxC0Size := h.tree ▸ hsize
    obtain ⟨cache, cache', hp, hp', hrel⟩ := h.write key value
    exact ⟨_, _, put_small hg hsize hp, put_small hg' hsize' hp', hrel, ⟨rfl, rfl⟩, rfl, rfl⟩
  | insert key value =>
    by_cases hc : s.cache.Has key
    · have hc' := h.has' hc (hok hc)
      exact ⟨_, _, insert_duplicate (Or.inl hc) value, insert_duplicate (Or.inl hc') value,
        h.lookup hc', ⟨rfl, rfl⟩, rfl, rfl⟩
    · have hc' : ¬ r.cache.Has key := fun hr => hc (h.has hr)
      by_cases hg : s.T.get key = none
      · have hg' : r.T.get key = none := h.tree ▸ hg
        have hsize : (s.T.insert key value 0).c0Size ≠ maxC0Size := hn hc hg
        have hsize' : (r.T.insert key value 0).c0Size ≠ maxC0Size := h.tree ▸ hsize
        obtain ⟨cache, cache', hp, hp', hrel⟩ := h.write key value
        exact ⟨_, _, insert_small hc hg hsize hp, insert_small hc' hg' hsize' hp', hrel,
          ⟨rfl, rfl⟩, rfl, rfl⟩
      · have hg' : r.T.get key ≠ none := h.tree ▸ hg
        refine ⟨_, _, insert_duplicate (Or.inr hg) value, insert_duplicate (Or.inr hg') value,
          ?_, ⟨rfl, rfl⟩, rfl, rfl⟩
        rw [(cacheGet_miss (cacheGet_none_iff.mpr hc)).2,
          (cacheGet_miss (cacheGet_none_iff.mpr hc')).2]
        exact h
  | delete key =>
    obtain ⟨hca, hc1, hlog⟩ := deleteC0_frame s key
    obtain ⟨hca', hc1', hlog'⟩ := deleteC0_frame r key
    have hdel := h.delete key
    rw [← hca, ← hca'] at hdel
    exact ⟨_, _, rfl, rfl, hdel, ⟨hc1, hlog⟩, hc1', hlog'⟩
  | get key => exact absurd rfl hq
  | timer => exact absurd rfl hq

/-- the maps agree -/
theorem sameMap (h : Replayed s r) : SameMap s.T r.T := by
  intro k
  rw [h.tree]
  unfold c0Map
  cases hf : s.T.find k with
  | none => exact ⟨_, rfl, rfl⟩
  | some e =>
    have hown := h.own e (lookup_some hf).1
    simp only [hown]
    exact ⟨_, rfl, rfl⟩

/-- a process that has not run `c1_init` cannot flush -/
theorem no_batch {c : C1} (hn : c.fileCounter = -1) (hmd : c.metadata = none)
    (nodes : List Entry) : c1BatchInsert c nodes = none := by
  unfold c1BatchInsert
  dsimp only
  rw [hn, if_neg (by decide)]
  simp [c1Publish, hmd]

/-- **A write on which live and replay part.** -/
theorem diverge (h : Replayed s r) (hn : r.c1.fileCounter = -1) (hmd : r.c1.metadata = none)
    {q : Req} (hbad : ¬ ReplayOkReq s q) {a b : Reply} (ha : serve s q = some a)
    (hb : serve r q = some b) : ¬ SameMap a.2.2.T b.2.2.T := by
  intro hsame
  cases q with
  | put key value =>
    -- the node at the root points into the request line
    obtain ⟨e, hg⟩ := Option.ne_none_iff_exists'.mp (show s.T.get key ≠ none from hbad)
    obtain ⟨s1, cache, h1, -, rfl⟩ := put_eq ha
    rw [putC0_root hg] at h1
    cases h1
    obtain ⟨m, hm, -⟩ := hsame key
    rw [c0Map, C0Node.find_update h.bst hg, if_pos rfl] at hm
    cases hm
  | insert key value =>
    -- the replay's cache does not have the key
    obtain ⟨hc, hf⟩ : s.cache.Has key ∧ s.T.find key = none := by
      simpa [ReplayOkReq] using hbad
    have hc' : ¬ r.cache.Has key := fun hr => h.held key (Cache.Wf.has_iff.mp hr) hf
    have hg' : r.T.get key = none := by
      rw [h.tree]
      exact C0Node.get_none_of_find h.bst hf
    rw [serve, insert_duplicate (Or.inl hc)] at ha
    cases ha
    obtain ⟨m, hm, hm'⟩ := hsame key
    rw [c0Map, show C0Node.find s.T key = none from hf] at hm
    cases hm
    rcases insert_eq hb with ⟨hdup, -⟩ | ⟨-, -, s1, cache, h1, -, rfl⟩
    · exact hdup.elim hc' fun hr => hr hg'
    · rcases insertC0_cases h1 with ⟨-, rfl⟩ | ⟨hsize, hd⟩
      · rw [c0Map, C0Node.find_insert (h.tree ▸ h.bst), if_pos rfl, h.tree, hf] at hm'
        cases hm'
      · have hne : r.T.insert key value 0 ≠ .null := fun hnull => by
          rw [hnull] at hsize
          cases hsize
        rw [c0Dump_eq hne, no_batch hn hmd] at hd
        cases hd
  | delete key => exact hbad trivial
  | get key => exact hbad trivial
  | timer => exact hbad trivial

end Replayed

/-! ## runs -/

/-- the entry that `log_transaction` appends for a request -/
def entryOf (r : ClientReq) : Transaction := ⟨r.1, r.2, 1, 1⟩

/-- the log of a run that starts without one -/
def logOf (rs : List ClientReq) : Option (List Transaction) :=
  if rs = [] then none else some (rs.map entryOf)

theorem logOf_snoc (rs : List ClientReq) (r : ClientReq) :
    logOf (rs ++ [r]) = some ((logOf rs).getD [] ++ [entryOf r]) := by
  unfold logOf
  rw [if_neg (by simp), List.map_append]
  split_ifs with h
  · simp [h]
  · rfl

/-- the live state after a run and the replay of its requests -/
structure RunPair (s0 s : Store) (rs : List ClientReq) : Prop where
  live : run handle s0 rs = some s
  c1 : s.c1 = s0.c1
  log : s.txLog = logOf rs
  replay : ∀ L, ∃ r, (rs.map entryOf).foldlM replayEntry { crash s0 with txLog := L } = some r ∧
    r.c1 = (crash s0).c1 ∧ Replayed s r

variable {s0 s : Store} {rs : List ClientReq} {a : ClientReq}

theorem foldlM_snoc (rs : List ClientReq) (a : ClientReq) (r : Store) :
    ((rs ++ [a]).map entryOf).foldlM replayEntry r
      = ((rs.map entryOf).foldlM replayEntry r).bind fun r => replayEntry r (entryOf a) := by
  rw [List.map_append, List.foldlM_append]
  refine congrArg _ (funext fun r => ?_)
  simp

theorem handle_eq {q : Req} (hq : (command a.2).write = some q) (s : Store) :
    handle s a = (serve (logTransaction s a.1 a.2) q).map fun reply => reply.2.2 :=
  handler_write hq s a.1

theorem replayEntry_eq {q : Req} (hq : (command a.2).write = some q) (r : Store) :
    replayEntry r (entryOf a) = (serve r q).map fun reply => reply.2.2 :=
  replay_write (show (1 : Int) ≠ 0 by decide) hq r

/-- the log entry is all that the live state has and the invariant does not see -/
theorem Replayed.logged {r : Store} (h : Replayed s r) (txid : Int) (data : CStr) :
    Replayed (logTransaction s txid data) r :=
  ⟨h.tree, h.bst, h.own, h.wf, h.wf', h.older, h.held⟩

theorem RunPair.nil (h0 : Flushed s0) : RunPair s0 s0 [] := by
  refine ⟨rfl, rfl, h0.log, fun L => ⟨_, rfl, rfl, ?_⟩⟩
  refine ⟨h0.tree.symm, by rw [h0.tree]; exact C0Node.bst_null, by rw [h0.tree]; simp, h0.cache,
    Cache.Wf.empty, ⟨s0.cache.keys, rfl, ?_⟩, ?_⟩
  · rw [h0.tree]
    exact fun k _ => rfl
  · intro k hk
    cases hk

theorem RunPair.snoc (h : RunPair s0 s rs) (hw : IsWrite a) (hn : NoDump s a)
    (hok : ReplayOk s a) : ∃ s', RunPair s0 s' (rs ++ [a]) := by
  obtain ⟨q, hq⟩ := Option.ne_none_iff_exists'.mp hw
  have hstep : ∀ L, ∃ r x y, (rs.map entryOf).foldlM replayEntry { crash s0 with txLog := L }
      = some r ∧ serve (logTransaction s a.1 a.2) q = some x ∧ serve r q = some y ∧
      Replayed x.2.2 y.2.2 ∧ x.2.2.c1 = s0.c1 ∧
      x.2.2.txLog = (logTransaction s a.1 a.2).txLog ∧ y.2.2.c1 = (crash s0).c1 := by
    intro L
    obtain ⟨r, hr, hc1, hrel⟩ := h.replay L
    have hn' : NoDumpReq (logTransaction s a.1 a.2) q := by
      have := hn q hq
      cases q <;> exact this
    have hok' : ReplayOkReq (logTransaction s a.1 a.2) q := by
      have := hok q hq
      cases q <;> exact this
    obtain ⟨x, y, hx, hy, hrel', ⟨hxc, hxl⟩, hyc, -⟩ :=
      (hrel.logged a.1 a.2).step (writes_of_write hq) hn' hok'
    exact ⟨r, x, y, hr, hx, hy, hrel', hxc.trans h.c1, hxl, hyc.trans hc1⟩
  obtain ⟨-, x, -, -, hx, -, -, hxc, hxl, -⟩ := hstep none
  refine ⟨x.2.2, ?_, hxc, ?_, fun L => ?_⟩
  · rw [run_snoc, h.live, Option.bind_some, handle_eq hq, hx]
    rfl
  · rw [hxl, logOf_snoc, ← h.log]
    rfl
  · obtain ⟨r, x', y, hr, hx', hy, hrel, -, -, hyc⟩ := hstep L
    obtain rfl : x = x' := Option.some.inj (hx.symm.trans hx')
    refine ⟨y.2.2, ?_, hyc, hrel⟩
    rw [foldlM_snoc, hr, Option.bind_some, replayEntry_eq hq, hy]
    rfl

theorem RunPair.crash (h : RunPair s0 s rs) : crash s = { crash s0 with txLog := logOf rs } := by
  unfold LsmKv.crash
  rw [h.c1, h.log]

/-- after such a run the replay agrees -/
theorem RunPair.agrees (h : RunPair s0 s rs) : ReplayAgrees s0 rs := by
  obtain ⟨r, hr, -, hrel⟩ := h.replay (logOf rs)
  by_cases hnil : rs = []
  · subst hnil
    refine ⟨s, -1, LsmKv.crash s, h.live, ?_, ?_⟩
    · rw [recover, h.crash]
      rfl
    · cases hr
      exact hrel.sameMap
  · refine ⟨s, 0, { r with txLog := none }, h.live, ?_, hrel.sameMap⟩
    have hlog : logOf rs = some (rs.map entryOf) := by rw [logOf, if_neg hnil]
    rw [h.crash, recover, hlog]
    simp only
    rw [← hlog, hr]
    rfl

/-- a run pair at the end of every guarded run -/
theorem runPair_of_guarded (h0 : Flushed s0) (rs : List ClientReq) (hw : ∀ r ∈ rs, IsWrite r)
    (hn : Guarded handle NoDump s0 rs) (hg : Guarded handle ReplayOk s0 rs) :
    ∃ s, RunPair s0 s rs := by
  induction rs using List.reverseRecOn with
  | nil => exact ⟨s0, RunPair.nil h0⟩
  | append_singleton rs a ih =>
    obtain ⟨hn1, hn2⟩ := (guarded_snoc handle NoDump s0 rs a).mp hn
    obtain ⟨hg1, hg2⟩ := (guarded_snoc handle ReplayOk s0 rs a).mp hg
    obtain ⟨s, hs⟩ := ih (fun r hr => hw r (List.mem_append_left _ hr)) hn1 hg1
    exact hs.snoc (hw a (by simp)) (hn2 s hs.live) (hg2 s hs.live)

/-- a write that fills nothing leaves c1 and the log alone -/
theorem NoDumpReq.frame {s : Store} {q : Req} (hq : q.writes ≠ none) (hn : NoDumpReq s q)
    {x : Reply} (hx : serve s q = some x) : x.2.2.c1 = s.c1 ∧ x.2.2.txLog = s.txLog := by
  cases q with
  | put key value =>
    obtain ⟨s1, cache, h1, -, rfl⟩ := put_eq hx
    cases hg : s.T.get key with
    | none =>
      rw [putC0_insert hg, insertC0_small (hn hg)] at h1
      cases h1
      exact ⟨rfl, rfl⟩
    | some e =>
      rw [putC0_root hg] at h1
      cases h1
      exact ⟨rfl, rfl⟩
  | insert key value =>
    rcases insert_eq hx with ⟨-, rfl⟩ | ⟨hno, hg, s1, cache, h1, -, rfl⟩
    · exact ⟨rfl, rfl⟩
    · rw [insertC0_small (hn hno hg)] at h1
      cases h1
      exact ⟨rfl, rfl⟩
  | delete key =>
    cases hx
    exact (deleteC0_frame s key).2
  | get key => exact absurd rfl hq
  | timer => exact absurd rfl hq

/-- where the replay agrees after one more write, that write is `ReplayOk` -/
theorem RunPair.ok_of_agrees (h : RunPair s0 s rs) (hn : NoDump s a)
    (hagree : ReplayAgrees s0 (rs ++ [a])) : ReplayOk s a := by
  obtain ⟨s', rc, r', hrun, hrec, hsame⟩ := hagree
  intro q hq
  by_contra hbad
  rw [run_snoc, h.live, Option.bind_some, handle_eq hq] at hrun
  obtain ⟨x, hx, rfl⟩ := Option.map_eq_some_iff.mp hrun
  have hn' : NoDumpReq (logTransaction s a.1 a.2) q := by
    have := hn q hq
    cases q <;> exact this
  have hbad' : ¬ ReplayOkReq (logTransaction s a.1 a.2) q := by
    cases q <;> exact hbad
  obtain ⟨hxc, hxl⟩ := hn'.frame (writes_of_write hq) hx
  have hlog : x.2.2.txLog = logOf (rs ++ [a]) := by
    rw [hxl, logOf_snoc, ← h.log]
    rfl
  have hcrash : LsmKv.crash x.2.2 = { LsmKv.crash s0 with txLog := logOf (rs ++ [a]) } := by
    unfold LsmKv.crash
    rw [hlog, hxc]
    show (⟨_, _, { s.c1 with fileCounter := -1, metadata := none }, _⟩ : Store) = _
    rw [h.c1]
  obtain ⟨r, hr, hc1, hrel⟩ := h.replay (logOf (rs ++ [a]))
  have hsome : logOf (rs ++ [a]) = some ((rs ++ [a]).map entryOf) := by rw [logOf, if_neg (by simp)]
  rw [hcrash, recover, hsome] at hrec
  simp only at hrec
  rw [foldlM_snoc, ← hsome, hr] at hrec
  simp only [Option.bind_eq_bind, Option.bind_some, Option.bind_eq_some_iff] at hrec
  obtain ⟨r1, hr1, hrec⟩ := hrec
  rw [replayEntry_eq hq] at hr1
  obtain ⟨y, hy, rfl⟩ := Option.map_eq_some_iff.mp hr1
  cases hrec
  exact (hrel.logged a.1 a.2).diverge (by rw [hc1]; rfl) (by rw [hc1]; rfl) hbad' hx hy hsame

/-- **When replay equals live execution.**  From a state just after a flush, for writes that do
not flush again: the replay agrees with the live tree after every prefix exactly when no write of
the run is a PUT of the key at the root or an INSERT of a key that is cached and not in `_T`. -/
theorem replay_agrees_iff (s0 : Store) (h0 : Flushed s0) (rs : List ClientReq)
    (hw : ∀ r ∈ rs, IsWrite r) (hn : Guarded handle NoDump s0 rs) :
    (∀ p, p <+: rs → ReplayAgrees s0 p) ↔ Guarded handle ReplayOk s0 rs := by
  constructor
  · intro hall
    induction rs using List.reverseRecOn with
    | nil => trivial
    | append_singleton rs a ih =>
      obtain ⟨hn1, hn2⟩ := (guarded_snoc handle NoDump s0 rs a).mp hn
      have hw1 : ∀ r ∈ rs, IsWrite r := fun r hr => hw r (List.mem_append_left _ hr)
      have hg1 := ih hw1 hn1 fun p hp => hall p (hp.trans (List.prefix_append rs [a]))
      obtain ⟨s, hs⟩ := runPair_of_guarded h0 rs hw1 hn1 hg1
      refine (guarded_snoc handle ReplayOk s0 rs a).mpr ⟨hg1, fun t ht => ?_⟩
      obtain rfl : s = t := Option.some.inj (hs.live.symm.trans ht)
      exact hs.ok_of_agrees (hn2 s ht) (hall _ (List.prefix_refl _))
  · rintro hg p ⟨q, rfl⟩
    obtain ⟨hn1, -⟩ := (guarded_append handle NoDump s0 p q).mp hn
    obtain ⟨hg1, -⟩ := (guarded_append handle ReplayOk s0 p q).mp hg
    obtain ⟨s, hs⟩ := runPair_of_guarded h0 p (fun r hr => hw r (List.mem_append_left _ hr)) hn1 hg1
    exact hs.agrees

/-- a flush after PUT a 1: the key is cached and in c1 -/
def cachedStore : Store where
  cache := ⟨[(['a'], ['1'])], 1⟩
  T := .null
  c1 := ⟨0, fun n => if n = 0 then some [keyval ⟨['a'], ⟨['1'], false⟩, 0⟩] else none,
    some ⟨0, fun _ => -1⟩, some ⟨0, fun _ => -1⟩⟩
  txLog := none

theorem flushed_cachedStore : Flushed cachedStore where
  tree := rfl
  log := rfl
  cache := ⟨List.nodup_singleton _, rfl, by decide⟩

def mixedRun : List ClientReq :=
  [(11, "PUT b 2".toList), (12, "INSERT b 3".toList), (13, "PUT c 4".toList),
    (14, "DELETE b".toList)]

theorem replay_agrees_mixedRun :
    (∀ p, p <+: mixedRun → ReplayAgrees cachedStore p) ↔
      Guarded handle ReplayOk cachedStore mixedRun :=
  replay_agrees_iff cachedStore flushed_cachedStore mixedRun (by decide) (by decide)

/-- The insertion that was a duplicate when it was live is applied by the replay. -/
theorem duplicate_replayed : Flushed cachedStore ∧ ∃ s rc s',
    run handle cachedStore [(11, "INSERT a 2".toList)] = some s ∧
    recover (crash s) = some (rc, s') ∧ c0Map s.T ['a'] = some none ∧
    c0Map s'.T ['a'] = some (some (['2'], 0)) ∧ ¬ SameMap s.T s'.T := by
  refine ⟨flushed_cachedStore, _, _, _, rfl, rfl, rfl, rfl, fun h => ?_⟩
  obtain ⟨m, hm, hm'⟩ := h ['a']
  cases hm
  cases hm'

end LsmKv
