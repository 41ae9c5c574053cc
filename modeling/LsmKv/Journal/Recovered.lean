import LsmKv.C0.Depth
import LsmKv.C1.Restart
import LsmKv.C1.Steps
import LsmKv.Journal.CacheCount
import LsmKv.Journal.Replay
import LsmKv.Store.Live
import LsmKv.Store.Reads

/-!
# Reads after a crash (`journal.c`, `server-part1.c`)

A server logs the writes of its clients, serves them and flushes, until it crashes and `recover`
replays `tx_log`.

* `Serving`, `Tracked.serving`   a request line or the timer; the store and the map of live keys;
* `ServingOk`        the request runs into no defect of the layers, of the replay or of the limit;
* `Restores`         a new process finds on the disk what c1 had in memory;
* `Rebuilds s r`     the replay in `r` has the tree of the live `s`, and caches keys of it alone;
* `Rebuilds.step`    one write, live and replayed;
* `Recoverable`      what such steps keep;
* `Resumed`          what the server finds when it comes up again, and what its reads keep;
* `recovered_get`    after a crash and the recovery the live keys are read right.
-/

namespace LsmKv

open KeySorted Run

inductive Serving where
  | line (txid : Int) (inputLine : CStr)
  | timer
  deriving DecidableEq, Repr

/-- what a line asks of the store -/
def Command.req : Command → Option Req
  | .get key => some (.get key)
  | c => c.write

/-- the map of the live keys after a line -/
def liveAfter (t : Tracked) (txid : Int) (inputLine : CStr) : CStr → Option CStr :=
  match (command inputLine).write with
  | none => t.live
  | some r =>
    ((serve (logTransaction t.store txid inputLine) r).map fun reply =>
      accept t.live r reply.1).getD t.live

def Tracked.serving (t : Tracked) : Serving → Option Tracked
  | .line txid inputLine => (serverHandlerBlocking t.store txid inputLine).map fun r =>
      ⟨r.2, liveAfter t txid inputLine⟩
  | .timer => t.step .timer

/-- The request meets `StepOk`, its replay does what it does, and it does not overflow the table. -/
def ReqOk (t : Tracked) (r : Req) : Prop :=
  StepOk t r ∧ ReplayOkReq t.store r ∧ ¬ Overflows t.store r

def ServingOk (t : Tracked) : Serving → Prop
  | .line _ inputLine => ∀ r ∈ (command inputLine).req, ReqOk t r
  | .timer => StepOk t .timer

instance (s : Store) : DecidablePred (ReplayOkReq s)
  | .put _ _ => inferInstanceAs (Decidable (_ = _))
  | .insert _ _ => inferInstanceAs (Decidable (_ → _))
  | .delete _ => inferInstanceAs (Decidable True)
  | .get _ => inferInstanceAs (Decidable True)
  | .timer => inferInstanceAs (Decidable True)

instance (s : Store) : DecidablePred (Overflows s)
  | .delete _ => inferInstanceAs (Decidable (_ ∧ _))
  | .put _ _ => inferInstanceAs (Decidable False)
  | .insert _ _ => inferInstanceAs (Decidable False)
  | .get _ => inferInstanceAs (Decidable False)
  | .timer => inferInstanceAs (Decidable False)

instance (t : Tracked) (r : Req) : Decidable (ReqOk t r) :=
  inferInstanceAs (Decidable (_ ∧ _ ∧ _))

instance (t : Tracked) : DecidablePred (ServingOk t)
  | .line _ inputLine => inferInstanceAs (Decidable (∀ r ∈ (command inputLine).req, ReqOk t r))
  | .timer => inferInstanceAs (Decidable (StepOk t .timer))

/-! ## c1 on the disk -/

/-- a new process finds c1 on the disk as it was -/
def Restores (c : C1) : Prop := restart c = c

theorem Restores.empty : Restores C1.empty := rfl

theorem restores_publish {c : C1} {r : Int × C1} (h : c1Publish c = some r) : Restores r.2 := by
  unfold c1Publish at h
  split at h
  · cases h
  · rename_i currfile hfile
    obtain ⟨md, -, h⟩ := Option.bind_eq_some_iff.mp h
    obtain ⟨md', hup, h⟩ := Option.bind_eq_some_iff.mp h
    cases h
    show C1.mk md'.counterValue _ _ _ = _
    rw [counterValue_updateSstable hup]

/-- a batch that succeeds -/
theorem restores_batchInsert {c c' : C1} {nodes : List Entry}
    (h : c1BatchInsert c nodes = some (0, c')) : Restores c' := by
  unfold c1BatchInsert at h
  dsimp only at h
  split_ifs at h
  · split at h
    · cases h
    · obtain ⟨out, -, h⟩ := Option.bind_eq_some_iff.mp h
      exact restores_publish h
  · exact restores_publish h

/-- a flush: c1 is restored after it, and the log is gone -/
theorem c0Dump_restores {T : C0Node} {s s' : Store} {live : CStr → Option CStr} (hT : T ≠ .null)
    (hb : T.Bst) (hc : s.c1.Wf) (hok : FlushOk s.c1 live T) (h : c0Dump T s = some s') :
    Restores s'.c1 ∧ s'.txLog = none := by
  obtain ⟨hst, hspill, -⟩ := hok hT
  have hne : T.entries ≠ [] := by
    intro hnil
    have hsize := C0Node.c0Size_eq T
    rw [hnil] at hsize
    exact hT (c0Size_eq_zero.mp hsize)
  obtain ⟨c', hins, -⟩ := c1BatchInsert_eq hc hne hb hst hspill
  rw [c0Dump_eq hT, hins] at h
  cases h
  exact ⟨restores_batchInsert hins, rfl⟩

/-! ## one write, live and replayed -/

/-- The live state `s` and the state `r` of the replay. -/
structure Rebuilds (s r : Store) : Prop where
  tree : r.T = s.T
  c1 : r.c1 = (crash s).c1
  wf : r.cache.Wf
  held : ∀ k ∈ r.cache.keys, k ∈ s.T.keys

/-- what a write that does not dump leaves in the table -/
theorem mem_tableAfter {s : Store} (hb : s.T.Bst) {r : Req} (hn : NoDumpReq s r)
    (hok : ReplayOkReq s r) {key : CStr} (hkey : r.writes = some key) (k : CStr)
    (hk : k = key ∨ k ∈ s.T.keys) : k ∈ (tableAfter s r).keys := by
  have hgrown : ∀ value, (s.T.insert key value 0).c0Size ≠ maxC0Size →
      k ∈ (grown s.T key value).keys := by
    intro value hsize
    rw [grown, if_neg hsize, C0Node.mem_keys_insert hb]
    exact hk.symm
  cases r with
  | put key' value =>
    cases hkey
    have hroot : s.T.get key = none := hok
    show k ∈ C0Node.keys (if _ then _ else _)
    rw [if_neg (not_not.mpr hroot)]
    exact hgrown value (hn hroot)
  | insert key' value =>
    cases hkey
    show k ∈ C0Node.keys (if _ then _ else _)
    split_ifs with hdup
    · rcases hk with rfl | hk
      · rcases hdup with hhas | hroot
        · obtain ⟨e, he⟩ := Option.ne_none_iff_exists'.mp (hok hhas)
          exact C0Node.mem_keys.mpr ⟨e, lookup_some he⟩
        · obtain ⟨e, he⟩ := Option.ne_none_iff_exists'.mp hroot
          exact mem_keys_of_get he
      · exact hk
    · rw [not_or, not_not] at hdup
      exact hgrown value (hn hdup.1 hdup.2)
  | delete key' =>
    cases hkey
    exact (mem_keys_tombstoned hb key k).mpr hk.symm
  | get key' => cases hkey
  | timer => cases hkey

/-- what a write leaves in the cache -/
theorem serve_keys {s : Store} (hw : s.cache.Wf) {r : Req} {key : CStr}
    (hkey : r.writes = some key) {x : Reply} (hx : serve s r = some x) :
    ∀ k ∈ x.2.2.cache.keys, k = key ∨ k ∈ s.cache.keys := by
  have hput : ∀ {value : CStr} {cache : Cache}, cachePut s.cache key value = some cache →
      ∀ k ∈ cache.keys, k = key ∨ k ∈ s.cache.keys := by
    intro value cache hp k hk
    rw [hw.keys_put hp] at hk
    exact (List.mem_cons.mp (List.mem_of_mem_take hk)).imp_right List.mem_of_mem_erase
  cases r with
  | put key' value =>
    cases hkey
    obtain ⟨s1, cache, -, hp, rfl⟩ := put_eq hx
    exact hput hp
  | insert key' value =>
    cases hkey
    rcases insert_eq hx with ⟨-, rfl⟩ | ⟨-, -, s1, cache, -, hp, rfl⟩
    · intro k hk
      exact Or.inr (((hw.get_perm key).map Prod.fst).mem_iff.mp hk)
    · exact hput hp
  | delete key' =>
    cases hkey
    cases hx
    intro k hk
    rw [show Cache.keys _ = (cacheInvalidate (deleteC0 s key).cache key).keys from rfl,
      (deleteC0_frame s key).1, Cache.Wf.keys_invalidate] at hk
    exact Or.inr (List.mem_of_mem_erase hk)
  | get key' => cases hkey
  | timer => cases hkey

namespace Rebuilds
variable {s r : Store}

/-- a key that the replay has cached is in the table -/
theorem not_has (h : Rebuilds s r) {key : CStr} (hk : key ∉ s.T.keys) : ¬ r.cache.Has key :=
  fun hhas => hk (h.held key (Cache.Wf.has_iff.mp hhas))

/-- **The replayed write does to the tree what the live one does.** -/
theorem tableAfter_eq (h : Rebuilds s r) (hb : s.T.Bst) (ha : s.T.Avl)
    (hsmall : s.T.c0Size < maxC0Size) {q : Req} (hok : ReplayOkReq s q) :
    tableAfter r q = tableAfter s q := by
  cases q with
  | put key value =>
    show (if _ then _ else _) = if _ then _ else _
    rw [h.tree]
  | insert key value =>
    show (if _ then _ else _) = if _ then _ else _
    rw [h.tree]
    by_cases hk : key ∈ s.T.keys
    · -- the table has the key: both leave it as it is
      have hgrown : grown s.T key value = s.T := by
        rw [grown, C0Node.insert_held hb ha hk, if_neg hsmall.ne]
      rw [hgrown, ite_self, ite_self]
    · have hroot : s.T.get key = none := by
        by_contra hne
        obtain ⟨e, he⟩ := Option.ne_none_iff_exists'.mp hne
        exact hk (mem_keys_of_get he)
      have hlive : ¬ s.cache.Has key := by
        intro hhas
        obtain ⟨e, he⟩ := Option.ne_none_iff_exists'.mp (hok hhas)
        exact hk (C0Node.mem_keys.mpr ⟨e, lookup_some he⟩)
      rw [if_neg (by simp [h.not_has hk, hroot]), if_neg (by simp [hlive, hroot])]
  | delete key =>
    show tombstoned r.T key = tombstoned s.T key
    rw [h.tree]
  | get key => exact h.tree
  | timer => rfl

/-- the replayed write is served, and does not dump -/
theorem serves (h : Rebuilds s r) (hb : s.T.Bst) (ha : s.T.Avl)
    (hsmall : s.T.c0Size < maxC0Size) {q : Req} (hq : q.writes ≠ none) (hn : NoDumpReq s q)
    (hok : ReplayOkReq s q) : (∃ y, serve r q = some y) ∧ NoDumpReq r q := by
  cases q with
  | put key value =>
    have hsize : (r.T.insert key value 0).c0Size ≠ maxC0Size := h.tree ▸ hn hok
    obtain ⟨cache, hp, -⟩ := h.wf.put key value
    exact ⟨⟨_, put_small (h.tree ▸ hok) hsize hp⟩, fun _ => hsize⟩
  | insert key value =>
    have hsize : ¬ r.cache.Has key → r.T.get key = none →
        (r.T.insert key value 0).c0Size ≠ maxC0Size := by
      intro hno hroot
      rw [h.tree] at hroot ⊢
      by_cases hk : key ∈ s.T.keys
      · rw [C0Node.insert_held hb ha hk]
        exact hsmall.ne
      · refine hn (fun hhas => ?_) hroot
        obtain ⟨e, he⟩ := Option.ne_none_iff_exists'.mp (hok hhas)
        exact hk (C0Node.mem_keys.mpr ⟨e, lookup_some he⟩)
    refine ⟨?_, hsize⟩
    by_cases hdup : r.cache.Has key ∨ r.T.get key ≠ none
    · exact ⟨_, insert_duplicate hdup value⟩
    · rw [not_or, not_not] at hdup
      obtain ⟨cache, hp, -⟩ := h.wf.put key value
      exact ⟨_, insert_small hdup.1 hdup.2 (hsize hdup.1 hdup.2) hp⟩
  | delete key => exact ⟨⟨_, rfl⟩, trivial⟩
  | get key => exact absurd rfl hq
  | timer => exact absurd rfl hq

/-- **One write**, live and replayed. -/
theorem step (h : Rebuilds s r) (hb : s.T.Bst) (ha : s.T.Avl) (hsmall : s.T.c0Size < maxC0Size)
    {q : Req} (hq : q.writes ≠ none) (hn : NoDumpReq s q) (hok : ReplayOkReq s q) {x : Reply}
    (hx : serve s q = some x) : ∃ y, serve r q = some y ∧ Rebuilds x.2.2 y.2.2 := by
  obtain ⟨⟨y, hy⟩, hn'⟩ := h.serves hb ha hsmall hq hn hok
  obtain ⟨key, hkey⟩ := Option.ne_none_iff_exists'.mp hq
  have hxT : x.2.2.T = tableAfter s q := step_table (congrArg (Option.map _) hx)
  have hyT : y.2.2.T = tableAfter r q := step_table (congrArg (Option.map _) hy)
  have hxc := (hn.frame hq hx).1
  have hyc := (hn'.frame hq hy).1
  refine ⟨y, hy, ?_, ?_, wf_step h.wf hy, fun k hk => ?_⟩
  · rw [hxT, hyT]
    exact h.tableAfter_eq hb ha hsmall hok
  · rw [hyc, h.c1]
    show _ = ({ x.2.2.c1 with fileCounter := -1, metadata := none } : C1)
    rw [hxc]
    rfl
  · rw [hxT]
    exact mem_tableAfter hb hn hok hkey k ((serve_keys h.wf hkey hy k hk).imp_right (h.held k))

end Rebuilds

/-! ## the invariant -/

/-- What a crash would leave is enough: the disk has c1, and the log has the tree. -/
structure Recoverable (t : Tracked) : Prop where
  live : Live.Inv t.store t.live
  avl : t.store.T.Avl
  small : t.store.T.c0Size < maxC0Size
  restores : Restores t.store.c1
  rebuilt : ∀ txLog, ∃ r, (t.store.txLog.getD []).foldlM replayEntry
    { crash t.store with txLog := txLog } = some r ∧ Rebuilds t.store r

/-- just after a flush there is nothing to replay -/
theorem rebuilt_flushed {s : Store} (hT : s.T = .null) (hlog : s.txLog = none)
    (txLog : Option (List Transaction)) : ∃ r, (s.txLog.getD []).foldlM replayEntry
      { crash s with txLog := txLog } = some r ∧ Rebuilds s r := by
  rw [hlog]
  exact ⟨_, rfl, hT.symm, rfl, Cache.Wf.empty, fun k hk => absurd hk List.not_mem_nil⟩

/-- a write that fills the table is flushed with it -/
theorem serve_dumps {s : Store} {live : CStr → Option CStr} (hb : s.T.Bst) (hc : s.c1.Wf)
    {q : Req} (hok : StepOk ⟨s, live⟩ q) (hfull : ¬ NoDumpReq s q) {x : Reply}
    (hx : serve s q = some x) : x.2.2.T = .null ∧ x.2.2.txLog = none ∧ Restores x.2.2.c1 := by
  have hdump : ∀ {key value : CStr} {s1 : Store}, insertC0 s key value = some s1 →
      (s.T.insert key value 0).c0Size = maxC0Size → InsertOk ⟨s, live⟩ key value →
      s1.T = .null ∧ s1.txLog = none ∧ Restores s1.c1 := by
    intro key value s1 h1 hsize hins
    rcases insertC0_cases h1 with ⟨hne, -⟩ | ⟨-, hd⟩
    · exact absurd hsize hne
    · have hT : s.T.insert key value 0 ≠ .null := by
        intro hnull
        rw [hnull] at hsize
        cases hsize
      obtain ⟨hres, hlog⟩ :=
        c0Dump_restores (s := { s with T := .null }) hT (hb.insert _ _ _) hc (hins.2 hsize) hd
      exact ⟨(c0Dump_frame hd).2, hlog, hres⟩
  cases q with
  | put key value =>
    simp only [NoDumpReq, not_forall, not_not] at hfull
    obtain ⟨hroot, hsize⟩ := hfull
    obtain ⟨s1, cache, h1, -, rfl⟩ := put_eq hx
    have hres := hdump ((putC0_insert hroot).symm.trans h1) hsize (hok hroot)
    exact hres
  | insert key value =>
    simp only [NoDumpReq, not_forall, not_not] at hfull
    obtain ⟨hno, hroot, hsize⟩ := hfull
    rcases insert_eq hx with ⟨hdup, -⟩ | ⟨-, -, s1, cache, h1, -, rfl⟩
    · exact (hdup.elim hno fun hne => hne hroot).elim
    · have hres := hdump h1 hsize (hok hno hroot)
      exact hres
  | delete key => exact absurd trivial hfull
  | get key => exact absurd trivial hfull
  | timer => exact absurd trivial hfull

namespace Recoverable
variable {t t' : Tracked}

theorem empty : Recoverable Tracked.empty where
  live := Live.Inv.empty
  avl := C0Node.avl_null
  small := by decide
  restores := Restores.empty
  rebuilt := rebuilt_flushed rfl rfl

/-- **A write** is logged, and served. -/
theorem write (h : Recoverable t) {txid : Int} {inputLine : CStr} {q : Req}
    (hcmd : (command inputLine).write = some q) (hok : ReqOk t q)
    (hs : Tracked.step ⟨logTransaction t.store txid inputLine, t.live⟩ q = some t') :
    Recoverable t' := by
  obtain ⟨hstep, hreplay, hover⟩ := hok
  have hq := writes_of_write hcmd
  -- the log is all that is new in the store
  generalize hlogged : logTransaction t.store txid inputLine = logged at hs
  have hT : logged.T = t.store.T := hlogged ▸ rfl
  have hc1 : logged.c1 = t.store.c1 := hlogged ▸ rfl
  have hlive : Live.Inv logged t.live := hlogged ▸
    ⟨h.live.cache, h.live.cached, h.live.bst, h.live.c1, h.live.held⟩
  have hstep' : StepOk ⟨logged, t.live⟩ q := by
    subst hlogged
    cases q <;> exact hstep
  have hreplay' : ReplayOkReq logged q := by
    subst hlogged
    cases q <;> exact hreplay
  have hover' : ¬ Overflows logged q := by
    subst hlogged
    cases q <;> exact hover
  have hsmall : logged.T.c0Size < maxC0Size := hT ▸ h.small
  obtain ⟨t'', hs', hinv⟩ := hlive.step hstep'
  obtain rfl : t' = t'' := Option.some.inj (hs.symm.trans hs')
  obtain ⟨x, hx, rfl⟩ := Option.map_eq_some_iff.mp hs
  have hx : serve logged q = some x := hx
  have hstore : logged.step q = some x.2.2 := by rw [Store.step, hx]; rfl
  have hrest : Restores x.2.2.c1 ∧ ∀ txLog, ∃ r, (x.2.2.txLog.getD []).foldlM replayEntry
      { crash x.2.2 with txLog := txLog } = some r ∧ Rebuilds x.2.2 r := by
    by_cases hn : NoDumpReq logged q
    · obtain ⟨hxc1, hlog⟩ := hn.frame hq hx
      have hsame : x.2.2.c1 = t.store.c1 := hxc1.trans hc1
      refine ⟨hsame ▸ h.restores, fun txLog => ?_⟩
      obtain ⟨r, hr, hrel⟩ := h.rebuilt txLog
      have hrel' : Rebuilds logged r := hlogged ▸ ⟨hrel.tree, hrel.c1, hrel.wf, hrel.held⟩
      obtain ⟨y, hy, hrel''⟩ :=
        hrel'.step hlive.bst (hT ▸ h.avl) hsmall hq hn hreplay' hx
      refine ⟨y.2.2, ?_, hrel''⟩
      have hstart : ({ crash x.2.2 with txLog := txLog } : Store)
          = { crash t.store with txLog := txLog } := by
        unfold crash
        rw [hsame]
      have hentries : x.2.2.txLog.getD []
          = t.store.txLog.getD [] ++ [⟨txid, inputLine, 1, 1⟩] := by
        rw [hlog, ← hlogged]
        rfl
      rw [hstart, hentries, List.foldlM_append, hr]
      show List.foldlM replayEntry r [_] = _
      rw [List.foldlM_cons, replay_write (show (1 : Int) ≠ 0 by decide) hcmd, hy]
      rfl
    · obtain ⟨hnull, hlog, hres⟩ := serve_dumps hlive.bst hlive.c1 hstep' hn hx
      exact ⟨hres, rebuilt_flushed hnull hlog⟩
  refine ⟨hinv, ?_, ?_, hrest.1, hrest.2⟩
  · show C0Node.Avl x.2.2.T
    rw [step_table hstore]
    exact avl_tableAfter (hT ▸ h.avl) q
  · exact (overflows_iff hlive.bst hsmall q).mp hover' x.2.2 hstore

/-- what only the cache is changed by -/
theorem of_cache (h : Recoverable t) (hinv : Live.Inv t'.store t'.live)
    (hT : t'.store.T = t.store.T) (hc1 : t'.store.c1 = t.store.c1)
    (hlog : t'.store.txLog = t.store.txLog) : Recoverable t' := by
  have hcrash : crash t'.store = crash t.store := by
    unfold crash
    rw [hc1, hlog]
  refine ⟨hinv, hT ▸ h.avl, hT ▸ h.small, hc1 ▸ h.restores, fun txLog => ?_⟩
  obtain ⟨r, hr, hrel⟩ := h.rebuilt txLog
  rw [hlog, hcrash]
  exact ⟨r, hr, hT ▸ hrel.tree, hcrash ▸ hrel.c1, hrel.wf, hT ▸ hrel.held⟩

theorem get (h : Recoverable t) {key : CStr} (hok : StepOk t (.get key))
    (hs : t.step (.get key) = some t') : Recoverable t' := by
  obtain ⟨t'', hs', hinv⟩ := h.live.step hok
  obtain rfl : t' = t'' := Option.some.inj (hs.symm.trans hs')
  obtain ⟨x, hx, rfl⟩ := Option.map_eq_some_iff.mp hs
  rcases get_eq hx with ⟨v, -, rfl⟩ | ⟨-, v, cache, -, rfl, -⟩
  · exact h.of_cache hinv rfl rfl rfl
  · exact h.of_cache hinv rfl rfl rfl

theorem timer (h : Recoverable t) (hok : StepOk t .timer) (hs : t.step .timer = some t') :
    Recoverable t' := by
  obtain ⟨t'', hs', hinv⟩ := h.live.step hok
  obtain rfl : t' = t'' := Option.some.inj (hs.symm.trans hs')
  obtain ⟨x, hx, rfl⟩ := Option.map_eq_some_iff.mp hs
  obtain ⟨s1, hd, rfl⟩ := Option.map_eq_some_iff.mp hx
  have hT1 : s1.T = .null := (c0Dump_frame hd).2
  by_cases hT : t.store.T = .null
  · rw [myTimerHandler, hT, c0Dump_null] at hd
    cases hd
    exact h.of_cache hinv hT.symm rfl rfl
  · obtain ⟨hres, hlog⟩ :=
      c0Dump_restores (s := { t.store with T := .null }) hT h.live.bst h.live.c1 hok hd
    exact ⟨hinv, hT1 ▸ C0Node.avl_null, by rw [show Store.T _ = _ from hT1]; decide, hres,
      rebuilt_flushed hT1 hlog⟩

/-- **One request line, or the timer.** -/
theorem serving (h : Recoverable t) {e : Serving} (hok : ServingOk t e)
    (hs : t.serving e = some t') : Recoverable t' := by
  cases e with
  | timer => exact h.timer hok hs
  | line txid inputLine =>
    obtain ⟨r, hr, rfl⟩ := Option.map_eq_some_iff.mp hs
    cases hcmd : (command inputLine).write with
    | some q =>
      have hreq : (command inputLine).req = some q := by
        cases hc : command inputLine with
        | get key => rw [hc] at hcmd; cases hcmd
        | bad | put | insert | delete | unknown => rw [hc] at hcmd; exact hcmd
      have hline := handler_write hcmd t.store txid
      rw [hr, Option.map_some] at hline
      obtain ⟨x, hx, hxr⟩ := Option.map_eq_some_iff.mp hline.symm
      have hlive : liveAfter t txid inputLine = accept t.live q x.1 := by
        simp only [liveAfter, hcmd, hx, Option.map_some, Option.getD_some]
      have hstep : Tracked.step ⟨logTransaction t.store txid inputLine, t.live⟩ q
          = some ⟨r.2, liveAfter t txid inputLine⟩ := by
        rw [hlive, ← hxr]
        exact congrArg (Option.map _) hx
      exact h.write hcmd (hok q hreq) hstep
    | none =>
      have hlive : liveAfter t txid inputLine = t.live := by rw [liveAfter, hcmd]
      rw [hlive]
      unfold serverHandlerBlocking at hr
      cases hc : command inputLine with
      | bad => rw [hc] at hr; cases hr; exact h
      | unknown => rw [hc] at hr; cases hr; exact h
      | get key =>
        rw [hc] at hr
        obtain ⟨x, hx, hr⟩ := Option.bind_eq_some_iff.mp hr
        cases hr
        have hreq : (command inputLine).req = some (.get key) := by rw [hc]; rfl
        refine h.get (hok _ hreq).1 ?_
        show Option.map _ (server1GetRequest t.store key) = _
        rw [hx]
        simp [accept]
      | put key value =>
        cases value with
        | none => rw [hc] at hr; cases hr
        | some value => rw [hc] at hcmd; cases hcmd
      | insert key value =>
        cases value with
        | none => rw [hc] at hr; cases hr
        | some value => rw [hc] at hcmd; cases hcmd
      | delete key => rw [hc] at hcmd; cases hcmd

end Recoverable

/-! ## after the recovery -/

/-- the key is at the root, or not in `_T` and covered by the index of c1: no cache is needed -/
def Survives (s : Store) (key : CStr) : Prop :=
  s.T.get key ≠ none ∨ s.T.find key = none ∧ Covered s.c1 key

/-- The server that has come up again: the table and the disk of `t`, and a cache whose count may be
above its nodes. -/
structure Resumed (t : Tracked) (s : Store) : Prop where
  tree : s.T = t.store.T
  c1 : s.c1 = t.store.c1
  count : ∃ k < cacheSize, s.cache.Over k
  cached : ∀ k v, (k, v) ∈ s.cache.nodes → t.live k = some v

/-- no operation makes up a pair -/
theorem mem_cachePut {c c' : Cache} {k v : CStr} (h : cachePut c k v = some c') :
    ∀ n ∈ c'.nodes, n = (k, v) ∨ n ∈ c.nodes := by
  unfold cachePut at h
  cases hv : (cacheGet c k).1 with
  | none =>
    rw [show cacheGet c k = (none, c) from Prod.ext hv (cacheGet_miss hv).2] at h
    dsimp only at h
    split_ifs at h
    · cases h
      exact fun n hn => List.mem_cons.mp (List.mem_of_mem_dropLast hn)
    · cases h
      exact fun n hn => List.mem_cons.mp hn
  | some w =>
    obtain ⟨-, he⟩ := cacheGet_hit hv
    rw [show cacheGet c k = (some w, (cacheGet c k).2) from Prod.ext hv rfl] at h
    cases h
    rw [he]
    intro n hn
    exact (List.mem_cons.mp hn).imp_right List.mem_of_mem_eraseP

namespace Resumed
variable {t : Tracked} {s : Store}

/-- a put finds room, or a node to evict -/
theorem cachePut (h : Resumed t s) {k v : CStr} (hv : t.live k = some v) :
    ∃ cache, cachePut s.cache k v = some cache ∧ Resumed t { s with cache := cache } := by
  obtain ⟨n, hn, hover⟩ := h.count
  have hdef : ∃ cache, LsmKv.cachePut s.cache k v = some cache := by
    unfold LsmKv.cachePut
    cases hc : (cacheGet s.cache k).1 with
    | none =>
      rw [show cacheGet s.cache k = (none, s.cache) from Prod.ext hc (cacheGet_miss hc).2]
      dsimp only
      split_ifs with hfull hnil
      · exact absurd hnil (hover.ne_nil hn hfull)
      · exact ⟨_, rfl⟩
      · exact ⟨_, rfl⟩
    | some w =>
      rw [show cacheGet s.cache k = (some w, (cacheGet s.cache k).2) from Prod.ext hc rfl]
      exact ⟨_, rfl⟩
  obtain ⟨cache, hp⟩ := hdef
  refine ⟨cache, hp, h.tree, h.c1, ⟨n, hn, hover.put hn hp⟩, fun k' v' hmem => ?_⟩
  rcases mem_cachePut hp _ hmem with he | hold
  · obtain ⟨rfl, rfl⟩ := Prod.mk.inj he
    exact hv
  · exact h.cached k' v' hold

/-- **A live key that is kept is read right** by the server that has come up again. -/
theorem get (h : Resumed t s) (hlive : Live.Inv t.store t.live) {k v : CStr}
    (hv : t.live k = some v) (hk : Survives t.store k) :
    ∃ s', server1GetRequest s k = some (exitSuccess, v, s') ∧ Resumed t s' := by
  unfold server1GetRequest
  cases hc : (cacheGet s.cache k).1 with
  | some w =>
    obtain ⟨hmem, he⟩ := cacheGet_hit hc
    obtain rfl : v = w := Option.some.inj (hv.symm.trans (h.cached k w hmem))
    simp only [hc]
    obtain ⟨n, hn, hover⟩ := h.count
    refine ⟨_, rfl, h.tree, h.c1, ⟨n, hn, hover.get k⟩, fun k' v' hn' => ?_⟩
    rw [he] at hn'
    rcases List.mem_cons.mp hn' with heq | hold
    · obtain ⟨rfl, rfl⟩ := Prod.mk.inj heq
      exact hv
    · exact h.cached k' v' (List.mem_of_mem_eraseP hold)
  | none =>
    obtain ⟨cache, hp, hres⟩ := h.cachePut hv
    rw [h.tree, h.c1] at hres
    -- the same request of a store with nothing cached says what table and disk answer
    have hbare : Live.Inv { t.store with cache := Cache.empty } t.live :=
      ⟨Cache.Wf.empty, fun _ _ hn => absurd hn List.not_mem_nil, hlive.bst, hlive.c1, hlive.held⟩
    obtain ⟨s', hs', -⟩ := hbare.get hv (Or.inr hk)
    rcases get_eq hs' with ⟨w, hmem, -⟩ | ⟨-, w, _, -, he, hw⟩
    · exact absurd hmem List.not_mem_nil
    · obtain rfl : v = w := congrArg (fun r : Reply => r.2.1) he
      simp only [hc, (cacheGet_miss hc).2, h.tree, h.c1]
      rcases hw with ⟨e, hg, rfl⟩ | ⟨hg, hget⟩
      · simp only [show t.store.T.get k = some e from hg, hp]
        exact ⟨_, rfl, hres⟩
      · simp only [show t.store.T.get k = none from hg,
          show c1Get t.store.c1 k = some (some v) from hget, Option.bind_eq_bind,
          Option.bind_some, hp]
        exact ⟨_, rfl, hres⟩

/-- so are any number of them -/
theorem gets (h : Resumed t s) (hlive : Live.Inv t.store t.live) (ks : List CStr)
    (hks : ∀ k ∈ ks, t.live k ≠ none ∧ Survives t.store k) :
    ∃ u, run Store.step s (ks.map Req.get) = some u ∧ Resumed t u := by
  induction ks generalizing s with
  | nil => exact ⟨s, rfl, h⟩
  | cons k ks ih =>
    obtain ⟨hne, hk⟩ := hks k (List.mem_cons_self ..)
    obtain ⟨v, hv⟩ := Option.ne_none_iff_exists'.mp hne
    obtain ⟨s', hs', hres⟩ := h.get hlive hv hk
    obtain ⟨u, hu, hresu⟩ := ih hres fun k' hk' => hks k' (List.mem_cons_of_mem _ hk')
    refine ⟨u, ?_, hresu⟩
    rw [List.map_cons, run_cons, show Store.step s (.get k) = some s' from
      congrArg (Option.map fun r : Reply => r.2.2) hs']
    exact hu

end Resumed

/-- a crash, the recovery and the initialisation -/
theorem Recoverable.resume {t : Tracked} (h : Recoverable t) :
    ∃ rc s', recover (crash t.store) = some (rc, s') ∧ Resumed t (runServer1 s') := by
  obtain ⟨r, hr, hrel⟩ := h.rebuilt t.store.txLog
  have hr : (t.store.txLog.getD []).foldlM replayEntry (crash t.store) = some r := hr
  have hresumed : ∀ log, Resumed t (runServer1 { r with txLog := log }) := by
    intro log
    refine ⟨hrel.tree, ?_, ⟨r.cache.nodes.length, ?_, ?_⟩, fun _ _ hn => absurd hn List.not_mem_nil⟩
    · show c1Init r.c1 = t.store.c1
      rw [hrel.c1]
      exact h.restores
    · -- what the replay has cached is in the table, which is not full
      have hsub := (List.subperm_of_subset hrel.wf.nodup hrel.held).length_le
      have hsmall := h.small
      rw [C0Node.c0Size_eq] at hsmall
      have hlen : t.store.T.keys.length = t.store.T.entries.length := List.length_map ..
      rw [List.length_map, hlen] at hsub
      exact lt_trans (lt_of_le_of_lt hsub hsmall) (by decide)
    · refine ⟨?_, ?_⟩
      · show r.cache.globalCacheCount = ((0 : ℕ) : ℤ) + r.cache.nodes.length
        rw [hrel.wf.count, Nat.cast_zero, zero_add]
      · show 0 + r.cache.nodes.length ≤ cacheSize
        rw [zero_add]
        exact hrel.wf.size
  cases hlog : t.store.txLog with
  | none =>
    rw [hlog] at hr
    cases hr
    refine ⟨-1, crash t.store, ?_, hresumed (crash t.store).txLog⟩
    rw [recover, show (crash t.store).txLog = none from hlog]
  | some entries =>
    rw [hlog] at hr
    refine ⟨0, { r with txLog := none }, ?_, hresumed none⟩
    rw [recover, show (crash t.store).txLog = some entries from hlog]
    exact Option.bind_eq_some_iff.mpr ⟨r, hr, rfl⟩

/-- **Reads after a crash.**  A server that has run into no defect of its layers crashes after any
number of requests, dumps and timers: the recovery runs through, it brings back `_T` and c1 as they
were, and however many live keys have been read since, every live key that does not depend on the
lost cache is answered with the value last written to it. -/
theorem recovered_get {es : List Serving} {t : Tracked}
    (hg : Guarded Tracked.serving ServingOk Tracked.empty es)
    (hr : run Tracked.serving Tracked.empty es = some t) :
    ∃ rc s', recover (crash t.store) = some (rc, s') ∧ (runServer1 s').T = t.store.T ∧
      (runServer1 s').c1 = t.store.c1 ∧
      ∀ ks : List CStr, (∀ k ∈ ks, t.live k ≠ none ∧ Survives t.store k) →
        ∃ u, run Store.step (runServer1 s') (ks.map Req.get) = some u ∧
          ∀ k v, t.live k = some v → Survives t.store k →
            ∃ s'', server1GetRequest u k = some (exitSuccess, v, s'') := by
  have h : Recoverable t :=
    inv_of_guarded (fun _ _ _ hi hok hs => hi.serving hok hs) Recoverable.empty hg hr
  obtain ⟨rc, s', hrec, hres⟩ := h.resume
  refine ⟨rc, s', hrec, hres.tree, hres.c1, fun ks hks => ?_⟩
  obtain ⟨u, hu, hresu⟩ := hres.gets h.live ks hks
  refine ⟨u, hu, fun k v hv hk => ?_⟩
  obtain ⟨s'', hs'', -⟩ := hresu.get h.live hv hk
  exact ⟨s'', hs''⟩

/-- a flush, then writes that are in the log alone, some over the keys of the flush -/
def crashLife : List Serving :=
  [.line 1 "PUT b 1".toList, .timer, .line 2 "INSERT m 2".toList, .line 3 "PUT a 3".toList,
    .line 4 "GET b".toList, .line 5 "DELETE a".toList, .line 6 "PUT c 4".toList]

theorem recovered_get_crashLife : ∃ t, run Tracked.serving Tracked.empty crashLife = some t ∧
    ∃ rc s', recover (crash t.store) = some (rc, s') ∧ (runServer1 s').T = t.store.T ∧
      (runServer1 s').c1 = t.store.c1 ∧
      ∀ ks : List CStr, (∀ k ∈ ks, t.live k ≠ none ∧ Survives t.store k) →
        ∃ u, run Store.step (runServer1 s') (ks.map Req.get) = some u ∧
          ∀ k v, t.live k = some v → Survives t.store k →
            ∃ s'', server1GetRequest u k = some (exitSuccess, v, s'') := by
  obtain ⟨t, ht⟩ := Option.isSome_iff_exists.mp
    (show (run Tracked.serving Tracked.empty crashLife).isSome by decide +kernel)
  have hg : Guarded Tracked.serving ServingOk Tracked.empty crashLife := by decide +kernel
  exact ⟨t, ht, recovered_get hg ht⟩

end LsmKv
