import LsmKv.Store.Concurrent

/-!
# A request that runs alone

The sections of `Store/Concurrent.lean`, run by one thread with nothing between them, are the
request of `Store.lean`; the calls of a dump, where none fails, are `c0_dump`.

* `c1BatchInsertIo_done`, `c0DumpIo_done`   a dump that succeeds makes all its calls;
* `Alone call t st st'`   some sections of thread `t` lead from `st` to `st'`;
* `search_alone`          the rounds of `c1_search`;
* `serve_alone`           a request: its return code, its response and the store it leaves.
-/

set_option linter.unusedSectionVars false

namespace LsmKv

open Crash Crash.Code

/-! ## calls that succeed -/

theorem writeLines_done (n : Int) (lines : List Line) (d : Dev) :
    writeLines n lines d [] = .done true (d.wrote n lines) [] := by
  induction lines generalizing d with
  | nil => rw [Dev.wrote_nil]; rfl
  | cons line lines ih =>
    show writeLines n lines (d.write n line) [] = _
    rw [ih, Dev.write_eq, Dev.wrote_wrote]
    rfl

theorem writeRecords_done (n : Int) (nodes : List Entry) (d : Dev) :
    writeRecords n nodes d [] = .done true (d.wrote n (nodes.map keyval)) [] := by
  induction nodes generalizing d with
  | nil => rw [List.map_nil, Dev.wrote_nil]; rfl
  | cons e nodes ih =>
    show writeRecords n nodes (d.write n (keyval e)) [] = _
    rw [ih, Dev.write_eq, Dev.wrote_wrote]
    rfl

theorem writeNew_done (n : Int) (old new : List Line) (d : Dev) :
    writeNew n old new d [] = .done true (d.wrote n (new.drop old.length)) [] :=
  writeLines_done ..

theorem mergeLoopIo_done (n : Int) : ∀ (fuel : Nat) {s s' : MergeState},
    mergeLoop fuel s = some s' → ∀ d, ∃ t, mergeLoopIo n fuel s d [] = .done (some s') t [] := by
  intro fuel
  induction fuel with
  | zero => intro s s' h; cases h
  | succ fuel ih =>
    intro s s' h d
    unfold mergeLoop at h
    unfold mergeLoopIo
    split at h
    · rename_i s1 e
      rw [e]
      cases h
      exact ⟨d, rfl⟩
    · rename_i s1 e
      rw [e]
      dsimp only
      split at h
      · rename_i s2 e2
        rw [e2]
        cases h
        exact ⟨d, rfl⟩
      · rename_i s2 e2
        rw [e2]
        obtain ⟨s3, h3, h4⟩ := Option.bind_eq_some_iff.mp h
        obtain ⟨t, ht⟩ := ih h4 (d.wrote n (s3.out.drop s2.out.length))
        have hcmp : ofOption (mergeCompare s2) d [] = .done s3 d [] := by
          rw [h3]
          rfl
        refine ⟨t, ?_⟩
        show (ofOption (mergeCompare s2) >>= _) d [] = _
        rw [bind_of_done hcmp]
        show (writeNew n s2.out s3.out >>= _) d [] = _
        rw [bind_of_done (writeNew_done ..), if_pos rfl]
        exact ht

theorem mergeIo_done {file1 file2 out : List Line} (h : merge file1 file2 = some out) (d : Dev) :
    ∃ t, mergeIo file1 file2 d [] = .done 0 t [] := by
  obtain ⟨s, hs, ho⟩ := Option.bind_eq_some_iff.mp h
  let n := d.c1.fileCounter + 1
  obtain ⟨t, ht⟩ := mergeLoopIo_done n _ hs (d.opened n)
  have htail : ofOption (mergeTail s) t [] = .done out t [] := by
    rw [ho]
    rfl
  refine ⟨t.wrote n (out.drop s.out.length), ?_⟩
  show (mergeLoopIo n _ _ >>= _) (d.opened n) [] = _
  rw [bind_of_done ht]
  show (ofOption (mergeTail s) >>= _) t [] = _
  rw [bind_of_done htail]
  show (writeNew n s.out out >>= _) t [] = _
  rw [bind_of_done (writeNew_done ..)]
  rfl

theorem mergeOld_done {nodes : List Entry} {d : Dev} {n : Int} {old out : List Line}
    (hn : d.c1.fileCounter = n) (hold : d.c1.files (n - 1) = some old)
    (hm : merge (nodes.map keyval) old = some out) :
    mergeOld n nodes d [] = .done 0 (d.filled (n + 1) out) [] := by
  obtain ⟨t, ht⟩ := mergeIo_done hm d
  have hopen : openRead (n - 1) d [] = .done (some old) d [] := by
    rw [← hold]
    rfl
  have hdone : mergeOld n nodes d [] = .done 0 t [] := by
    unfold mergeOld
    rw [bind_of_done hopen]
    exact ht
  obtain ⟨-, ⟨-, -, old', out', ho, hm', rfl⟩ | ⟨hrc, -⟩⟩ := of_wp_done (wp_mergeOld hn []) hdone
  · rw [hold] at ho
    cases ho
    rw [hm] at hm'
    cases hm'
    exact hdone
  · cases hrc

theorem c1PublishIo_done {d : Dev} {rc : Int} {c' : C1} (h : c1Publish d.c1 = some (rc, c')) :
    ∃ t, c1PublishIo d [] = .done rc t [] := by
  unfold c1Publish at h
  split at h
  · cases h
  · rename_i file hf
    obtain ⟨md0, hmd, h⟩ := Option.bind_eq_some_iff.mp h
    obtain ⟨md, hup, h⟩ := Option.bind_eq_some_iff.mp h
    cases h
    have hopen : openRead d.c1.fileCounter d [] = .done (some file) d [] := by
      rw [← hf]
      rfl
    have hindex : ofOption (updateSstable file d.c1.fileCounter md0) d [] = .done md d [] := by
      rw [hup]
      rfl
    refine ⟨(d.cleared md).writeSstable md, ?_⟩
    unfold c1PublishIo
    rw [bind_of_done (show get d [] = .done d d [] from rfl), bind_of_done hopen]
    dsimp only
    rw [hmd]
    show (ofOption (updateSstable file d.c1.fileCounter md0) >>= _) d [] = _
    rw [bind_of_done hindex]
    rfl

/-- **A batch that succeeds makes all its calls.** -/
theorem c1BatchInsertIo_done {d : Dev} {nodes : List Entry} {rc : Int} {c' : C1}
    (h : c1BatchInsert d.c1 nodes = some (rc, c')) :
    ∃ t, c1BatchInsertIo nodes d [] = .done rc t [] ∧ t.c1 = c' := by
  let n := d.c1.fileCounter + 1
  let u := d.batchFile (nodes.map keyval)
  have hu : u.c1 = d.c1.filled n (nodes.map keyval) := c1_filled ..
  have hrun : c1BatchInsertIo nodes d [] = (if n > 0 then do
      let rc ← mergeOld n nodes
      if rc = -1 then return -1 else c1PublishIo
    else c1PublishIo : Code Dev Int) u [] := by
    show (writeRecords n nodes >>= _) (d.opened n) [] = _
    rw [bind_of_done (writeRecords_done ..)]
    rfl
  have hdone : ∃ t, c1BatchInsertIo nodes d [] = .done rc t [] := by
    rw [hrun]
    rw [c1BatchInsert_filled d.c1 nodes hu] at h
    split_ifs at h ⊢ with hpos
    · split at h
      · rename_i hold
        cases h
        refine ⟨u, ?_⟩
        have hopen : openRead (n - 1) u [] = .done none u [] := by
          rw [← hold]
          rfl
        have hmerge : mergeOld n nodes u [] = .done (-1) u [] := by
          unfold mergeOld
          rw [bind_of_done hopen]
          rfl
        rw [bind_of_done hmerge]
        rfl
      · rename_i old hold
        obtain ⟨out, hm, h⟩ := Option.bind_eq_some_iff.mp h
        rw [← c1_filled] at h
        rw [bind_of_done (mergeOld_done (by rw [hu]; rfl) hold hm)]
        exact c1PublishIo_done h
    · exact c1PublishIo_done h
  obtain ⟨t, ht⟩ := hdone
  refine ⟨t, ht, ?_⟩
  obtain ⟨-, hret⟩ := of_wp_done (wp_c1BatchInsertIo d nodes []) ht
  have hnof : NoFails [] := by simp [NoFails]
  have hsome := (hret hnof).2.symm.trans h
  cases hsome
  rfl

theorem c0DumpIo_eq {T : C0Node} (hT : T ≠ .null) : c0DumpIo T = (do
    let rc ← zoom Sys.dev Sys.setDev (c1BatchInsertIo T.entries)
    if rc = 0 then
      let _ ← call fun s : Sys => s.setStore (flushLog s.store)
      return ()
    else return () : Code Sys Unit) := by
  have hsize : T.c0Size ≠ 0 := fun h => hT (c0Size_eq_zero.mp h)
  unfold c0DumpIo
  dsimp only
  rw [if_neg hsize, C0Node.dumpToArray_mapM]
  rfl

/-- **A dump that succeeds makes all its calls.** -/
theorem c0DumpIo_done {T : C0Node} {s s' : Store} (h : c0Dump T s = some s') :
    ∃ log, c0DumpIo T ⟨s, []⟩ [] = .done () ⟨s', log⟩ [] := by
  by_cases hT : T = .null
  · subst hT
    rw [c0Dump_null] at h
    cases h
    exact ⟨[], rfl⟩
  · rw [c0Dump_eq hT] at h
    obtain ⟨⟨rc, c'⟩, hc, rfl⟩ := Option.map_eq_some_iff.mp h
    obtain ⟨t, ht, rfl⟩ := c1BatchInsertIo_done (d := Sys.dev ⟨s, []⟩) hc
    refine ⟨t.log, ?_⟩
    rw [c0DumpIo_eq hT, bind_of_done (zoom_of_done ht)]
    split_ifs
    · rfl
    · rfl

namespace Concurrent

open Run

/-- what is there before the first call of a dump -/
theorem view_begin (T : C0Node) (s : Store) : ∃ sys, (Dump.mk T s []).view = some sys ∧
    sys.store.T = s.T ∧ sys.store.cache = s.cache := by
  show ∃ sys, (c0DumpIo T ⟨s, []⟩ [.crash]).state = some sys ∧ _
  by_cases hT : T = .null
  · subst hT
    exact ⟨⟨s, []⟩, rfl, rfl, rfl⟩
  · rw [c0DumpIo_eq hT]
    exact ⟨_, rfl, rfl, rfl⟩

variable {τ : Type} [DecidableEq τ] {call : τ → Req} {st st' : Threads τ} {t : τ}

/-- the thread of a section -/
def Section.thread : Section τ → τ
  | .cacheLookup t => t
  | .readHit t => t
  | .copyHit t => t
  | .copyFreed t _ => t
  | .c0Section t => t
  | .copyValue t => t
  | .c1Open t => t
  | .c1Lines t _ _ => t
  | .c1Read t => t
  | .dumpCall t _ => t
  | .dumpEnd t => t
  | .cacheUpdate t => t

variable (call t) in
/-- some sections of thread `t`, one after the other -/
def Alone (st st' : Threads τ) : Prop :=
  ∃ as : List (Section τ), (∀ a ∈ as, a.thread = t) ∧ run (step call) st as = some st'

theorem Alone.refl : Alone call t st st := ⟨[], by simp, rfl⟩

theorem Alone.head {st1 : Threads τ} {a : Section τ} (ha : a.thread = t)
    (hs : step call st a = some st1) (h : Alone call t st1 st') : Alone call t st st' := by
  obtain ⟨as, has, hr⟩ := h
  refine ⟨a :: as, ?_, ?_⟩
  · simpa [ha] using has
  · rw [run_cons, hs]
    exact hr

theorem Alone.trans {st1 : Threads τ} (h : Alone call t st st1) (h' : Alone call t st1 st') :
    Alone call t st st' := by
  obtain ⟨as, has, hr⟩ := h
  obtain ⟨bs, hbs, hr'⟩ := h'
  refine ⟨as ++ bs, fun a ha => (List.mem_append.mp ha).elim (has a) (hbs a), ?_⟩
  rw [run_append, hr]
  exact hr'

@[simp] theorem leave_store (st : Threads τ) (t : τ) (s : Store) (p : Phase) :
    (st.leave t s p).store = s := rfl

@[simp] theorem leave_dump (st : Threads τ) (t : τ) (s : Store) (p : Phase) :
    (st.leave t s p).dump = st.dump := rfl

@[simp] theorem leave_self (st : Threads τ) (t : τ) (s : Store) (p : Phase) :
    (st.leave t s p).phase t = p := Function.update_self ..

@[simp] theorem leave_leave (st : Threads τ) (t : τ) (s s' : Store) (p p' : Phase) :
    (st.leave t s p).leave t s' p' = st.leave t s' p' := by
  simp [Threads.leave]

/-- a request that ended in this way -/
structure Ended (st' : Threads τ) (t : τ) (rc : Int) (ret : CStr) (s : Store) : Prop where
  store : st'.store = s
  phase : st'.phase t = .returned rc ret
  dump : st'.dump = none

/-- a request that is at its last section, which caches `v` -/
structure Filling (st' : Threads τ) (t : τ) (v : CStr) (s : Store) : Prop where
  store : st'.store = s
  phase : st'.phase t = .fill v
  dump : st'.dump = none

/-- the response of a request that cached `v` -/
def response (r : Req) (v : CStr) : CStr :=
  match r with
  | .get _ => v
  | _ => success

theorem Filling.alone {v : CStr} {s : Store} (h : Filling st t v s) {cache : Cache}
    (hput : cachePut s.cache (call t).key v = some cache) :
    ∃ st', Alone call t st st' ∧
      Ended st' t exitSuccess (response (call t) v) { s with cache := cache } := by
  obtain ⟨rfl, hp, hd⟩ := h
  refine ⟨(st.free call t).leave t { st.store with cache := cache }
    (.returned exitSuccess (response (call t) v)),
    .head (a := .cacheUpdate t) rfl ?_ .refl, rfl, leave_self .., hd⟩
  simp only [step, cacheUpdate, hp, hput, Option.bind_eq_bind, Option.bind_some]
  rfl

/-- the dump of a tree, from its first call to its last -/
theorem dump_alone (call : τ → Req) (st : Threads τ) (t : τ) {T : C0Node} {s' : Store}
    (h : c0Dump T { st.store with T := .null } = some s') : ∃ st1 st2,
      st.beginDump call t T = some st1 ∧ Alone call t st1 st2 ∧ st2.store = s' ∧
      st2.phase t = afterDump (call t) ∧ st2.dump = none := by
  obtain ⟨sys, hview, -⟩ := view_begin T { st.store with T := .null }
  obtain ⟨log, hdone⟩ := c0DumpIo_done h
  obtain ⟨hcache, hT⟩ := c0Dump_frame h
  let d : Dump := ⟨T, { st.store with T := .null }, []⟩
  let st1 : Threads τ := { st with
    store := withFiles { st.store with T := .null } sys
    phase := Function.update (st.detached call T) t .dumping
    dump := some d }
  have hp : st1.phase t = .dumping := Function.update_self ..
  have hend : dumpEnd call st1 t = some { st1.leave t (withFiles st1.store ⟨s', log⟩)
      (afterDump (call t)) with dump := none } := by
    unfold dumpEnd
    rw [hp, show st1.dump = some d from rfl]
    simp only [show d.run d.outcomes = _ from hdone]
  refine ⟨st1, _, ?_, .head (a := .dumpEnd t) rfl hend .refl, ?_, Function.update_self .., rfl⟩
  · show d.view.bind _ = _
    rw [show d.view = some sys from hview]
    rfl
  · show withFiles (withFiles { st.store with T := .null } sys) ⟨s', log⟩ = s'
    cases s'
    simp only at hcache hT
    subst hcache hT
    rfl

/-- an insertion, with the dump of a full table -/
theorem insertC0_alone (st : Threads τ) {key value : CStr} {s' : Store} (hd : st.dump = none)
    (hval : (call t).value = some value) (h : insertC0 st.store key value = some s') :
    ∃ st1 st2, st.insertC0 call t key value = some st1 ∧ Alone call t st1 st2 ∧
      Filling st2 t value s' := by
  unfold Threads.insertC0
  dsimp only
  rcases insertC0_cases h with ⟨hsize, rfl⟩ | ⟨hsize, hdump⟩
  · rw [if_neg hsize]
    exact ⟨_, _, rfl, .refl, rfl, Function.update_self .., hd⟩
  · rw [if_pos hsize]
    obtain ⟨st1, st2, h1, h2, hs, hp, hd2⟩ := dump_alone call
      { st with hist := st.hist ++ [call t] } t hdump
    refine ⟨st1, st2, h1, h2, hs, ?_, hd2⟩
    rw [hp, afterDump, hval]

/-- the rounds of `c1_search` -/
theorem search_alone {key v : CStr} {n : Int} {file : List Line} (hc : call t = .get key) :
    ∀ (fuel : Nat) {st : Threads τ} {startline endline : Int},
      st.phase t = .searching n startline endline → st.store.c1.files n = some file →
      st.dump = none → c1SearchFuel file key fuel startline endline = some (some v) →
      ∃ st', Alone call t st st' ∧ Filling st' t v st.store := by
  intro fuel
  induction fuel with
  | zero => intro st s e _ _ _ h; cases h
  | succ fuel ih =>
    intro st startline endline hp hf hd h
    unfold c1SearchFuel at h
    by_cases hle : endline ≥ startline
    swap
    · rw [if_neg hle] at h
      cases h
    rw [if_pos hle] at h
    dsimp only at h
    split at h
    · cases h
    · rename_i line hline
      split at h
      · rename_i rKey val d hscan
        have hread : step call st (.c1Read t) = some (st.leave t st.store (
            if strcmp rKey key = 0 then .fill val
            else if strcmp rKey key > 0 then
              .searching n startline ((endline - startline) / 2 + startline - 1)
            else .searching n ((endline - startline) / 2 + startline + 1) endline)) := by
          simp only [step, c1Read, hc, hp, if_pos hle, hf, Option.bind_eq_bind, Option.bind_some,
            hline, hscan]
        split_ifs at h hread with hz hgt
        · cases h
          exact ⟨_, .head rfl hread .refl, rfl, leave_self .., hd⟩
        · obtain ⟨st', ha, hfill⟩ := ih (leave_self ..) hf hd h
          exact ⟨st', .head rfl hread ha, hfill⟩
        · obtain ⟨st', ha, hfill⟩ := ih (leave_self ..) hf hd h
          exact ⟨st', .head rfl hread ha, hfill⟩
      · cases h

/-- `c1_get` -/
theorem c1Get_alone {key v : CStr} (hc : call t = .get key) (hp : st.phase t = .c1)
    (hd : st.dump = none) (h : c1Get st.store.c1 key = some (some v)) :
    ∃ st', Alone call t st st' ∧ Filling st' t v st.store := by
  unfold c1Get at h
  split at h
  · cases h
  · rename_i file hf
    simp only [Option.bind_eq_bind, Option.bind_eq_some_iff] at h
    obtain ⟨md, -, i, -, j, -, h⟩ := h
    let n := st.store.c1.fileCounter
    let st1 := st.leave t st.store (.opened n)
    have hopen : step call st (.c1Open t) = some st1 := by
      simp only [step, c1Open, hc, hp, hf, Option.map_some]
      rfl
    have hlines : ∀ s e, step call st1 (.c1Lines t s e)
        = some (st1.leave t st.store (.searching n s e)) := fun s e => by
      simp only [step, c1Lines, hc, st1, leave_self]
      rfl
    obtain ⟨st', ha, hfill⟩ : ∃ st', Alone call t (st1.leave t st.store (.searching n _ _)) st' ∧
        Filling st' t v st.store := search_alone hc _ (leave_self ..) hf hd h
    exact ⟨st', .head rfl hopen (.head rfl (hlines ..) ha), hfill⟩

/-! ## requests -/

/-- a node that was found is at the head -/
theorem cacheGet_again {c : Cache} {k v : CStr} (h : (cacheGet c k).1 = some v) :
    (cacheGet (cacheGet c k).2 k).1 = some v := by
  rw [(cacheGet_hit h).2]
  simp [cacheGet]

theorem get_alone {key : CStr} {rc : Int} {ret : CStr} {s : Store} (hb : st.store.T.Bst)
    (hc : call t = .get key) (hp : st.phase t = .start) (hd : st.dump = none)
    (h : server1GetRequest st.store key = some (rc, ret, s)) :
    ∃ st', Alone call t st st' ∧ Ended st' t rc ret s := by
  have hlook : step call st (.cacheLookup t) = some (st.leave t
      { st.store with cache := (cacheGet st.store.cache key).2 }
      (if (cacheGet st.store.cache key).1.isSome then .hit else .missed)) := by
    simp only [step, cacheLookup, hc, hp]
  cases hg : (cacheGet st.store.cache key).1 with
  | some v =>
    have hreq : server1GetRequest st.store key
        = some (exitSuccess, v, { st.store with cache := (cacheGet st.store.cache key).2 }) := by
      unfold server1GetRequest
      simp only [hg]
    cases hreq.symm.trans h
    rw [hg] at hlook
    let st1 := st.leave t { st.store with cache := (cacheGet st.store.cache key).2 } .hit
    have hread : step call st1 (.readHit t) = some (st1.leave t st1.store (.reading ret)) := by
      simp only [step, readHit, hc, st1, leave_self, leave_store, cacheGet_again hg,
        Option.map_some]
    let st2 := st1.leave t st1.store (.reading ret)
    have hcopy : step call st2 (.copyHit t)
        = some (st2.leave t st1.store (.returned exitSuccess ret)) := by
      simp only [step, copyHit, hc, st2, leave_self, leave_store]
    exact ⟨_, .head rfl hlook (.head rfl hread (.head rfl hcopy .refl)), rfl, leave_self .., hd⟩
  | none =>
    obtain ⟨hno, hsame⟩ := cacheGet_miss hg
    rw [hg, hsame] at hlook
    let st1 := st.leave t st.store .missed
    rcases get_eq h with ⟨v, hv, -⟩ | ⟨-, v, cache, hput, hr, hread⟩
    · exact absurd ⟨v, hv⟩ hno
    cases hr
    have hfilled : ∃ st', Alone call t st1 st' ∧ Filling st' t ret st.store := by
      have hsection : step call st1 (.c0Section t) = some (st1.leave t st.store
          (if (st.store.T.get key).isSome then .found else .c1)) := by
        simp only [step, c0Section, st1, leave_dump, hd, hc, leave_self, leave_store]
        rfl
      rcases hread with ⟨e, he, rfl⟩ | ⟨he, hv⟩
      · rw [he] at hsection
        refine ⟨(st1.leave t st.store .found).leave t st.store (.fill e.value.chars),
          .head rfl hsection (.head (a := .copyValue t) rfl ?_ .refl), rfl, leave_self .., hd⟩
        simp only [step, copyValue, hc, Option.isSome_some, if_pos, leave_self, leave_store,
          C0Node.get_find hb he, Option.map_some]
      · rw [he] at hsection
        obtain ⟨st', ha, hfill⟩ : ∃ st', Alone call t (st1.leave t st.store .c1) st' ∧
            Filling st' t ret st.store := c1Get_alone hc (leave_self ..) hd hv
        exact ⟨st', .head rfl hsection ha, hfill⟩
    obtain ⟨st2, h2, hfill⟩ := hfilled
    have hkey : (call t).key = key := by
      rw [hc]
      rfl
    obtain ⟨st3, h3, hend⟩ := hfill.alone (hkey ▸ hput)
    rw [hc] at hend
    exact ⟨st3, .head rfl hlook (h2.trans h3), hend⟩

/-- the section under `c0_mutex` of a PUT -/
theorem putC0_alone {key value : CStr} {s' : Store} (hc : call t = .put key value)
    (hp : st.phase t = .start) (hd : st.dump = none) (h : putC0 st.store key value = some s') :
    ∃ st', Alone call t st st' ∧ Filling st' t value s' := by
  have hval : (call t).value = some value := by
    rw [hc]
    rfl
  cases hg : st.store.T.get key with
  | some e =>
    rw [putC0_root hg] at h
    cases h
    let st1 := st.write call t { st.store with T := (st.store.T.update key ⟨value, true⟩ 0).2 }
      (.fill value)
    have hp1 : st1.phase t = .fill value := Function.update_self ..
    refine ⟨st1, .head (a := .c0Section t) rfl ?_ .refl, rfl, hp1, hd⟩
    simp only [step, c0Section, hd, hc, hp, hg]
    rfl
  | none =>
    rw [putC0_insert hg] at h
    obtain ⟨st1, st2, h1, h2, hfill⟩ := insertC0_alone st hd hval h
    refine ⟨st2, .head (a := .c0Section t) rfl ?_ h2, hfill⟩
    simp only [step, c0Section, hd, hc, hp, hg]
    exact h1

theorem put_alone {key value : CStr} {rc : Int} {ret : CStr} {s : Store}
    (hc : call t = .put key value) (hp : st.phase t = .start) (hd : st.dump = none)
    (h : server1PutRequest st.store key value = some (rc, ret, s)) :
    ∃ st', Alone call t st st' ∧ Ended st' t rc ret s := by
  obtain ⟨s1, cache, h1, hput, hr⟩ := put_eq h
  cases hr
  obtain ⟨st1, ha, hfill⟩ := putC0_alone hc hp hd h1
  have hkey : (call t).key = key := by
    rw [hc]
    rfl
  rw [← putC0_frame h1] at hput
  obtain ⟨st2, h2, hend⟩ := hfill.alone (hkey ▸ hput)
  rw [hc] at hend
  exact ⟨st2, ha.trans h2, hend⟩

theorem insert_alone {key value : CStr} {rc : Int} {ret : CStr} {s : Store}
    (hc : call t = .insert key value) (hp : st.phase t = .start) (hd : st.dump = none)
    (h : server1InsertRequest st.store key value = some (rc, ret, s)) :
    ∃ st', Alone call t st st' ∧ Ended st' t rc ret s := by
  have hlook : step call st (.cacheLookup t) = some (st.leave t
      { st.store with cache := (cacheGet st.store.cache key).2 }
      (if (cacheGet st.store.cache key).1.isSome then .returned exitFailure duplicate
        else .missed)) := by
    simp only [step, cacheLookup, hc, hp]
  cases hg : (cacheGet st.store.cache key).1 with
  | some v =>
    rw [hg] at hlook
    have hhas : st.store.cache.Has key := ⟨v, (cacheGet_hit hg).1⟩
    cases (insert_duplicate (Or.inl hhas) value).symm.trans h
    exact ⟨_, .head rfl hlook .refl, rfl, leave_self .., hd⟩
  | none =>
    obtain ⟨hno, hsame⟩ := cacheGet_miss hg
    rw [hg, hsame] at hlook
    let st1 := st.leave t st.store .missed
    have hp1 : st1.phase t = .missed := leave_self ..
    rcases insert_eq h with ⟨hdup, hr⟩ | ⟨-, hT, s1, cache, h1, hput, hr⟩
    · cases hr
      obtain ⟨e, he⟩ := Option.ne_none_iff_exists'.mp (hdup.resolve_left hno)
      refine ⟨st1.leave t st.store (.returned exitFailure duplicate),
        .head rfl hlook (.head (a := .c0Section t) rfl ?_ .refl), ?_, leave_self .., hd⟩
      · show c0Section call st1 t = _
        unfold c0Section
        simp only [show st1.dump = none from hd, hc, hp1, show st1.store.T.get key = some e from he]
        rfl
      · rw [hsame]
        rfl
    · cases hr
      have hval : (call t).value = some value := by
        rw [hc]
        rfl
      have hkey : (call t).key = key := by
        rw [hc]
        rfl
      obtain ⟨st2, st3, h2, h3, hfill⟩ := insertC0_alone st1 hd hval h1
      rw [← insertC0_frame h1] at hput
      obtain ⟨st4, h4, hend⟩ := hfill.alone (hkey ▸ hput)
      rw [hc] at hend
      refine ⟨st4, .head rfl hlook (.head (a := .c0Section t) rfl ?_ (h3.trans h4)), hend⟩
      show c0Section call st1 t = _
      unfold c0Section
      simp only [show st1.dump = none from hd, hc, hp1, show st1.store.T.get key = none from hT]
      exact h2

theorem delete_alone {key : CStr} {rc : Int} {ret : CStr} {s : Store}
    (hc : call t = .delete key) (hp : st.phase t = .start) (hd : st.dump = none)
    (h : server1DeleteRequest st.store key = some (rc, ret, s)) :
    ∃ st', Alone call t st st' ∧ Ended st' t rc ret s := by
  cases h
  let st1 := st.write call t (deleteC0 st.store key) .deleted
  have hp1 : st1.phase t = .deleted := Function.update_self ..
  have hsection : step call st (.c0Section t) = some st1 := by
    simp only [step, c0Section, hd, hc, hp]
    rfl
  have hupdate : step call st1 (.cacheUpdate t) = some ((st1.free call t).leave t
      { deleteC0 st.store key with cache := cacheInvalidate (deleteC0 st.store key).cache key }
      (.returned exitSuccess success)) := by
    simp only [step, cacheUpdate, hp1, hc]
    rfl
  exact ⟨_, .head rfl hsection (.head rfl hupdate .refl), rfl, leave_self .., hd⟩

theorem timer_alone {rc : Int} {ret : CStr} {s : Store} (hc : call t = .timer)
    (hp : st.phase t = .start) (hd : st.dump = none)
    (h : serve st.store .timer = some (rc, ret, s)) :
    ∃ st', Alone call t st st' ∧ Ended st' t rc ret s := by
  obtain ⟨s1, h1, hr⟩ := Option.map_eq_some_iff.mp h
  cases hr
  obtain ⟨st1, st2, h2, h3, hs, hp2, hd2⟩ := dump_alone call st t h1
  have hsection : step call st (.c0Section t) = some st1 := by
    simp only [step, c0Section, hd, hc, hp]
    exact h2
  refine ⟨st2, .head rfl hsection h3, hs, ?_, hd2⟩
  rw [hp2, hc]
  rfl

/-- **The sections of a request, one after the other, are the request**: its return code, its
response and the store it leaves. -/
theorem serve_alone (hb : st.store.T.Bst) (hp : st.phase t = .start) (hd : st.dump = none)
    {rc : Int} {ret : CStr} {s : Store} (h : serve st.store (call t) = some (rc, ret, s)) :
    ∃ st', Alone call t st st' ∧ Ended st' t rc ret s := by
  cases hc : call t with
  | put key value => exact put_alone hc hp hd (by rwa [hc] at h)
  | insert key value => exact insert_alone hc hp hd (by rwa [hc] at h)
  | delete key => exact delete_alone hc hp hd (by rwa [hc] at h)
  | get key => exact get_alone hb hc hp hd (by rwa [hc] at h)
  | timer => exact timer_alone hc hp hd (by rwa [hc] at h)

/-- one entry in the table -/
def oneKey : Store := { Store.empty with T := C0Node.null.insert ['a'] ['1'] 0 }

/-- The timer flushes it. -/
theorem serve_alone_oneKey : ∃ rc ret s st', serve oneKey (flushCall 1) = some (rc, ret, s) ∧
    Alone flushCall 1 (begin oneKey) st' ∧ Ended st' 1 rc ret s := by
  obtain ⟨⟨rc, ret, s⟩, h⟩ := Option.isSome_iff_exists.mp
    (by decide +kernel : (serve oneKey (flushCall 1)).isSome)
  obtain ⟨st', ha, hend⟩ : ∃ st', Alone flushCall 1 (begin oneKey) st' ∧ Ended st' 1 rc ret s :=
    serve_alone (C0Node.bst_null.insert ['a'] ['1'] 0) rfl rfl h
  exact ⟨rc, ret, s, st', h, ha, hend⟩

end Concurrent

end LsmKv
