import LsmKv.C1.Sources
import LsmKv.Journal.Durable
import LsmKv.Journal.Steps
import LsmKv.Store.Deleted

/-!
# Concurrent requests for any keys (`server-part1.c`)

`server_1_*_request` and `my_timer_handler` cut at their mutexes.  Between two sections of one
thread any others may run; a dump under `c0_mutex` is cut at its calls, and `c1_get`, which takes
no mutex, at its reads.  What a thread reads after giving a mutex back is a section of its own; what
it found in the cache may be freed by then.

* `Phase`            where a thread stands in its request;
* `Dump`             the dump that holds `c0_mutex`, if there is one, and what is there meanwhile;
* `Frees`            a section under `cache_mutex` frees what another thread has found;
* `Section`, `step`  the sections and what each does to the store and its thread;
* `KeepsStrings`     the condition that it does not, and that no PUT lends its line to `_T`;
* `Inv`              all that is stored, or carried by a thread, has an origin;
* `get_reads_stored` what a GET returns was stored for its key before, or is the placeholder;
* `get_reads_freed`  without the condition it returns anything.
-/

set_option linter.unusedSectionVars false

namespace LsmKv

/-- the key of a request -/
def Req.key : Req → CStr
  | .put key _ => key
  | .insert key _ => key
  | .delete key => key
  | .get key => key
  | .timer => []

/-- the value that a request caches after its section under `c0_mutex` -/
def Req.value : Req → Option CStr
  | .put _ value => some value
  | .insert _ value => some value
  | _ => none

namespace Concurrent

open Crash Crash.Code Run

/-- `hit` and `found` hold the node of the cache and of `_T`, `reading` the string of the former,
and `freed` one of these two after `free`; a node of `_T` that went into a dump is not freed, and
nothing changes it any more -/
inductive Phase where
  | start
  | hit
  | reading (defn : CStr)
  | freed
  | missed
  | found
  | detached (value : CStr)
  | c1
  | opened (n : Int)
  | searching (n startline endline : Int)
  | dumping
  | deleted
  | fill (value : CStr)
  | returned (rc : Int) (ret : CStr)
  deriving DecidableEq, Repr

inductive Section (τ : Type) where
  | cacheLookup (t : τ)
  | readHit (t : τ)
  | copyHit (t : τ)
  | copyFreed (t : τ) (bytes : CStr)
  | c0Section (t : τ)
  | copyValue (t : τ)
  | c1Open (t : τ)
  | c1Lines (t : τ) (startline endline : Int)
  | c1Read (t : τ)
  | dumpCall (t : τ) (ok : Bool)
  | dumpEnd (t : τ)
  | cacheUpdate (t : τ)
  deriving DecidableEq, Repr

/-- `c0_dump(T)`, called in the state `store`, and what its calls so far came to -/
structure Dump where
  T : C0Node
  store : Store
  outcomes : List Outcome

def Dump.run (d : Dump) (os : List Outcome) : End Sys Unit := c0DumpIo d.T ⟨d.store, []⟩ os

/-- the state before its next call -/
def Dump.view (d : Dump) : Option Sys := (d.run (d.outcomes ++ [.crash])).state

/-- the store, the mutating requests that have written it, oldest first, where each thread stands,
and the dump under way -/
structure Threads (τ : Type) where
  store : Store
  hist : List Req
  phase : τ → Phase
  dump : Option Dump

/-- the files as a dump has them -/
def withFiles (s : Store) (sys : Sys) : Store :=
  { s with c1 := sys.store.c1, txLog := sys.store.txLog }

/-- a dump takes the tree of a node that a thread holds -/
def Phase.detach (T : C0Node) (key : CStr) : Phase → Phase
  | .found => ((T.find key).map fun e => .detached e.value.chars).getD .found
  | p => p

/-- the node of `node`, or the string of `string`'s node, is what the thread holds for its key -/
def Phase.loses (node string : Option CStr) (key : CStr) : Phase → Bool
  | .hit => node = some key
  | .reading _ => node = some key ∨ string = some key
  | _ => false

section
variable {τ : Type} [DecidableEq τ]

/-- every thread is about to make its request -/
def begin (s : Store) : Threads τ := ⟨s, [], fun _ => .start, none⟩

/-- thread `t` leaves its section -/
def Threads.leave (st : Threads τ) (t : τ) (s : Store) (p : Phase) : Threads τ :=
  { st with store := s, phase := Function.update st.phase t p }

variable (call : τ → Req)

/-- a section that writes `_T` -/
def Threads.write (st : Threads τ) (t : τ) (s : Store) (p : Phase) : Threads τ :=
  { st.leave t s p with hist := st.hist ++ [call t] }

/-- where the threads stand when a dump has taken `T` -/
def Threads.detached (st : Threads τ) (T : C0Node) (u : τ) : Phase :=
  (st.phase u).detach T (call u).key

/-- `c0_batch = T; _T = NULL; c0_dump(c0_batch)` up to its first call -/
def Threads.beginDump (st : Threads τ) (t : τ) (T : C0Node) : Option (Threads τ) := do
  let d : Dump := ⟨T, { st.store with T := .null }, []⟩
  let sys ← d.view
  some { st with
    store := withFiles { st.store with T := .null } sys
    phase := Function.update (st.detached call T) t .dumping
    dump := some d }

/-- `_T = Insert(_T, key, value, 0)`, and the dump of a full table -/
def Threads.insertC0 (st : Threads τ) (t : τ) (key value : CStr) : Option (Threads τ) :=
  let T := st.store.T.insert key value 0
  if T.c0Size = maxC0Size then { st with hist := st.hist ++ [call t] }.beginDump call t T
  else some (st.write call t { st.store with T := T } (.fill value))

def cacheLookup (st : Threads τ) (t : τ) : Option (Threads τ) :=
  match call t, st.phase t with
  | .get key, .start =>
    let (cacheLookup, cache) := cacheGet st.store.cache key
    let s := { st.store with cache := cache }
    some (st.leave t s (if cacheLookup.isSome then .hit else .missed))
  | .insert key _, .start =>
    let (cacheLookup, cache) := cacheGet st.store.cache key
    let s := { st.store with cache := cache }
    some (st.leave t s (if cacheLookup.isSome then .returned exitFailure duplicate else .missed))
  | _, _ => none

/-- `cache_lookup->defn`, where the node is still in the cache -/
def readHit (st : Threads τ) (t : τ) : Option (Threads τ) :=
  match call t, st.phase t with
  | .get key, .hit =>
    (cacheGet st.store.cache key).1.map fun defn => st.leave t st.store (.reading defn)
  | _, _ => none

def copyHit (st : Threads τ) (t : τ) : Option (Threads τ) :=
  match call t, st.phase t with
  | .get _, .reading defn => some (st.leave t st.store (.returned exitSuccess defn))
  | _, _ => none

/-- the node or its string was freed: `strcpy` copies whatever bytes are there now -/
def copyFreed (st : Threads τ) (t : τ) (bytes : CStr) : Option (Threads τ) :=
  match call t, st.phase t with
  | .get _, .freed => some (st.leave t st.store (.returned exitSuccess bytes))
  | _, _ => none

/-- a section under `c0_mutex`, which no dump holds -/
def c0Section (st : Threads τ) (t : τ) : Option (Threads τ) :=
  match st.dump with
  | some _ => none
  | none =>
    match call t, st.phase t with
    | .get key, .missed =>
      some (st.leave t st.store (if (st.store.T.get key).isSome then .found else .c1))
    | .put key value, .start =>
      match st.store.T.get key with
      | some _ =>
        let T := (st.store.T.update key ⟨value, true⟩ 0).2
        some (st.write call t { st.store with T := T } (.fill value))
      | none => st.insertC0 call t key value
    | .insert key value, .missed =>
      match st.store.T.get key with
      | some _ => some (st.leave t st.store (.returned exitFailure duplicate))
      | none => st.insertC0 call t key value
    | .delete key, .start => some (st.write call t (deleteC0 st.store key) .deleted)
    | .timer, .start => st.beginDump call t st.store.T
    | _, _ => none

def copyValue (st : Threads τ) (t : τ) : Option (Threads τ) :=
  match call t, st.phase t with
  | .get key, .found => (st.store.T.find key).map fun e => st.leave t st.store (.fill e.value.chars)
  | .get _, .detached value => some (st.leave t st.store (.fill value))
  | _, _ => none

/-- `fopen` of the data file `file_counter` -/
def c1Open (st : Threads τ) (t : τ) : Option (Threads τ) :=
  match call t, st.phase t with
  | .get _, .c1 =>
    (st.store.c1.files st.store.c1.fileCounter).map fun _ =>
      st.leave t st.store (.opened st.store.c1.fileCounter)
  | _, _ => none

/-- The range from `ssindex`: a dump may be writing the index meanwhile, slot by slot, so that any
lines may be read from it. -/
def c1Lines (st : Threads τ) (t : τ) (startline endline : Int) : Option (Threads τ) :=
  match call t, st.phase t with
  | .get _, .opened n => some (st.leave t st.store (.searching n startline endline))
  | _, _ => none

/-- one round of `c1_search`; the file may have grown since -/
def c1Read (st : Threads τ) (t : τ) : Option (Threads τ) :=
  match call t, st.phase t with
  | .get key, .searching n startline endline =>
    if endline ≥ startline then do
      let mid := (endline - startline) / 2 + startline
      let file ← st.store.c1.files n
      let line ← (if 0 ≤ mid then file[mid.toNat]? else none)
      match sscanf line with
      | (some rKey, some val, _) =>
        some (st.leave t st.store (
          if strcmp rKey key = 0 then .fill val
          else if strcmp rKey key > 0 then .searching n startline (mid - 1)
          else .searching n (mid + 1) endline))
      | _ => none
    else none
  | _, _ => none

/-- the next call of the dump -/
def dumpCall (st : Threads τ) (t : τ) (ok : Bool) : Option (Threads τ) :=
  match st.phase t, st.dump with
  | .dumping, some d => do
    let d := { d with outcomes := d.outcomes ++ [if ok then .ok else .fails] }
    let sys ← d.view
    some { st with store := withFiles st.store sys, dump := some d }
  | _, _ => none

/-- where a request goes on after its dump -/
def afterDump (r : Req) : Phase :=
  match r.value with
  | some value => .fill value
  | none => .returned exitSuccess []

/-- the calls of the dump that are left, with no other section between them, and the unlock -/
def dumpEnd (st : Threads τ) (t : τ) : Option (Threads τ) :=
  match st.phase t, st.dump with
  | .dumping, some d =>
    match d.run d.outcomes with
    | .done _ sys _ =>
      some { st.leave t (withFiles st.store sys) (afterDump (call t)) with dump := none }
    | _ => none
  | _, _ => none

/-- the node that `cache_put` evicts or `cache_invalidate` removes, by its key -/
def freedNode (st : Threads τ) (t : τ) : Option CStr :=
  match st.phase t with
  | .fill _ =>
    if st.store.cache.Has (call t).key ∨ st.store.cache.globalCacheCount < cacheSize then none
    else st.store.cache.keys.getLast?
  | .deleted => if st.store.cache.Has (call t).key then some (call t).key else none
  | _ => none

/-- the node whose string `cache_put` replaces -/
def freedString (st : Threads τ) (t : τ) : Option CStr :=
  match st.phase t with
  | .fill _ => if st.store.cache.Has (call t).key then some (call t).key else none
  | _ => none

/-- the last section of thread `t` frees what thread `u` has found and not copied -/
def Frees (st : Threads τ) (t u : τ) : Prop :=
  (st.phase u).loses (freedNode call st t) (freedString call st t) (call u).key = true

instance (st : Threads τ) (t u : τ) : Decidable (Frees call st t u) :=
  inferInstanceAs (Decidable (_ = true))

def Threads.free (st : Threads τ) (t : τ) : Threads τ :=
  { st with phase := fun u => if Frees call st t u then .freed else st.phase u }

/-- the section under `cache_mutex` that ends a request -/
def cacheUpdate (st : Threads τ) (t : τ) : Option (Threads τ) :=
  match st.phase t with
  | .fill value => do
    let cache ← cachePut st.store.cache (call t).key value
    let ret := match call t with
      | .get _ => value
      | _ => success
    some ((st.free call t).leave t { st.store with cache := cache } (.returned exitSuccess ret))
  | .deleted =>
    let cache := cacheInvalidate st.store.cache (call t).key
    some ((st.free call t).leave t { st.store with cache := cache }
      (.returned exitSuccess success))
  | _ => none

/-- one section of the thread's request; no result where it is not the thread's next one -/
def step (st : Threads τ) : Section τ → Option (Threads τ)
  | .cacheLookup t => cacheLookup call st t
  | .readHit t => readHit call st t
  | .copyHit t => copyHit call st t
  | .copyFreed t bytes => copyFreed call st t bytes
  | .c0Section t => c0Section call st t
  | .copyValue t => copyValue call st t
  | .c1Open t => c1Open call st t
  | .c1Lines t startline endline => c1Lines call st t startline endline
  | .c1Read t => c1Read call st t
  | .dumpCall t ok => dumpCall st t ok
  | .dumpEnd t => dumpEnd call st t
  | .cacheUpdate t => cacheUpdate call st t

/-- nothing is freed that a GET has found and is about to copy, and no PUT leaves in `_T` a pointer
into the line that its handler frees -/
def KeepsStrings (st : Threads τ) : Section τ → Prop
  | .cacheUpdate t => ∀ u, ¬ Frees call st t u
  | .c0Section t => ¬ Req.Lends st.store (call t)
  | _ => True

/-! ## origins -/

/-- what a thread has in hand -/
def Phase.Carries (tok : Prop) (hist : List Req) (r : Req) : Phase → Prop
  | .reading v => Origin tok hist r.key v
  | .freed => False
  | .detached v => Origin tok hist r.key v
  | .fill v => Origin tok hist r.key v
  | .dumping => (∀ k, r ≠ .get k) ∧ ∀ v, r.value = some v → Origin tok hist r.key v
  | .deleted => ∀ k, r ≠ .get k
  | .returned rc ret => ∀ k, r = .get k → rc = exitSuccess ∧ Origin tok hist k ret
  | _ => True

/-- **Everything stored or in hand has an origin** in the requests that have begun. -/
structure Inv (tok : Prop) (st : Threads τ) : Prop where
  store : Deleted.Inv tok st.store st.hist
  files : st.store.c1.All (SourcedLine tok st.hist)
  phases : ∀ t, (st.phase t).Carries tok st.hist (call t)
  tree : ∀ d, st.dump = some d → ∀ e ∈ d.T.entries, Sourced tok st.hist e
  dump : ∀ d, st.dump = some d → d.store.c1.All (SourcedLine tok st.hist)
  begun : ∀ r ∈ st.hist, ∃ t, call t = r ∧ st.phase t ≠ .start

variable {call} {tok : Prop} {st st' : Threads τ} {t : τ}

theorem Phase.Carries.append {hist : List Req} {r : Req} {p : Phase} (h : p.Carries tok hist r)
    (rs : List Req) : p.Carries tok (hist ++ rs) r := by
  cases p with
  | reading v => exact Origin.append h rs
  | detached v => exact Origin.append h rs
  | fill v => exact Origin.append h rs
  | dumping => exact ⟨h.1, fun v hv => (h.2 v hv).append rs⟩
  | returned rc ret => exact fun k hk => ⟨(h k hk).1, (h k hk).2.append rs⟩
  | _ => exact h

theorem Phase.Carries.detach {hist : List Req} {r : Req} {p : Phase} (h : p.Carries tok hist r)
    {T : C0Node} (hT : ∀ e ∈ T.entries, Sourced tok hist e) :
    (p.detach T r.key).Carries tok hist r := by
  cases p with
  | found =>
    show Phase.Carries tok hist r (((T.find r.key).map _).getD _)
    cases he : T.find r.key with
    | none => exact h
    | some e =>
      obtain ⟨hmem, hkey⟩ := KeySorted.lookup_some he
      have ho := (hT e hmem).origin
      rw [hkey] at ho
      exact ho
  | _ => exact h

theorem detach_ne_start {T : C0Node} {key : CStr} {p : Phase} (h : p ≠ .start) :
    p.detach T key ≠ .start := by
  cases p with
  | found =>
    show ((T.find key).map _).getD _ ≠ Phase.start
    cases T.find key <;> simp
  | _ => exact h

/-- a thread that has begun is not at its start any more -/
theorem update_ne_start {f : τ → Phase} {p : Phase} {u : τ} (hp : p ≠ .start)
    (hu : u ≠ t → f u ≠ .start) : Function.update f t p u ≠ .start := by
  rcases eq_or_ne u t with rfl | hut
  · rwa [Function.update_self]
  · rw [Function.update_of_ne hut]
    exact hu hut

/-- a thread leaves its section -/
theorem Inv.move (h : Inv call tok st) {s : Store} {p : Phase} {rs : List Req}
    (hrs : ∀ r ∈ rs, r = call t) (hs : Deleted.Inv tok s (st.hist ++ rs))
    (hf : s.c1.All (SourcedLine tok (st.hist ++ rs)))
    (hp : p.Carries tok (st.hist ++ rs) (call t)) (hne : p ≠ .start) :
    Inv call tok { st.leave t s p with hist := st.hist ++ rs } where
  store := hs
  files := hf
  phases u := by
    show Phase.Carries tok _ (call u) (Function.update st.phase t p u)
    rcases eq_or_ne u t with rfl | hut
    · rwa [Function.update_self]
    · rw [Function.update_of_ne hut]
      exact (h.phases u).append rs
  tree d hd e he := (h.tree d hd e he).append rs
  dump d hd := (h.dump d hd).mono fun l hl => hl.append rs
  begun r hr := by
    rcases List.mem_append.mp hr with hr | hr
    · obtain ⟨u, hu, hph⟩ := h.begun r hr
      exact ⟨u, hu, update_ne_start hne fun _ => hph⟩
    · exact ⟨t, (hrs r hr).symm, update_ne_start hne fun hut => absurd rfl hut⟩

theorem Inv.files_append (h : Inv call tok st) (rs : List Req) :
    st.store.c1.All (SourcedLine tok (st.hist ++ rs)) := h.files.mono fun _ hl => hl.append rs

/-- a section that writes neither `_T` nor a file -/
theorem Inv.leave (h : Inv call tok st) {s : Store} {p : Phase} (hs : Deleted.Inv tok s st.hist)
    (hc : s.c1 = st.store.c1) (hp : p.Carries tok st.hist (call t)) (hne : p ≠ .start) :
    Inv call tok (st.leave t s p) := by
  have hnil : st.hist ++ [] = st.hist := List.append_nil _
  have hmove : Inv call tok { st.leave t s p with hist := st.hist ++ [] } :=
    h.move (by simp) (hnil.symm ▸ hs) (hc ▸ h.files_append []) (hnil.symm ▸ hp) hne
  rwa [hnil] at hmove

theorem Inv.noDump (h : Inv call tok st) : Inv call tok { st with dump := none } :=
  ⟨h.store, h.files, h.phases, by simp, by simp, h.begun⟩

theorem upholds_c0DumpIo {A : Line → Prop} (hb : A blank) {T : C0Node}
    (h : ∀ e ∈ T.entries, A (keyval e)) :
    Upholds (fun s : Sys => s.dev.c1.All A) (fun _ => True) (c0DumpIo T) := by
  unfold c0DumpIo
  dsimp only
  split_ifs
  · exact .pure trivial
  · rw [C0Node.dumpToArray_mapM]
    refine .bind (.ofOption (R := fun nodes => nodes = T.entries) fun x hx => ?_) fun nodes hn => ?_
    · exact (Option.some.inj hx).symm
    · subst hn
      refine .bind (.zoom (upholds_c1BatchInsertIo hb h) fun d s => rfl) fun rc _ => ?_
      split_ifs
      · exact .bind (.call fun s hs => hs) fun _ _ => .pure trivial
      · exact .pure trivial

/-- what a dump leaves in the files at any of its calls -/
theorem dump_files {hist : List Req} {d : Dump} {sys : Sys} {os : List Outcome}
    (hT : ∀ e ∈ d.T.entries, Sourced tok hist e) (hc : d.store.c1.All (SourcedLine tok hist))
    (h : (d.run os).state = some sys) : sys.store.c1.All (SourcedLine tok hist) :=
  (upholds_c0DumpIo (Or.inl rfl) fun e he => Or.inr ⟨e, hT e he, rfl⟩).state
    (s := ⟨d.store, []⟩) hc h

/-- the store with the files of a dump -/
theorem stored_withFiles {s : Store} {hist : List Req} (h : Deleted.Inv tok s hist) {sys : Sys}
    (hf : sys.store.c1.All (SourcedLine tok hist)) : Deleted.Inv tok (withFiles s sys) hist :=
  ⟨h.wf, h.bst, h.cache, h.tree, hf.current⟩

/-- the new tree is empty -/
theorem stored_null {s : Store} {hist : List Req} (h : Deleted.Inv tok s hist) :
    Deleted.Inv tok { s with T := .null } hist :=
  ⟨h.wf, C0Node.bst_null, h.cache, by simp, h.file⟩

/-- a dump is begun -/
theorem Inv.beginDump (h : Inv call tok st) {T : C0Node} {rs : List Req}
    (hrs : ∀ r ∈ rs, r = call t) (hT : ∀ e ∈ T.entries, Sourced tok (st.hist ++ rs) e)
    (hv : Phase.Carries tok (st.hist ++ rs) (call t) .dumping)
    (hs : { st with hist := st.hist ++ rs }.beginDump call t T = some st') : Inv call tok st' := by
  obtain ⟨sys, hview, hs⟩ := Option.bind_eq_some_iff.mp hs
  cases hs
  have hc := h.files_append rs
  have hf := dump_files (d := ⟨T, { st.store with T := .null }, []⟩) hT hc hview
  refine ⟨stored_withFiles (stored_null (h.store.append rs)) hf, hf, fun u => ?_, ?_, ?_, ?_⟩
  · show Phase.Carries tok (st.hist ++ rs) (call u) (Function.update (st.detached call T) t _ u)
    rcases eq_or_ne u t with rfl | hut
    · rw [Function.update_self]
      exact hv
    · rw [Function.update_of_ne hut]
      exact ((h.phases u).append rs).detach hT
  · rintro d hd
    cases hd
    exact hT
  · rintro d hd
    cases hd
    exact hc
  · have hne : ∀ u, (u ≠ t → st.phase u ≠ .start) →
        Function.update (st.detached call T) t .dumping u ≠ .start := fun u hu =>
      update_ne_start (by simp) fun hut => detach_ne_start (hu hut)
    intro r hr
    rcases List.mem_append.mp hr with hr | hr
    · obtain ⟨u, hu, hph⟩ := h.begun r hr
      exact ⟨u, hu, hne u fun _ => hph⟩
    · exact ⟨t, (hrs r hr).symm, hne t fun hut => absurd rfl hut⟩

/-! ## the sections -/

theorem Inv.cacheLookup (h : Inv call tok st) (hs : cacheLookup call st t = some st') :
    Inv call tok st' := by
  unfold Concurrent.cacheLookup at hs
  split at hs
  · cases hs
    exact h.leave (h.store.lookup _) rfl (by split_ifs <;> trivial) (by split_ifs <;> simp)
  · rename_i key value hc hp
    cases hs
    refine h.leave (h.store.lookup _) rfl ?_ (by split_ifs <;> simp)
    split_ifs
    · exact fun k hk => by rw [hc] at hk; cases hk
    · trivial
  · cases hs

theorem Inv.readHit (h : Inv call tok st) (hs : readHit call st t = some st') :
    Inv call tok st' := by
  unfold Concurrent.readHit at hs
  split at hs
  · rename_i key hc hp
    obtain ⟨defn, hg, rfl⟩ := Option.map_eq_some_iff.mp hs
    refine h.leave h.store rfl ?_ (by simp)
    rw [hc]
    exact h.store.cache _ (cacheGet_hit hg).1
  · cases hs

theorem Inv.copyHit (h : Inv call tok st) (hs : copyHit call st t = some st') :
    Inv call tok st' := by
  unfold Concurrent.copyHit at hs
  split at hs
  · rename_i key defn hc hp
    cases hs
    refine h.leave h.store rfl (fun k hk => ⟨rfl, ?_⟩) (by simp)
    have hv := h.phases t
    rw [hp, hk] at hv
    exact hv
  · cases hs

/-- there is nothing freed to copy -/
theorem Inv.copyFreed (h : Inv call tok st) {bytes : CStr}
    (hs : copyFreed call st t bytes = some st') : Inv call tok st' := by
  unfold Concurrent.copyFreed at hs
  split at hs
  · rename_i hp
    have hv := h.phases t
    rw [hp] at hv
    exact hv.elim
  · cases hs

/-- the section of a PUT or INSERT that makes a node for its key -/
theorem Inv.insertC0 (h : Inv call tok st) (htok : tok → Token (call t)) {key value : CStr}
    (hc : call t = .put key value ∨ call t = .insert key value)
    (hs : st.insertC0 call t key value = some st') : Inv call tok st' := by
  have hnew : Sourced tok (st.hist ++ [call t]) ⟨key, ⟨value, false⟩, 0⟩ := by
    rcases hc with hc | hc <;> rw [hc] at htok ⊢
    · exact sourced_put htok false
    · exact sourced_insert htok
  have hkey : (call t).key = key := by rcases hc with hc | hc <;> rw [hc] <;> rfl
  have hval : (call t).value = some value := by rcases hc with hc | hc <;> rw [hc] <;> rfl
  have ho : Origin tok (st.hist ++ [call t]) (call t).key value := hkey ▸ hnew.origin
  have happ := h.store.append [call t]
  have hT := insert_sourced happ.bst happ.tree hnew
  have hrs : ∀ r ∈ [call t], r = call t := fun r hr => List.mem_singleton.mp hr
  unfold Threads.insertC0 at hs
  dsimp only at hs
  split_ifs at hs with hsize
  · refine h.beginDump hrs hT ⟨fun k hk => ?_, fun v hv => ?_⟩ hs
    · rcases hc with hc | hc <;> cases hc.symm.trans hk
    · exact Option.some.inj (hval.symm.trans hv) ▸ ho
  · cases hs
    exact h.move hrs ⟨happ.wf, happ.bst.insert _ _ _, happ.cache, hT, happ.file⟩
      (h.files_append _) ho (by simp)

theorem Inv.c0Section (h : Inv call tok st) (htok : tok → Token (call t))
    (hs : c0Section call st t = some st') : Inv call tok st' := by
  have hrs : ∀ r ∈ [call t], r = call t := fun r hr => List.mem_singleton.mp hr
  unfold Concurrent.c0Section at hs
  split at hs
  · cases hs
  · split at hs
    · cases hs
      exact h.leave h.store rfl (by split_ifs <;> trivial) (by split_ifs <;> simp)
    · rename_i key value hc hp
      split at hs
      · rename_i e hg
        cases hs
        have hnew : ∀ lent, Sourced tok (st.hist ++ [call t]) ⟨key, ⟨value, lent⟩, 0⟩ := fun lent =>
          hc ▸ sourced_put (hc ▸ htok) lent
        have hput := (h.store.append [call t]).putC0 hnew (putC0_root hg)
        have hkey : (call t).key = key := by
          rw [hc]
          rfl
        refine h.move hrs hput (h.files_append _) ?_ (by simp)
        show Origin tok _ (call t).key value
        rw [hkey]
        exact (hnew true).origin
      · exact h.insertC0 htok (Or.inl hc) hs
    · rename_i key value hc hp
      split at hs
      · cases hs
        exact h.leave h.store rfl (fun k hk => by rw [hc] at hk; cases hk) (by simp)
      · exact h.insertC0 htok (Or.inr hc) hs
    · rename_i key hc hp
      cases hs
      have hdel := (h.store.append [call t]).delete
        (sourced_delete (hc ▸ htok) : Sourced tok (st.hist ++ [call t]) ⟨key, _, _⟩)
      obtain ⟨hcache, hc1, -⟩ := deleteC0_frame st.store key
      refine h.move hrs ⟨?_, hdel.bst, ?_, hdel.tree, hdel.file⟩ (hc1.symm ▸ h.files_append _)
        (fun k hk => ?_) (by simp)
      · rw [hcache]
        exact h.store.wf
      · rw [hcache]
        exact (h.store.append [call t]).cache
      · cases hc.symm.trans hk
    · rename_i hc hp
      have hnil : st.hist ++ [] = st.hist := List.append_nil _
      refine h.beginDump (T := st.store.T) (t := t) (fun r hr => by cases hr)
        (hnil.symm ▸ h.store.tree) ⟨fun k hk => ?_, fun v hv => ?_⟩ (by rwa [hnil])
      · cases hc.symm.trans hk
      · rw [hc] at hv
        cases hv
    · cases hs

theorem Inv.copyValue (h : Inv call tok st) (hs : copyValue call st t = some st') :
    Inv call tok st' := by
  unfold Concurrent.copyValue at hs
  split at hs
  · rename_i key hc hp
    obtain ⟨e, he, rfl⟩ := Option.map_eq_some_iff.mp hs
    obtain ⟨hmem, hkey⟩ := KeySorted.lookup_some he
    refine h.leave h.store rfl ?_ (by simp)
    rw [hc]
    exact hkey ▸ (h.store.tree e hmem).origin
  · rename_i hp
    cases hs
    have hv := h.phases t
    rw [hp] at hv
    exact h.leave h.store rfl hv (by simp)
  · cases hs

theorem Inv.c1Open (h : Inv call tok st) (hs : c1Open call st t = some st') :
    Inv call tok st' := by
  unfold Concurrent.c1Open at hs
  split at hs
  · obtain ⟨-, -, rfl⟩ := Option.map_eq_some_iff.mp hs
    exact h.leave h.store rfl trivial (by simp)
  · cases hs

theorem Inv.c1Lines (h : Inv call tok st) {startline endline : Int}
    (hs : c1Lines call st t startline endline = some st') : Inv call tok st' := by
  unfold Concurrent.c1Lines at hs
  split at hs
  · cases hs
    exact h.leave h.store rfl trivial (by simp)
  · cases hs

/-- what `c1_search` finds has the origin of its record, in whichever file it reads -/
theorem Inv.c1Read (h : Inv call tok st) (hs : c1Read call st t = some st') :
    Inv call tok st' := by
  unfold Concurrent.c1Read at hs
  split at hs
  · rename_i key n startline endline hc hp
    split_ifs at hs with hle
    obtain ⟨file, hfile, hs⟩ := Option.bind_eq_some_iff.mp hs
    obtain ⟨line, hline, hs⟩ := Option.bind_eq_some_iff.mp hs
    split at hs
    · rename_i rKey val d hscan
      cases hs
      have hmem : line ∈ file := by
        split_ifs at hline
        exact List.mem_of_getElem? hline
      refine h.leave h.store rfl ?_ (by split_ifs <;> simp)
      split_ifs with heq
      · rw [hc]
        have hkey : (sscanf line).1 = some key := by rw [hscan, (strcmp_zero rKey key).mp heq]
        exact (h.files n file hfile line hmem).origin hkey (by rw [hscan])
      all_goals trivial
    · cases hs
  · cases hs

theorem Inv.dumpCall (h : Inv call tok st) {ok : Bool} (hs : dumpCall st t ok = some st') :
    Inv call tok st' := by
  unfold Concurrent.dumpCall at hs
  split at hs
  · rename_i d hp hd
    obtain ⟨sys, hview, hs⟩ := Option.bind_eq_some_iff.mp hs
    cases hs
    have hf := dump_files (h.tree d hd) (h.dump d hd) hview
    refine ⟨stored_withFiles h.store hf, hf, h.phases, ?_, ?_, h.begun⟩
    · rintro d' hd'
      cases hd'
      exact h.tree d hd
    · rintro d' hd'
      cases hd'
      exact h.dump d hd
  · cases hs

theorem Inv.dumpEnd (h : Inv call tok st) (hs : dumpEnd call st t = some st') :
    Inv call tok st' := by
  unfold Concurrent.dumpEnd at hs
  split at hs
  · rename_i d hp hd
    split at hs
    · rename_i sys os hrun
      cases hs
      have hstate : (d.run d.outcomes).state = some sys := by
        rw [hrun]
        rfl
      have hf := dump_files (h.tree d hd) (h.dump d hd) hstate
      obtain ⟨hno, hv⟩ : Phase.Carries tok st.hist (call t) .dumping := hp ▸ h.phases t
      have hnil : st.hist ++ [] = st.hist := List.append_nil _
      have hafter : (afterDump (call t)).Carries tok st.hist (call t) ∧
          afterDump (call t) ≠ .start := by
        unfold afterDump
        cases hval : (call t).value with
        | some value => exact ⟨hv value hval, by simp⟩
        | none => exact ⟨fun k hk => absurd hk (hno k), by simp⟩
      have hmove : Inv call tok { st.leave t (withFiles st.store sys) (afterDump (call t)) with
          hist := st.hist ++ [] } :=
        h.move (by simp) (hnil.symm ▸ stored_withFiles h.store hf) (hnil.symm ▸ hf)
          (hnil.symm ▸ hafter.1) hafter.2
      rw [hnil] at hmove
      exact hmove.noDump
    · cases hs
  · cases hs

theorem free_eq_self (hok : ∀ u, ¬ Frees call st t u) : st.free call t = st := by
  have hphase : (fun u => if Frees call st t u then Phase.freed else st.phase u) = st.phase :=
    funext fun u => if_neg (hok u)
  unfold Threads.free
  rw [hphase]

theorem Inv.cacheUpdate (h : Inv call tok st) (hok : ∀ u, ¬ Frees call st t u)
    (hs : cacheUpdate call st t = some st') : Inv call tok st' := by
  unfold Concurrent.cacheUpdate at hs
  rw [free_eq_self hok] at hs
  split at hs
  · rename_i value hp
    obtain ⟨cache, hput, hs⟩ := Option.bind_eq_some_iff.mp hs
    cases hs
    have hv := h.phases t
    rw [hp] at hv
    refine h.leave (h.store.cachePut hput hv) rfl (fun k hk => ⟨rfl, ?_⟩) (by simp)
    rw [hk] at hv ⊢
    exact hv
  · rename_i hp
    cases hs
    have hno : ∀ k, call t ≠ .get k := by
      have hv := h.phases t
      rwa [hp] at hv
    obtain ⟨hwf, hmem⟩ := h.store.wf.invalidate (call t).key
    exact h.leave ⟨hwf, h.store.bst, fun n hn => h.store.cache n ((hmem n).mp hn).1, h.store.tree,
      h.store.file⟩ rfl (fun k hk => absurd hk (hno k)) (by simp)
  · cases hs

/-- **One section.** -/
theorem Inv.step (h : Inv call tok st) (htok : ∀ t, tok → Token (call t)) {a : Section τ}
    (hok : KeepsStrings call st a) (hs : step call st a = some st') : Inv call tok st' := by
  cases a with
  | cacheLookup t => exact h.cacheLookup hs
  | readHit t => exact h.readHit hs
  | copyHit t => exact h.copyHit hs
  | copyFreed t bytes => exact h.copyFreed hs
  | c0Section t => exact h.c0Section (htok t) hs
  | copyValue t => exact h.copyValue hs
  | c1Open t => exact h.c1Open hs
  | c1Lines t startline endline => exact h.c1Lines hs
  | c1Read t => exact h.c1Read hs
  | dumpCall t ok => exact h.dumpCall hs
  | dumpEnd t => exact h.dumpEnd hs
  | cacheUpdate t => exact h.cacheUpdate hok hs

theorem Inv.begin : Inv call tok (begin Store.empty) :=
  ⟨Deleted.Inv.empty, C1.All.empty, fun _ => trivial, by simp [Concurrent.begin],
    by simp [Concurrent.begin], by simp [Concurrent.begin]⟩

end

/-- the value comes from a PUT or INSERT of the key that has begun -/
theorem stored_begun {τ : Type} {call : τ → Req} {st : Threads τ} {k v : CStr}
    (hb : ∀ r ∈ st.hist, ∃ t, call t = r ∧ st.phase t ≠ .start) (h : v ∈ storedFor st.hist k) :
    ∃ t, (call t = .put k v ∨ call t = .insert k v) ∧ st.phase t ≠ .start := by
  obtain ⟨r, hr, hv⟩ := List.mem_filterMap.mp h
  obtain ⟨t, rfl, ht⟩ := hb r hr
  refine ⟨t, ?_, ht⟩
  cases hc : call t with
  | put key value =>
    rw [hc] at hv
    obtain ⟨hk, hv⟩ := Option.ite_none_right_eq_some.mp hv
    exact Or.inl (by rw [hk, Option.some.inj hv])
  | insert key value =>
    rw [hc] at hv
    obtain ⟨hk, hv⟩ := Option.ite_none_right_eq_some.mp hv
    exact Or.inr (by rw [hk, Option.some.inj hv])
  | _ =>
    rw [hc] at hv
    cases hv

/-- a PUT, a DELETE and a GET -/
def freeCall : Fin 3 → Req
  | 0 => .put ['a'] ['1']
  | 1 => .delete ['a']
  | 2 => .get ['a']

/-- The GET finds the node in the cache, and the DELETE frees it before the string is copied. -/
def freeRun {τ : Type} (p q r : τ) (bytes : CStr) : List (Section τ) :=
  [.c0Section p, .cacheUpdate p, .cacheLookup r, .c0Section q, .cacheUpdate q, .copyFreed r bytes]

/-- **A GET that copies from freed memory** returns whatever is there. -/
theorem get_reads_freed (bytes : CStr) : ∃ st,
    run (step freeCall) (begin Store.empty) (freeRun 0 1 2 bytes) = some st ∧
      st.phase 2 = .returned exitSuccess bytes :=
  ⟨_, rfl, rfl⟩

/-- a PUT, the timer and two GETs -/
def flushCall : Fin 4 → Req
  | 0 => .put ['a'] ['1']
  | 1 => .timer
  | 2 => .get ['a']
  | 3 => .get ['a']

/-- The first GET finds neither node, then reads the file that the flush has only just written; the
second one finds what the first has cached. -/
def flushRun {τ : Type} (p q r u : τ) : List (Section τ) :=
  [.cacheLookup r, .c0Section r, .c0Section p, .c0Section q, .dumpCall q true, .dumpCall q true,
    .dumpCall q true, .c1Open r, .c1Lines r 0 0, .c1Read r, .cacheUpdate p, .cacheUpdate r,
    .cacheLookup u, .readHit u, .dumpCall q true, .copyHit u]

theorem token_flushCall : ∀ t, Token (flushCall t)
  | 0 => ⟨⟨by decide, by decide⟩, by decide⟩
  | 1 => ⟨trivial, by decide⟩
  | 2 => ⟨trivial, by decide⟩
  | 3 => ⟨trivial, by decide⟩

instance decKeepsStrings {τ : Type} [DecidableEq τ] [Fintype τ] (call : τ → Req)
    (st : Threads τ) : (a : Section τ) → Decidable (KeepsStrings call st a)
  | .cacheUpdate t => inferInstanceAs (Decidable (∀ u, ¬ Frees call st t u))
  | .c0Section t => inferInstanceAs (Decidable (¬ Req.Lends st.store (call t)))
  | .cacheLookup _ | .readHit _ | .copyHit _ | .copyFreed _ _ | .copyValue _ | .c1Open _
  | .c1Lines _ _ _ | .c1Read _ | .dumpCall _ _ | .dumpEnd _ => inferInstanceAs (Decidable True)

end Concurrent

end LsmKv
