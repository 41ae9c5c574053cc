import LsmKv.Store
import LsmKv.Lib.Run

/-!
# Concurrent requests for one key (`server-part1.c`)

`server_1_get_request` and `server_1_put_request` cut at their mutexes.  A schedule is a list of
sections, each with the thread that runs it; the string a reader copies is read from the tree
after `c0_mutex` is given back, so the copy is an action of its own.

* `Section`, `step`     the sections and what each does to the store and its thread;
* `get_sections`, `put_sections`   the sections of one call in a row are the request;
* `written`             the value of the last `Update` of a schedule;
* `carried`             the value a thread takes to its `cache_put`;
* `lastFill`            the thread whose `cache_put` is the last one;
* `Inv`                 what holds after every prefix of a schedule;
* `cache_agrees_iff`    when the cache ends with the value of the tree.
-/

set_option linter.unusedSectionVars false

namespace LsmKv.Interleave

/-- `server_1_get_request(k)` or `server_1_put_request(k, value)` -/
inductive Call where
  | get
  | put (value : CStr)
  deriving DecidableEq, Repr

/-- where a thread stands: `found` holds the node that `Get` returned, `fill` the string it will
hand to `cache_put` -/
inductive Phase where
  | start
  | missed
  | found
  | fill (value : CStr)
  | returned
  deriving DecidableEq, Repr

inductive Section (τ : Type) where
  | cacheLookup (t : τ)
  | c0Section (t : τ)
  | copyValue (t : τ)
  | cachePut (t : τ)
  deriving DecidableEq, Repr

structure Threads (τ : Type) where
  store : Store
  phase : τ → Phase

section
variable {τ : Type} [DecidableEq τ]

/-- every thread is about to make its call -/
def begin (s : Store) : Threads τ := ⟨s, fun _ => .start⟩

/-- thread `t` leaves its section -/
def Threads.leave (st : Threads τ) (t : τ) (s : Store) (p : Phase) : Threads τ :=
  ⟨s, Function.update st.phase t p⟩

variable (k : CStr) (call : τ → Call)

/-- one section of the thread's call; no result where it is not the thread's next one -/
def step (st : Threads τ) : Section τ → Option (Threads τ)
  | .cacheLookup t =>
    match call t, st.phase t with
    | .get, .start =>
      let (cacheLookup, cache) := cacheGet st.store.cache k
      let s := { st.store with cache := cache }
      some (st.leave t s (if cacheLookup.isSome then .returned else .missed))
    | _, _ => none
  | .c0Section t =>
    match call t, st.phase t with
    | .get, .missed =>
      match st.store.T.get k with
      | some _ => some (st.leave t st.store .found)
      | none => do
        let value ← c1Get st.store.c1 k
        let value ← value
        some (st.leave t st.store (.fill value))
    | .put value, .start => do
      let s ← putC0 st.store k value
      some (st.leave t s (.fill value))
    | _, _ => none
  | .copyValue t =>
    match call t, st.phase t with
    | .get, .found => (st.store.T.get k).map fun n => st.leave t st.store (.fill n.value.chars)
    | _, _ => none
  | .cachePut t =>
    match st.phase t with
    | .fill value => do
      let cache ← cachePut st.store.cache k value
      some (st.leave t { st.store with cache := cache } .returned)
    | _ => none

/-- the sections one by one -/
inductive Step (st : Threads τ) : Section τ → Threads τ → Prop where
  | hit (t : τ) (v : CStr) : call t = .get → st.phase t = .start →
      (cacheGet st.store.cache k).1 = some v →
      Step st (.cacheLookup t)
        (st.leave t { st.store with cache := (cacheGet st.store.cache k).2 } .returned)
  | miss (t : τ) : call t = .get → st.phase t = .start → ¬ st.store.cache.Has k →
      Step st (.cacheLookup t) (st.leave t st.store .missed)
  | found (t : τ) (n : Entry) : call t = .get → st.phase t = .missed → st.store.T.get k = some n →
      Step st (.c0Section t) (st.leave t st.store .found)
  | c1 (t : τ) (v : CStr) : call t = .get → st.phase t = .missed → st.store.T.get k = none →
      c1Get st.store.c1 k = some (some v) → Step st (.c0Section t) (st.leave t st.store (.fill v))
  | update (t : τ) (v : CStr) (s : Store) : call t = .put v → st.phase t = .start →
      putC0 st.store k v = some s → Step st (.c0Section t) (st.leave t s (.fill v))
  | copy (t : τ) (n : Entry) : call t = .get → st.phase t = .found → st.store.T.get k = some n →
      Step st (.copyValue t) (st.leave t st.store (.fill n.value.chars))
  | fill (t : τ) (v : CStr) (cache : Cache) : st.phase t = .fill v →
      cachePut st.store.cache k v = some cache →
      Step st (.cachePut t) (st.leave t { st.store with cache := cache } .returned)

variable {k call}

theorem step_iff {st st' : Threads τ} {a : Section τ} :
    step k call st a = some st' ↔ Step k call st a st' := by
  constructor
  · intro h
    cases a with
    | cacheLookup t =>
      simp only [step] at h
      split at h
      · rename_i hc hp
        cases hv : (cacheGet st.store.cache k).1 with
        | some v =>
          rw [hv] at h
          cases h
          exact .hit t v hc hp hv
        | none =>
          obtain ⟨hno, hsame⟩ := cacheGet_miss hv
          rw [hv, hsame] at h
          cases h
          exact .miss t hc hp hno
      · cases h
    | c0Section t =>
      simp only [step] at h
      split at h
      · rename_i hc hp
        cases hT : st.store.T.get k with
        | some n =>
          rw [hT] at h
          cases h
          exact .found t n hc hp hT
        | none =>
          rw [hT] at h
          obtain ⟨v, hv, h⟩ := Option.bind_eq_some_iff.mp h
          obtain ⟨w, rfl, h⟩ := Option.bind_eq_some_iff.mp h
          cases h
          exact .c1 t w hc hp hT hv
      · rename_i v hc hp
        obtain ⟨s, hs, h⟩ := Option.bind_eq_some_iff.mp h
        cases h
        exact .update t v s hc hp hs
      · cases h
    | copyValue t =>
      simp only [step] at h
      split at h
      · rename_i hc hp
        obtain ⟨n, hn, rfl⟩ := Option.map_eq_some_iff.mp h
        exact .copy t n hc hp hn
      · cases h
    | cachePut t =>
      simp only [step] at h
      split at h
      · rename_i v hp
        obtain ⟨cache, hcache, h⟩ := Option.bind_eq_some_iff.mp h
        cases h
        exact .fill t v cache hp hcache
      · cases h
  · intro h
    cases h with
    | hit t v hc hp hv => simp [step, hc, hp, hv]
    | miss t hc hp hno =>
      have hv := cacheGet_none_iff.mpr hno
      simp [step, hc, hp, hv, (cacheGet_miss hv).2]
    | found t n hc hp hT => simp [step, hc, hp, hT]
    | c1 t v hc hp hT hv => simp [step, hc, hp, hT, hv]
    | update t v s hc hp hs => simp [step, hc, hp, hs]
    | copy t n hc hp hT => simp [step, hc, hp, hT]
    | fill t v cache hp hcache => simp [step, hp, hcache]

/-! ## one call alone -/

@[simp] theorem leave_store (st : Threads τ) (t : τ) (s : Store) (p : Phase) :
    (st.leave t s p).store = s := rfl

@[simp] theorem leave_self (st : Threads τ) (t : τ) (s : Store) (p : Phase) :
    (st.leave t s p).phase t = p := Function.update_self ..

theorem leave_phase (st : Threads τ) (t u : τ) (s : Store) (p : Phase) :
    (st.leave t s p).phase u = if u = t then p else st.phase u := Function.update_apply ..

theorem run_step {st st' : Threads τ} {a : Section τ} {as : List (Section τ)}
    (h : Step k call st a st') : Run.run (step k call) st (a :: as)
      = Run.run (step k call) st' as := by
  rw [Run.run_cons, step_iff.mpr h]
  rfl

/-- **The sections of a reader, one after the other, are `server_1_get_request`.** -/
theorem get_sections {st : Threads τ} {t : τ} {r : Reply} (hc : call t = .get)
    (hp : st.phase t = .start) (h : server1GetRequest st.store k = some r) :
    ∃ as st', Run.run (step k call) st as = some st' ∧ st'.store = r.2.2 ∧
      st'.phase t = .returned := by
  rcases get_eq h with ⟨v, hv, rfl⟩ | ⟨hno, v, cache, hput, rfl, hread⟩
  · cases hg : (cacheGet st.store.cache k).1 with
    | none => exact absurd ⟨v, hv⟩ (cacheGet_miss hg).1
    | some w => exact ⟨[.cacheLookup t], _, run_step (.hit t w hc hp hg), rfl, leave_self ..⟩
  let missed := st.leave t st.store .missed
  let filled := { st.store with cache := cache }
  have h1 : Step k call st (.cacheLookup t) missed := .miss t hc hp hno
  rcases hread with ⟨n, hT, rfl⟩ | ⟨hT, hv⟩
  · let found := missed.leave t st.store .found
    let copied := found.leave t st.store (.fill n.value.chars)
    have h2 : Step k call missed (.c0Section t) found := .found t n hc (leave_self ..) hT
    have h3 : Step k call found (.copyValue t) copied := .copy t n hc (leave_self ..) hT
    have h4 : Step k call copied (.cachePut t) (copied.leave t filled .returned) :=
      .fill t _ cache (leave_self ..) hput
    refine ⟨[.cacheLookup t, .c0Section t, .copyValue t, .cachePut t],
      copied.leave t filled .returned, ?_, rfl, leave_self ..⟩
    rw [run_step h1, run_step h2, run_step h3, run_step h4, Run.run_nil]
  · let read := missed.leave t st.store (.fill v)
    have h2 : Step k call missed (.c0Section t) read := .c1 t v hc (leave_self ..) hT hv
    have h3 : Step k call read (.cachePut t) (read.leave t filled .returned) :=
      .fill t v cache (leave_self ..) hput
    refine ⟨[.cacheLookup t, .c0Section t, .cachePut t], read.leave t filled .returned, ?_, rfl,
      leave_self ..⟩
    rw [run_step h1, run_step h2, run_step h3, Run.run_nil]

/-- **The sections of a writer, one after the other, are `server_1_put_request`.** -/
theorem put_sections {st : Threads τ} {t : τ} {value : CStr} {r : Reply}
    (hc : call t = .put value) (hp : st.phase t = .start)
    (h : server1PutRequest st.store k value = some r) :
    ∃ st', Run.run (step k call) st [.c0Section t, .cachePut t] = some st' ∧
      st'.store = r.2.2 ∧ st'.phase t = .returned := by
  obtain ⟨s, cache, hs, hput, rfl⟩ := put_eq h
  let written := st.leave t s (.fill value)
  let filled := written.leave t { s with cache := cache } .returned
  have h1 : Step k call st (.c0Section t) written := .update t value s hc hp hs
  have h2 : Step k call written (.cachePut t) filled :=
    .fill t value cache (leave_self ..) (by rw [← putC0_frame hs] at hput; exact hput)
  refine ⟨filled, ?_, rfl, leave_self ..⟩
  rw [run_step h1, run_step h2, Run.run_nil]

/-! ## schedules -/

variable (call)

/-- the value of `k` in `_T` after a section, given the one before it -/
def after (v : CStr) : Section τ → CStr
  | .c0Section t =>
    match call t with
    | .put w => w
    | .get => v
  | _ => v

/-- the value of the last `Update` of a schedule, `v0` before the first -/
def written (v0 : CStr) (as : List (Section τ)) : CStr := as.foldl (after call) v0

/-- the string that `t` hands to `cache_put`: its own value, or what the tree held at its copy -/
def carried (v0 : CStr) (t : τ) (as : List (Section τ)) : CStr :=
  match call t with
  | .put w => w
  | .get => written call v0 (as.takeWhile (· ≠ .copyValue t))

/-- the thread of the last `cache_put` -/
def lastFill (as : List (Section τ)) : Option τ :=
  as.foldl (fun r a => match a with | .cachePut t => some t | _ => r) none

/-- every thread that has begun its call has returned -/
def AllReturned (st : Threads τ) : Prop := ∀ t, st.phase t ≠ .start → st.phase t = .returned

/-- what `t` carries is settled: it is a writer, or it has made its copy -/
def Settled (t : τ) (as : List (Section τ)) : Prop := call t = .get → .copyValue t ∈ as

theorem written_snoc (v0 : CStr) (as : List (Section τ)) (a : Section τ) :
    written call v0 (as ++ [a]) = after call (written call v0 as) a := by
  simp [written]

variable {call}

theorem carried_snoc {v0 : CStr} {t : τ} {as : List (Section τ)} (h : Settled call t as)
    (a : Section τ) : carried call v0 t (as ++ [a]) = carried call v0 t as := by
  unfold carried
  cases hc : call t with
  | put w => rfl
  | get =>
    have hno : ¬ ∀ x ∈ as, decide (x ≠ .copyValue t) = true := fun hall => by
      simpa using hall _ (h hc)
    show written call v0 _ = written call v0 _
    rw [List.takeWhile_append, if_neg]
    intro hlen
    exact hno (List.takeWhile_eq_self_iff.mp
      ((List.takeWhile_prefix _).eq_of_length hlen))

theorem carried_copy {v0 : CStr} {t : τ} {as : List (Section τ)} (hc : call t = .get)
    (h : .copyValue t ∉ as) :
    carried call v0 t (as ++ [.copyValue t]) = written call v0 as := by
  have hall : ∀ x ∈ as, decide (x ≠ .copyValue t) = true := by
    intro x hx
    simp only [ne_eq, decide_eq_true_eq]
    rintro rfl
    exact h hx
  unfold carried
  rw [hc]
  show written call v0 _ = _
  rw [List.takeWhile_append_of_pos hall]
  simp

theorem lastFill_put (as : List (Section τ)) (t : τ) :
    lastFill (as ++ [.cachePut t]) = some t := by
  simp [lastFill]

theorem lastFill_other {as : List (Section τ)} {a : Section τ} (h : ∀ t, a ≠ .cachePut t) :
    lastFill (as ++ [a]) = lastFill as := by
  unfold lastFill
  rw [List.foldl_append]
  cases a with
  | cachePut t => exact absurd rfl (h t)
  | _ => rfl

/-- what every prefix of a schedule leaves behind -/
structure Inv (k : CStr) (call : τ → Call) (v0 : CStr) (as : List (Section τ))
    (st : Threads τ) : Prop where
  wf : st.store.cache.Wf
  root : ∃ n, st.store.T.get k = some n ∧ n.value.chars = written call v0 as
  copied : ∀ t, .copyValue t ∈ as → st.phase t = .returned ∨ ∃ v, st.phase t = .fill v
  filling : ∀ t v, st.phase t = .fill v → Settled call t as ∧ v = carried call v0 t as
  cached : ∀ v, (k, v) ∈ st.store.cache.nodes →
    v = match lastFill as with
      | none => v0
      | some t => carried call v0 t as
  filled : ∀ t, lastFill as = some t → st.store.cache.Has k ∧ Settled call t as
  pending : lastFill as = none → written call v0 as = v0 ∨ ∃ t v, st.phase t = .fill v

theorem Settled.snoc {t : τ} {as : List (Section τ)} (h : Settled call t as) (a : Section τ) :
    Settled call t (as ++ [a]) := fun hc => List.mem_append_left _ (h hc)

theorem inv_begin {s : Store} {n : Entry} (hwf : s.cache.Wf) (hroot : s.T.get k = some n)
    (hcache : ∀ v, (k, v) ∈ s.cache.nodes → v = n.value.chars) :
    Inv k call n.value.chars [] (begin s : Threads τ) where
  wf := hwf
  root := ⟨n, hroot, rfl⟩
  copied t h := by simp at h
  filling t v h := by cases h
  cached := hcache
  filled t h := by cases h
  pending _ := Or.inl rfl

/-- a section that is neither an `Update` nor a `cache_put` and ends in the phase `p` -/
theorem Inv.quiet {v0 : CStr} {as : List (Section τ)} {st : Threads τ} (h : Inv k call v0 as st)
    {a : Section τ} {t : τ} {cache : Cache} {p : Phase}
    (hput : ∀ u, a ≠ .cachePut u) (hafter : after call (written call v0 as) a = written call v0 as)
    (hcopy : ∀ u, a = .copyValue u → u = t ∧ ∃ v, p = .fill v)
    (hbefore : .copyValue t ∉ as ∧ ∀ v, st.phase t ≠ .fill v)
    (hp : ∀ v, p = .fill v → Settled call t (as ++ [a]) ∧ v = carried call v0 t (as ++ [a]))
    (hwf : cache.Wf) (hmem : ∀ m, m ∈ cache.nodes ↔ m ∈ st.store.cache.nodes) :
    Inv k call v0 (as ++ [a]) (st.leave t { st.store with cache := cache } p) where
  wf := hwf
  root := by
    obtain ⟨n, hn, hv⟩ := h.root
    exact ⟨n, hn, by rw [hv, written_snoc, hafter]⟩
  copied u hu := by
    rw [leave_phase]
    split_ifs with e
    · subst e
      rcases List.mem_append.mp hu with hu | hu
      · exact absurd hu hbefore.1
      · exact Or.inr (hcopy u (List.mem_singleton.mp hu).symm).2
    · rcases List.mem_append.mp hu with hu | hu
      · exact h.copied u hu
      · exact absurd (hcopy u (List.mem_singleton.mp hu).symm).1 e
  filling u v hu := by
    rw [leave_phase] at hu
    split_ifs at hu with e
    · subst e
      exact hp v hu
    · obtain ⟨hs, rfl⟩ := h.filling u v hu
      exact ⟨hs.snoc a, (carried_snoc hs a).symm⟩
  cached v hv := by
    rw [h.cached v ((hmem _).mp hv), lastFill_other hput]
    cases hl : lastFill as with
    | none => rfl
    | some u => exact (carried_snoc (h.filled u hl).2 a).symm
  filled u hu := by
    rw [lastFill_other hput] at hu
    obtain ⟨⟨v, hv⟩, hs⟩ := h.filled u hu
    exact ⟨⟨v, (hmem _).mpr hv⟩, hs.snoc a⟩
  pending hl := by
    rw [lastFill_other hput] at hl
    rw [written_snoc, hafter]
    refine (h.pending hl).imp_right fun ⟨u, v, hu⟩ => ⟨u, v, ?_⟩
    rw [leave_phase, if_neg]
    · exact hu
    · rintro rfl
      exact hbefore.2 v hu

/-- the section of `server_1_put_request` under `c0_mutex` -/
theorem Inv.update {v0 : CStr} {as : List (Section τ)} {st : Threads τ} (h : Inv k call v0 as st)
    {t : τ} {v : CStr} {s : Store} (hc : call t = .put v) (hp : st.phase t = .start)
    (hs : putC0 st.store k v = some s) :
    Inv k call v0 (as ++ [.c0Section t]) (st.leave t s (.fill v)) where
  wf := by
    rw [leave_store, putC0_frame hs]
    exact h.wf
  root := by
    obtain ⟨n, hn, -⟩ := h.root
    obtain ⟨l, r, ht, hT, -⟩ := C0Node.get_eq_some hn
    rw [putC0_root hn] at hs
    cases hs
    refine ⟨⟨k, ⟨v, true⟩, 0⟩, ?_, ?_⟩
    · rw [leave_store, hT]
      simp [C0Node.update, C0Node.get, (strcmp_zero k k).mpr]
    · rw [written_snoc]
      simp only [after, hc]
  copied u hu := by
    have hu' : .copyValue u ∈ as := by simpa using hu
    rw [leave_phase]
    split_ifs with e
    · exact Or.inr ⟨v, rfl⟩
    · exact h.copied u hu'
  filling u w hu := by
    rw [leave_phase] at hu
    split_ifs at hu with e
    · subst e
      cases hu
      refine ⟨fun hg => ?_, ?_⟩
      · rw [hc] at hg
        cases hg
      · simp only [carried, hc]
    · obtain ⟨hs, rfl⟩ := h.filling u w hu
      exact ⟨hs.snoc _, (carried_snoc hs _).symm⟩
  cached w hw := by
    rw [leave_store, putC0_frame hs] at hw
    rw [h.cached w hw, lastFill_other (by simp)]
    cases hl : lastFill as with
    | none => rfl
    | some u => exact (carried_snoc (h.filled u hl).2 _).symm
  filled u hu := by
    rw [lastFill_other (by simp)] at hu
    obtain ⟨hhas, hset⟩ := h.filled u hu
    rw [leave_store, putC0_frame hs]
    exact ⟨hhas, hset.snoc _⟩
  pending _ := Or.inr ⟨t, v, leave_self ..⟩

/-- the last section of both requests -/
theorem Inv.fill {v0 : CStr} {as : List (Section τ)} {st : Threads τ} (h : Inv k call v0 as st)
    {t : τ} {v : CStr} {cache : Cache} (hp : st.phase t = .fill v)
    (hput : cachePut st.store.cache k v = some cache) : Inv k call v0 (as ++ [.cachePut t])
      (st.leave t { st.store with cache := cache } .returned) := by
  obtain ⟨cache', hput', hwf, hin, hother⟩ := h.wf.put k v
  rw [hput] at hput'
  cases hput'
  obtain ⟨hset, hcar⟩ := h.filling t v hp
  refine ⟨hwf, ?_, ?_, ?_, ?_, ?_, ?_⟩
  · obtain ⟨n, hn, hv⟩ := h.root
    exact ⟨n, hn, by rw [hv, written_snoc]; rfl⟩
  · intro u hu
    have hu' : .copyValue u ∈ as := by simpa using hu
    rw [leave_phase]
    split_ifs with e
    · exact Or.inl rfl
    · exact h.copied u hu'
  · intro u w hu
    rw [leave_phase] at hu
    split_ifs at hu
    obtain ⟨hs, rfl⟩ := h.filling u w hu
    exact ⟨hs.snoc _, (carried_snoc hs _).symm⟩
  · intro w hw
    rw [lastFill_put]
    show w = carried call v0 t (as ++ [.cachePut t])
    rw [carried_snoc hset, ← hcar]
    exact hwf.unique hw hin
  · intro u hu
    rw [lastFill_put] at hu
    cases hu
    exact ⟨⟨v, hin⟩, hset.snoc _⟩
  · intro hl
    rw [lastFill_put] at hl
    cases hl

/-- **One section keeps the invariant.** -/
theorem Inv.step {v0 : CStr} {as : List (Section τ)} {st st' : Threads τ} {a : Section τ}
    (h : Inv k call v0 as st) (hs : Step k call st a st') : Inv k call v0 (as ++ [a]) st' := by
  have hbefore : ∀ t, (st.phase t = .start ∨ st.phase t = .missed ∨ st.phase t = .found) →
      .copyValue t ∉ as ∧ ∀ v, st.phase t ≠ .fill v := by
    intro t ht
    refine ⟨fun hm => ?_, fun v e => by simp [e] at ht⟩
    rcases h.copied t hm with e | ⟨v, e⟩ <;> simp [e] at ht
  obtain ⟨n, hn, hv⟩ := h.root
  cases hs with
  | hit t v hc hp hg =>
    exact h.quiet (by simp) rfl (by simp) (hbefore t (Or.inl hp)) (by simp) (h.wf.get k)
      (h.wf.mem_get k)
  | miss t hc hp hno =>
    exact h.quiet (by simp) rfl (by simp) (hbefore t (Or.inl hp)) (by simp) h.wf
      fun _ => Iff.rfl
  | found t m hc hp hm =>
    exact h.quiet (by simp) (by simp [after, hc]) (by simp)
      (hbefore t (Or.inr (Or.inl hp))) (by simp) h.wf fun _ => Iff.rfl
  | c1 t v hc hp hT _ =>
    rw [hT] at hn
    cases hn
  | update t v s hc hp hput => exact h.update hc hp hput
  | copy t m hc hp hm =>
    have hb := hbefore t (Or.inr (Or.inr hp))
    rw [hm] at hn
    cases hn
    refine h.quiet (by simp) rfl (by simp) hb (fun v e => ?_) h.wf fun _ => Iff.rfl
    cases e
    exact ⟨fun _ => by simp, by rw [carried_copy hc hb.1, hv]⟩
  | fill t v cache hp hput => exact h.fill hp hput

theorem inv_run {s : Store} {n : Entry} (hwf : s.cache.Wf) (hroot : s.T.get k = some n)
    (hcache : ∀ v, (k, v) ∈ s.cache.nodes → v = n.value.chars) {as : List (Section τ)}
    {st : Threads τ} (hr : Run.run (step k call) (begin s) as = some st) :
    Inv k call n.value.chars as st := by
  induction as using List.reverseRecOn generalizing st with
  | nil =>
    cases hr
    exact inv_begin hwf hroot hcache
  | append_singleton as a ih =>
    rw [Run.run_snoc] at hr
    obtain ⟨st1, h1, h2⟩ := Option.bind_eq_some_iff.mp hr
    exact (ih h1).step (step_iff.mp h2)

/-- **The cache ends with the value of the tree exactly if the last `cache_put` of the schedule
carries the value of its last `Update`.** -/
theorem cache_agrees_iff (k : CStr) (call : τ → Call) (s : Store) (n : Entry)
    (as : List (Section τ)) (st : Threads τ)
    (hwf : s.cache.Wf) (hroot : s.T.get k = some n)
    (hcache : ∀ v, (k, v) ∈ s.cache.nodes → v = n.value.chars)
    (hr : Run.run (step k call) (begin s) as = some st) (hret : AllReturned st) :
    (∀ v, (k, v) ∈ st.store.cache.nodes →
        ∃ m, st.store.T.get k = some m ∧ m.value.chars = v) ↔
      ∀ t, lastFill as = some t →
        carried call n.value.chars t as = written call n.value.chars as := by
  have h := inv_run hwf hroot hcache hr
  obtain ⟨m, hm, hv⟩ := h.root
  constructor
  · intro hag t ht
    obtain ⟨v, hin⟩ := (h.filled t ht).1
    obtain ⟨m', hm', hv'⟩ := hag v hin
    have hcar := h.cached v hin
    rw [ht] at hcar
    rw [hm] at hm'
    cases hm'
    rw [← hv, hv']
    exact hcar.symm
  · intro hlast v hin
    refine ⟨m, hm, ?_⟩
    have hcar := h.cached v hin
    cases hl : lastFill as with
    | none =>
      rw [hl] at hcar
      rcases h.pending hl with hw | ⟨t, w, ht⟩
      · rw [hv, hw, hcar]
      · have := hret t (by rw [ht]; simp)
        rw [ht] at this
        cases this
    | some t =>
      simp only [hl] at hcar
      rw [hv, hcar, hlast t hl]

end

/-! ## two schedules -/

def key : CStr := "k".toList

/-- `_T` holds `k` with the value `a`, nothing is cached -/
def oneKey : Store := { Store.empty with T := C0Node.null.insert key "a".toList 0 }

/-- thread 0 reads, thread 1 writes `b` -/
def readerAndWriter : Fin 2 → Call
  | 0 => .get
  | 1 => .put "b".toList

/-- the writer returns before the reader begins -/
def inTurn : List (Section (Fin 2)) := [.c0Section 1, .cachePut 1, .cacheLookup 0]

/-- the writer comes between the reader's copy and its `cache_put` -/
def overtaken : List (Section (Fin 2)) :=
  [.cacheLookup 0, .c0Section 0, .copyValue 0, .c0Section 1, .cachePut 1, .cachePut 0]

theorem cache_agrees_in_turn : ∃ st : Threads (Fin 2),
    Run.run (step key readerAndWriter) (begin oneKey) inTurn = some st ∧
    ∀ v, (key, v) ∈ st.store.cache.nodes →
      ∃ m, st.store.T.get key = some m ∧ m.value.chars = v := by
  refine ⟨_, rfl, (cache_agrees_iff key readerAndWriter oneKey ⟨key, ⟨"a".toList, false⟩, 0⟩
    inTurn _ Cache.Wf.empty rfl ?_ rfl ?_).mpr ?_⟩
  · simp [oneKey, Store.empty, Cache.empty]
  · unfold AllReturned
    decide
  · decide

/-- **The late fill stays**: both calls have returned, `_T` holds `b` and the cache `a`. -/
theorem stale_fill : ∃ st : Threads (Fin 2),
    Run.run (step key readerAndWriter) (begin oneKey) overtaken = some st ∧
    (∀ t, st.phase t = .returned) ∧ (key, "a".toList) ∈ st.store.cache.nodes ∧
    st.store.T.get key = some ⟨key, ⟨"b".toList, true⟩, 0⟩ :=
  ⟨_, rfl, by decide, by decide, rfl⟩

end LsmKv.Interleave
