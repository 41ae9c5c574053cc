import LsmKv.Store.Live

/-!
# Reads beside writes

Two runs from one state whose requests differ in GETs alone.

* `results`           the return codes of the writes and the state at the end;
* `Answered`          a GET of the key has a value to copy;
* `Duplicate`           what INSERT takes for a duplicate: a cached key, or that of the root;
* `Twins`             two stores that differ in their caches alone;
* `Twins.step`        a write takes twins to twins, with one return code, unless the caches
                      make an INSERT decide differently;
* `reads_unnoticed_iff`   the two runs agree exactly if no INSERT does.
-/

namespace LsmKv

open Run

def Req.isGet : Req → Bool
  | .get _ => true
  | _ => false

/-- the requests of the run that are no GETs -/
def writesOf (rs : List Req) : List Req := rs.filter fun r => !r.isGet

/-- the return codes of the writes, and the state at the end -/
def results (s : Store) : List Req → Option (List Int × Store)
  | [] => some ([], s)
  | r :: rs =>
    (serve s r).bind fun reply => (results reply.2.2 rs).map fun rest =>
      (if r.isGet then rest.1 else reply.1 :: rest.1, rest.2)

/-- the same return codes, the same table, the same data file -/
def SameResults (a b : List Int × Store) : Prop :=
  a.1 = b.1 ∧ a.2.T.entries = b.2.T.entries ∧ a.2.c1.current = b.2.c1.current

/-- a GET of the key does not run into the copy of a NULL value -/
def Answered (s : Store) (key : CStr) : Prop :=
  s.cache.Has key ∨ s.T.get key ≠ none ∨ ∃ v, c1Get s.c1 key = some (some v)

/-- INSERT calls the key a duplicate -/
def Duplicate (s : Store) (key : CStr) : Prop := s.cache.Has key ∨ s.T.get key ≠ none

/-! ## one request on stores that differ in the cache -/

/-- the cache stays a cache -/
theorem wf_step {s : Store} (hw : s.cache.Wf) {r : Req} {reply : Reply}
    (h : serve s r = some reply) : reply.2.2.cache.Wf := by
  have hput : ∀ {key value : CStr} {cache : Cache}, cachePut s.cache key value = some cache →
      cache.Wf := by
    intro key value cache hp
    obtain ⟨cache', hp', hwf, -⟩ := hw.put key value
    rw [hp] at hp'
    exact Option.some.inj hp' ▸ hwf
  cases r with
  | put key value =>
    obtain ⟨s1, cache, -, hp, rfl⟩ := put_eq h
    exact hput hp
  | insert key value =>
    rcases insert_eq h with ⟨-, rfl⟩ | ⟨-, -, s1, cache, -, hp, rfl⟩
    · exact hw.get key
    · exact hput hp
  | delete key =>
    cases h
    show (cacheInvalidate (deleteC0 s key).cache key).Wf
    rw [(deleteC0_frame s key).1]
    exact (hw.invalidate key).1
  | get key =>
    rcases get_eq h with ⟨v, -, rfl⟩ | ⟨-, v, cache, hp, rfl, -⟩
    · exact hw.get key
    · exact hput hp
  | timer =>
    obtain ⟨s1, hd, rfl⟩ := Option.map_eq_some_iff.mp h
    rw [(c0Dump_frame hd).1]
    exact hw

/-- the store with another cache -/
def withCache (cache : Cache) (s : Store) : Store := { s with cache := cache }

theorem c0Dump_withCache (T : C0Node) (s : Store) (cache : Cache) :
    c0Dump T (withCache cache s) = (c0Dump T s).map (withCache cache) := by
  by_cases hT : T = .null
  · subst hT
    simp
  · rw [c0Dump_eq hT, c0Dump_eq hT, Option.map_map]
    rfl

theorem insertC0_withCache (s : Store) (cache : Cache) (key value : CStr) :
    insertC0 (withCache cache s) key value = (insertC0 s key value).map (withCache cache) := by
  unfold insertC0
  dsimp only [withCache]
  split_ifs
  · exact c0Dump_withCache _ { s with T := .null } cache
  · rfl

theorem putC0_withCache (s : Store) (cache : Cache) (key value : CStr) :
    putC0 (withCache cache s) key value = (putC0 s key value).map (withCache cache) := by
  cases hg : s.T.get key with
  | none => rw [putC0_insert hg, putC0_insert (s := withCache cache s) hg, insertC0_withCache]
  | some e =>
    rw [putC0_root hg, putC0_root (s := withCache cache s) hg]
    rfl

/-- Two stores that differ in their caches alone. -/
structure Twins (s t : Store) : Prop where
  same : t = withCache t.cache s
  left : s.cache.Wf
  right : t.cache.Wf

theorem Twins.T {s t : Store} (h : Twins s t) : t.T = s.T := by rw [h.same]; rfl

theorem Twins.c1 {s t : Store} (h : Twins s t) : t.c1 = s.c1 := by rw [h.same]; rfl

/-- INSERT says what it finds -/
theorem insert_code {s : Store} {key value : CStr} {reply : Reply}
    (h : serve s (.insert key value) = some reply) : Duplicate s key ↔ reply.1 = exitFailure := by
  rcases insert_eq h with ⟨hdup, rfl⟩ | ⟨hno, hg, s1, cache, -, -, rfl⟩
  · exact iff_of_true hdup rfl
  · refine iff_of_false ?_ exit_ne.symm
    rintro (hhas | hroot)
    · exact hno hhas
    · exact hroot hg

/-- **A write takes twins to twins**, provided they agree on a duplicate. -/
theorem Twins.step {s t : Store} (h : Twins s t) {r : Req} (hr : r.isGet = false)
    (hdec : ∀ key value, r = .insert key value → (Duplicate s key ↔ Duplicate t key))
    {reply : Reply} (hs : serve s r = some reply) :
    ∃ reply', serve t r = some reply' ∧ reply'.1 = reply.1 ∧ Twins reply.2.2 reply'.2.2 := by
  have hwf := wf_step h.left hs
  cases r with
  | put key value =>
    obtain ⟨s1, cache, h1, -, rfl⟩ := put_eq hs
    obtain ⟨cache', hp, hw, -⟩ := h.right.put key value
    refine ⟨(exitSuccess, success, withCache cache' s1), ?_, rfl, rfl, hwf, hw⟩
    rw [h.same, serve, server1PutRequest, putC0_withCache, h1]
    simp only [withCache, Option.map_some, Option.bind_eq_bind, Option.bind_some, hp]
  | insert key value =>
    rcases insert_eq hs with ⟨hdup, rfl⟩ | ⟨hno, hg, s1, cache, h1, -, rfl⟩
    · have hdup' : Duplicate t key := (hdec key value rfl).mp hdup
      refine ⟨_, insert_duplicate hdup' value, rfl, ?_, hwf, h.right.get key⟩
      rw [h.same]
      rfl
    · have hno' : ¬ Duplicate t key := by
        rw [← hdec key value rfl]
        rintro (hhas | hroot)
        · exact hno hhas
        · exact hroot hg
      have hmiss : ¬ t.cache.Has key := fun hh => hno' (Or.inl hh)
      have hc := cacheGet_none_iff.mpr hmiss
      have hsame := (cacheGet_miss hc).2
      have hg' : t.T.get key = none := by rw [h.T, hg]
      obtain ⟨cache', hp, hw, -⟩ := h.right.put key value
      have h1' : insertC0 t key value = some (withCache t.cache s1) := by
        rw [h.same, insertC0_withCache, h1]
        rfl
      refine ⟨(exitSuccess, success, withCache cache' s1), ?_, rfl, rfl, hwf, hw⟩
      simp only [serve, server1InsertRequest, hc, hsame, hg', h1', Option.bind_eq_bind,
        Option.bind_some, withCache, hp]
  | delete key =>
    cases hs
    have hd : deleteC0 t key = withCache t.cache (deleteC0 s key) := by
      rw [h.same]
      unfold deleteC0
      dsimp only [withCache]
      split <;> rfl
    refine ⟨(exitSuccess, success, withCache (cacheInvalidate t.cache key) (deleteC0 s key)), ?_,
      rfl, rfl, hwf, (h.right.invalidate key).1⟩
    rw [serve, server1DeleteRequest, hd]
    rfl
  | get key => cases hr
  | timer =>
    obtain ⟨s1, hd, rfl⟩ := Option.map_eq_some_iff.mp hs
    have hd' : c0Dump t.T { t with T := .null } = some (withCache t.cache s1) := by
      have hdump := c0Dump_withCache s.T { s with T := .null } t.cache
      rw [show c0Dump s.T { s with T := .null } = some s1 from hd] at hdump
      rw [h.same]
      exact hdump
    refine ⟨(exitSuccess, [], withCache t.cache s1), ?_, rfl, rfl, hwf, h.right⟩
    rw [serve, myTimerHandler, hd']
    rfl

/-- a GET touches the cache alone -/
theorem get_frame {s : Store} {key : CStr} {reply : Reply} (h : serve s (.get key) = some reply) :
    reply.2.2 = withCache reply.2.2.cache s := by
  rcases get_eq h with ⟨v, -, rfl⟩ | ⟨-, v, cache, -, rfl, -⟩
  · rfl
  · rfl

theorem Twins.get_left {s t : Store} (h : Twins s t) {key : CStr} {reply : Reply}
    (hs : serve s (.get key) = some reply) : Twins reply.2.2 t := by
  refine ⟨?_, wf_step h.left hs, h.right⟩
  rw [get_frame hs]
  exact h.same

theorem Twins.get_right {s t : Store} (h : Twins s t) {key : CStr} {reply : Reply}
    (ht : serve t (.get key) = some reply) : Twins s reply.2.2 := by
  refine ⟨?_, h.left, wf_step h.right ht⟩
  rw [get_frame ht, h.same]
  rfl

/-- the GETs that complete -/
theorem answered_iff {s : Store} (hw : s.cache.Wf) (key : CStr) :
    Answered s key ↔ ∃ reply, serve s (.get key) = some reply := by
  constructor
  · intro h
    unfold serve server1GetRequest
    cases hc : (cacheGet s.cache key).1 with
    | some v =>
      simp only [hc]
      exact ⟨_, rfl⟩
    | none =>
      obtain ⟨hno, hsame⟩ := cacheGet_miss hc
      simp only [hc, hsame]
      cases hg : s.T.get key with
      | some e =>
        obtain ⟨cache, hp, -⟩ := hw.put key e.value.chars
        simp only [hp, Option.bind_eq_bind, Option.bind_some]
        exact ⟨_, rfl⟩
      | none =>
        rcases h with hhas | hroot | ⟨v, hv⟩
        · exact absurd hhas hno
        · exact absurd hg hroot
        · obtain ⟨cache, hp, -⟩ := hw.put key v
          simp only [hv, hp, Option.bind_eq_bind, Option.bind_some]
          exact ⟨_, rfl⟩
  · rintro ⟨reply, h⟩
    rcases get_eq h with ⟨v, hv, -⟩ | ⟨-, v, cache, -, -, ⟨e, he, -⟩ | ⟨-, hc⟩⟩
    · exact Or.inl ⟨v, hv⟩
    · exact Or.inr (Or.inl (by rw [he]; simp))
    · exact Or.inr (Or.inr ⟨v, hc⟩)

/-! ## two runs -/

/-- The caches make no difference: in the second run every GET is answered, and where both runs
come to the same INSERT they agree on whether its key is a duplicate. -/
structure Unnoticed (s t : Store) (rs qs : List Req) : Prop where
  answered : ∀ q1 k q2, qs = q1 ++ .get k :: q2 → ∀ t', run Store.step t q1 = some t' →
    Answered t' k
  inserts : ∀ r1 r2 q1 q2 k v, rs = r1 ++ .insert k v :: r2 → qs = q1 ++ .insert k v :: q2 →
    writesOf r1 = writesOf q1 → ∀ s' t', run Store.step s r1 = some s' →
      run Store.step t q1 = some t' → (Duplicate s' k ↔ Duplicate t' k)

/-- two lists of requests that differ in GETs alone -/
inductive Aligned : List Req → List Req → Prop where
  | nil : Aligned [] []
  | left (k : CStr) {rs qs : List Req} : Aligned rs qs → Aligned (.get k :: rs) qs
  | right (k : CStr) {rs qs : List Req} : Aligned rs qs → Aligned rs (.get k :: qs)
  | both {r : Req} (hr : r.isGet = false) {rs qs : List Req} :
    Aligned rs qs → Aligned (r :: rs) (r :: qs)

theorem writesOf_write {r : Req} (hr : r.isGet = false) (rs : List Req) :
    writesOf (r :: rs) = r :: writesOf rs := List.filter_cons_of_pos (by rw [hr]; rfl)

theorem isGet_iff (r : Req) : r.isGet = true ↔ ∃ k, r = .get k := by
  cases r <;> simp [Req.isGet]

theorem aligned_of_writesOf (rs qs : List Req) (h : writesOf rs = writesOf qs) :
    Aligned rs qs := by
  induction rs generalizing qs with
  | nil =>
    induction qs with
    | nil => exact Aligned.nil
    | cons q qs ihq =>
      cases hq : q.isGet with
      | true =>
        obtain ⟨k, rfl⟩ := (isGet_iff q).mp hq
        exact Aligned.right k (ihq h)
      | false =>
        rw [writesOf_write hq] at h
        cases h
  | cons r rs ih =>
    cases hr : r.isGet with
    | true =>
      obtain ⟨k, rfl⟩ := (isGet_iff r).mp hr
      exact Aligned.left k (ih qs h)
    | false =>
      induction qs with
      | nil =>
        rw [writesOf_write hr] at h
        cases h
      | cons q qs ihq =>
        cases hq : q.isGet with
        | true =>
          obtain ⟨k, rfl⟩ := (isGet_iff q).mp hq
          exact Aligned.right k (ihq h)
        | false =>
          rw [writesOf_write hr, writesOf_write hq] at h
          obtain ⟨rfl, h'⟩ := List.cons_eq_cons.mp h
          exact Aligned.both hr (ih qs h')

/-- the state behind the first request of a run -/
theorem run_step {s : Store} {r : Req} {reply : Reply} (h : serve s r = some reply)
    (rs : List Req) : run Store.step s (r :: rs) = run Store.step reply.2.2 rs := by
  rw [run_cons, Store.step, h]
  rfl

section unnoticed
variable {s t : Store} {rs qs : List Req} {reply reply' : Reply}

theorem unnoticed_left {k : CStr} (hs : serve s (.get k) = some reply) :
    Unnoticed s t (.get k :: rs) qs ↔ Unnoticed reply.2.2 t rs qs := by
  constructor
  · intro h
    refine ⟨h.answered, fun r1 r2 q1 q2 k' v hrs hqs hw s' t' hs' ht' => ?_⟩
    refine h.inserts (.get k :: r1) r2 q1 q2 k' v (by rw [hrs]; rfl) hqs hw s' t' ?_ ht'
    rw [run_step hs]
    exact hs'
  · intro h
    refine ⟨h.answered, fun r1 r2 q1 q2 k' v hrs hqs hw s' t' hs' ht' => ?_⟩
    cases r1 with
    | nil => cases hrs
    | cons r r1 =>
      obtain ⟨rfl, hrs'⟩ := List.cons_eq_cons.mp hrs
      rw [run_step hs] at hs'
      exact h.inserts r1 r2 q1 q2 k' v hrs' hqs hw s' t' hs' ht'

theorem unnoticed_right {k : CStr} (ha : Answered t k) (ht : serve t (.get k) = some reply) :
    Unnoticed s t rs (.get k :: qs) ↔ Unnoticed s reply.2.2 rs qs := by
  constructor
  · intro h
    constructor
    · intro q1 k' q2 hqs t' ht'
      refine h.answered (.get k :: q1) k' q2 (by rw [hqs]; rfl) t' ?_
      rw [run_step ht]
      exact ht'
    · intro r1 r2 q1 q2 k' v hrs hqs hw s' t' hs' ht'
      refine h.inserts r1 r2 (.get k :: q1) q2 k' v hrs (by rw [hqs]; rfl) hw s' t' hs' ?_
      rw [run_step ht]
      exact ht'
  · intro h
    constructor
    · intro q1 k' q2 hqs t' ht'
      cases q1 with
      | nil =>
        obtain ⟨hk, -⟩ := List.cons_eq_cons.mp hqs
        obtain rfl := Req.get.inj hk
        exact Option.some.inj ht' ▸ ha
      | cons q q1 =>
        obtain ⟨rfl, hqs'⟩ := List.cons_eq_cons.mp hqs
        rw [run_step ht] at ht'
        exact h.answered q1 k' q2 hqs' t' ht'
    · intro r1 r2 q1 q2 k' v hrs hqs hw s' t' hs' ht'
      cases q1 with
      | nil => cases hqs
      | cons q q1 =>
        obtain ⟨rfl, hqs'⟩ := List.cons_eq_cons.mp hqs
        rw [run_step ht] at ht'
        exact h.inserts r1 r2 q1 q2 k' v hrs hqs' hw s' t' hs' ht'

theorem unnoticed_both {r : Req} (hr : r.isGet = false) (hs : serve s r = some reply)
    (ht : serve t r = some reply') : Unnoticed s t (r :: rs) (r :: qs) ↔
      (∀ k v, r = .insert k v → (Duplicate s k ↔ Duplicate t k)) ∧
        Unnoticed reply.2.2 reply'.2.2 rs qs := by
  constructor
  · intro h
    refine ⟨fun k v e => ?_, ?_, ?_⟩
    · subst e
      exact h.inserts [] rs [] qs k v rfl rfl rfl s t rfl rfl
    · intro q1 k q2 hqs t' ht'
      refine h.answered (r :: q1) k q2 (by rw [hqs]; rfl) t' ?_
      rw [run_step ht]
      exact ht'
    · intro r1 r2 q1 q2 k v hrs hqs hw s' t' hs' ht'
      refine h.inserts (r :: r1) r2 (r :: q1) q2 k v (by rw [hrs]; rfl) (by rw [hqs]; rfl) ?_
        s' t' ?_ ?_
      · rw [writesOf_write hr, writesOf_write hr, hw]
      · rw [run_step hs]
        exact hs'
      · rw [run_step ht]
        exact ht'
  · rintro ⟨hfirst, h⟩
    constructor
    · intro q1 k q2 hqs t' ht'
      cases q1 with
      | nil =>
        obtain ⟨rfl, -⟩ := List.cons_eq_cons.mp hqs
        cases hr
      | cons q q1 =>
        obtain ⟨rfl, hqs'⟩ := List.cons_eq_cons.mp hqs
        rw [run_step ht] at ht'
        exact h.answered q1 k q2 hqs' t' ht'
    · intro r1 r2 q1 q2 k v hrs hqs hw s' t' hs' ht'
      cases r1 with
      | nil =>
        cases q1 with
        | nil =>
          obtain ⟨rfl, -⟩ := List.cons_eq_cons.mp hrs
          cases hs'
          cases ht'
          exact hfirst k v rfl
        | cons q q1 =>
          obtain ⟨rfl, -⟩ := List.cons_eq_cons.mp hqs
          rw [writesOf_write hr] at hw
          cases hw
      | cons r' r1 =>
        obtain ⟨rfl, hrs'⟩ := List.cons_eq_cons.mp hrs
        cases q1 with
        | nil =>
          rw [writesOf_write hr] at hw
          cases hw
        | cons q q1 =>
          obtain ⟨rfl, hqs'⟩ := List.cons_eq_cons.mp hqs
          rw [writesOf_write hr, writesOf_write hr] at hw
          rw [run_step hs] at hs'
          rw [run_step ht] at ht'
          exact h.inserts r1 r2 q1 q2 k v hrs' hqs' (List.cons.inj hw).2 s' t' hs' ht'

end unnoticed

/-- a GET in front of a run -/
theorem results_get {s : Store} {k : CStr} {reply : Reply} (h : serve s (.get k) = some reply)
    (rs : List Req) : results s (.get k :: rs) = results reply.2.2 rs := by
  rw [results, h]
  exact Option.map_id_apply

/-- a write in front of a run -/
theorem results_write {s : Store} {r : Req} (hr : r.isGet = false) {reply : Reply}
    (h : serve s r = some reply) (rs : List Req) : results s (r :: rs)
      = (results reply.2.2 rs).map fun rest => (reply.1 :: rest.1, rest.2) := by
  rw [results, h, hr]
  rfl

/-- **Two runs from twins** give the same results exactly if no INSERT notices the reads. -/
theorem twins_results_iff {rs qs : List Req} (hal : Aligned rs qs) : ∀ {s t : Store},
    Twins s t → ∀ {a : List Int × Store}, results s rs = some a →
      ((∃ b, results t qs = some b ∧ SameResults a b) ↔ Unnoticed s t rs qs) := by
  induction hal with
  | nil =>
    intro s t h a ha
    cases ha
    refine iff_of_true ⟨_, rfl, rfl, by rw [h.T], by rw [h.c1]⟩ ⟨?_, ?_⟩
    · intro q1 k q2 hqs
      exact absurd hqs (by simp)
    · intro r1 r2 q1 q2 k v hrs
      exact absurd hrs (by simp)
  | @left k rs qs hal ih =>
    intro s t h a ha
    obtain ⟨reply, hs, -⟩ := Option.bind_eq_some_iff.mp ha
    rw [results_get hs] at ha
    rw [unnoticed_left hs]
    exact ih (h.get_left hs) ha
  | @right k rs qs hal ih =>
    intro s t h a ha
    by_cases hans : Answered t k
    · obtain ⟨reply, ht⟩ := (answered_iff h.right k).mp hans
      rw [results_get ht, unnoticed_right hans ht]
      exact ih (h.get_right ht) ha
    · refine iff_of_false ?_ fun hu => hans (hu.answered [] k qs rfl t rfl)
      rintro ⟨b, hb, -⟩
      obtain ⟨reply, ht, -⟩ := Option.bind_eq_some_iff.mp hb
      exact hans ((answered_iff h.right k).mpr ⟨reply, ht⟩)
  | @both r hr rs qs hal ih =>
    intro s t h a ha
    obtain ⟨reply, hs, -⟩ := Option.bind_eq_some_iff.mp ha
    rw [results_write hr hs] at ha
    obtain ⟨a', ha', rfl⟩ := Option.map_eq_some_iff.mp ha
    by_cases hdec : ∀ key value, r = .insert key value → (Duplicate s key ↔ Duplicate t key)
    · obtain ⟨reply', ht, hrc, htw⟩ := h.step hr hdec hs
      rw [unnoticed_both hr hs ht, ← ih htw ha', results_write hr ht]
      constructor
      · rintro ⟨b, hb, hcodes, hT, hcur⟩
        obtain ⟨b', hb', rfl⟩ := Option.map_eq_some_iff.mp hb
        exact ⟨hdec, b', hb', (List.cons.inj hcodes).2, hT, hcur⟩
      · rintro ⟨-, b', hb', hcodes, hT, hcur⟩
        refine ⟨(reply'.1 :: b'.1, b'.2), by rw [hb']; rfl, ?_, hT, hcur⟩
        show reply.1 :: a'.1 = reply'.1 :: b'.1
        rw [hrc, hcodes]
    · refine iff_of_false ?_ fun hu => hdec fun key value e => ?_
      · rintro ⟨b, hb, hcodes, -⟩
        apply hdec
        intro key value e
        subst e
        obtain ⟨reply', ht, -⟩ := Option.bind_eq_some_iff.mp hb
        rw [results_write hr ht] at hb
        obtain ⟨b', -, rfl⟩ := Option.map_eq_some_iff.mp hb
        have hrc : reply.1 = reply'.1 := (List.cons.inj hcodes).1
        rw [insert_code hs, insert_code ht, hrc]
      · subst e
        exact hu.inserts [] rs [] qs key value rfl rfl rfl s t rfl rfl

/-- the cache of a reachable store -/
theorem wf_of_run {ps : List Req} {s : Store} (h : run Store.step Store.empty ps = some s) :
    s.cache.Wf := by
  have hstep : ∀ (u : Store) (r : Req) (u' : Store), u.cache.Wf → True → u.step r = some u' →
      u'.cache.Wf := by
    intro u r u' hw _ hu
    obtain ⟨reply, hr, rfl⟩ := Option.map_eq_some_iff.mp hu
    exact wf_step hw hr
  exact inv_of_guarded hstep Cache.Wf.empty (guarded_of_forall fun _ _ _ => trivial) h

/-- **When reads do not influence writes**: of two sequences of requests that differ in GETs, the
second has the results of the first exactly if its GETs are answered and at every INSERT the two
runs agree on whether the key is cached or at the root. -/
theorem reads_unnoticed_iff (ps : List Req) (s : Store)
    (hs : run Store.step Store.empty ps = some s) (rs qs : List Req)
    (hsame : writesOf rs = writesOf qs) (a : List Int × Store) (ha : results s rs = some a) :
    (∃ b, results s qs = some b ∧ SameResults a b) ↔ Unnoticed s s rs qs := by
  have hw := wf_of_run hs
  exact twins_results_iff (aligned_of_writesOf rs qs hsame) ⟨rfl, hw, hw⟩ ha

/-- what is compared of a run -/
def viewResults (a : List Int × Store) : List Int × List Entry × List Line :=
  (a.1, a.2.T.entries, a.2.c1.current)

theorem sameResults_iff (a b : List Int × Store) :
    SameResults a b ↔ viewResults a = viewResults b := by
  simp [SameResults, viewResults]

/-- a PUT and an INSERT, and the same with a GET between them -/
def quietWrites : List Req := [.put ['a'] ['1'], .insert ['b'] ['2']]
def quietReads : List Req := [.put ['a'] ['1'], .get ['a'], .insert ['b'] ['2']]

theorem quietReads_view :
    (results Store.empty quietReads).map viewResults
      = (results Store.empty quietWrites).map viewResults ∧
    (results Store.empty quietWrites).isSome := by
  decide +kernel

/-- A GET of a cached key is not noticed. -/
theorem reads_unnoticed_quietReads : Unnoticed Store.empty Store.empty quietWrites quietReads := by
  obtain ⟨hview, hsome⟩ := quietReads_view
  obtain ⟨a, ha⟩ := Option.isSome_iff_exists.mp hsome
  rw [ha] at hview
  obtain ⟨b, hb, hab⟩ := Option.map_eq_some_iff.mp hview
  exact (reads_unnoticed_iff [] Store.empty rfl quietWrites quietReads rfl a ha).mp
    ⟨b, hb, (sameResults_iff a b).mpr hab.symm⟩

/-- a key flushed to c1 and evicted from the cache -/
def evicted : List Req :=
  [.put ['y'] ['o', 'l', 'd'], .timer] ++ crowd.map fun k => .put k ['v']

theorem evicted_codes : (run Store.step Store.empty evicted).map (fun s =>
      ((serve s (.get ['y'])).map fun r => r.2.1,
        (results s [.insert ['y'] ['n', 'e', 'w']]).map Prod.fst,
        (results s [.get ['y'], .insert ['y'] ['n', 'e', 'w']]).map Prod.fst))
    = some (some ['o', 'l', 'd'], some [exitSuccess], some [exitFailure]) := by
  decide +kernel

/-- A GET of the evicted key turns the INSERT behind it into a duplicate. -/
theorem read_refuses_insert : ∃ s a b, run Store.step Store.empty evicted = some s ∧
    (serve s (.get ['y'])).map (fun r => r.2.1) = some ['o', 'l', 'd'] ∧
    writesOf [.insert ['y'] ['n', 'e', 'w']]
      = writesOf [.get ['y'], .insert ['y'] ['n', 'e', 'w']] ∧
    results s [.insert ['y'] ['n', 'e', 'w']] = some a ∧
    results s [.get ['y'], .insert ['y'] ['n', 'e', 'w']] = some b ∧
    a.1 = [exitSuccess] ∧ b.1 = [exitFailure] ∧
    ¬ ∃ b, results s [.get ['y'], .insert ['y'] ['n', 'e', 'w']] = some b ∧ SameResults a b := by
  obtain ⟨s, hs, h⟩ := Option.map_eq_some_iff.mp evicted_codes
  obtain ⟨hget, h'⟩ := Prod.mk.inj h
  obtain ⟨h1, h2⟩ := Prod.mk.inj h'
  obtain ⟨a, ha, hac⟩ := Option.map_eq_some_iff.mp h1
  obtain ⟨b, hb, hbc⟩ := Option.map_eq_some_iff.mp h2
  refine ⟨s, a, b, hs, hget, rfl, ha, hb, hac, hbc, ?_⟩
  rintro ⟨b', hb', hcodes, -⟩
  obtain rfl : b = b' := Option.some.inj (hb.symm.trans hb')
  rw [hac, hbc] at hcodes
  exact exit_ne (List.cons.inj hcodes).1.symm

end LsmKv
