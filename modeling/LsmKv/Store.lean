import LsmKv.Cache
import LsmKv.C1.Batch

/-!
# The store (`server-part1.c`)

The state behind the requests of one server, and the requests run one at a time: a mutex-protected
section is one function.  A step without a result (`none`) is one where the source uses a NULL
string, a NULL pointer or an index out of range.

* `c0Dump`                     a batch handed to c1, and the log removed with it;
* `putC0`, `insertC0`, `deleteC0`   the sections under `c0_mutex`;
* `server1GetRequest` .. `server1DeleteRequest`   return code, response and the state after;
* `myTimerHandler`             the flush of the timer;
* `c0Dump_eq`, `put_eq`, `insert_eq`, `delete_eq`   what they do, said once for all proofs.
-/

namespace LsmKv

/-- one entry of `tx_log`; `data` is the request string -/
structure Transaction where
  txid : Int
  data : CStr
  valid : Int
  committed : Int
  deriving DecidableEq, Repr

/-- the cache, `_T`, c1 and the entries of `tx_log` (`none`: there is no such file) -/
structure Store where
  cache : Cache
  T : C0Node
  c1 : C1
  txLog : Option (List Transaction)

/-- a server that has just run `c1_init` on an empty directory -/
def Store.empty : Store := ⟨Cache.empty, .null, C1.empty, none⟩

/-- `remove("tx_log")` -/
def flushLog (s : Store) : Store := { s with txLog := none }

def c0Dump (T : C0Node) (s : Store) : Option Store :=
  let size := T.c0Size
  if size = 0 then some s
  else do
    let nodes ← (T.dumpToArray (List.replicate size none) 0).1.mapM id
    let (rc, c1) ← c1BatchInsert s.c1 nodes
    let s := { s with c1 := c1 }
    some (if rc = 0 then flushLog s else s)

/-- `_T = Insert(_T, key, value, 0)`, and the dump of a full table -/
def insertC0 (s : Store) (key value : CStr) : Option Store :=
  let T := s.T.insert key value 0
  if T.c0Size = maxC0Size then c0Dump T { s with T := .null } else some { s with T := T }

def putC0 (s : Store) (key value : CStr) : Option Store :=
  match s.T.get key with
  | some _ => some { s with T := (s.T.update key ⟨value, true⟩ 0).2 }
  | none => insertC0 s key value

def deleteC0 (s : Store) (key : CStr) : Store :=
  match s.T.get key with
  | some lookUp => { s with T := (s.T.update lookUp.key lookUp.value 1).1 }
  | none => { s with T := s.T.insert key "invalid_delete".toList 1 }

/-- return code, response buffer and the state after -/
abbrev Reply := Int × CStr × Store

/-- A pointer that `Update` stored is read as the string it pointed to: here the caller keeps
the strings it passes. -/
def server1GetRequest (s : Store) (key : CStr) : Option Reply :=
  let (cacheLookup, cache) := cacheGet s.cache key
  match cacheLookup with
  | some defn => some (exitSuccess, defn, { s with cache := cache })
  | none =>
    match s.T.get key with
    | some c0Lookup => do
      let cache ← cachePut cache key c0Lookup.value.chars
      some (exitSuccess, c0Lookup.value.chars, { s with cache := cache })
    | none => do
      let value ← c1Get s.c1 key
      -- strcpy(*ret_buffer, value)
      let value ← value
      let cache ← cachePut cache key value
      some (exitSuccess, value, { s with cache := cache })

def success : CStr := "SUCCESS".toList
def duplicate : CStr := "DUPLICATE".toList
/-- the value of a tombstone -/
def invalidDelete : CStr := "invalid_delete".toList

def server1PutRequest (s : Store) (key value : CStr) : Option Reply := do
  let s ← putC0 s key value
  let cache ← cachePut s.cache key value
  some (exitSuccess, success, { s with cache := cache })

def server1InsertRequest (s : Store) (key value : CStr) : Option Reply :=
  let (cacheLookup, cache) := cacheGet s.cache key
  let s := { s with cache := cache }
  match cacheLookup with
  | some _ => some (exitFailure, duplicate, s)
  | none =>
    match s.T.get key with
    | some _ => some (exitFailure, duplicate, s)
    | none => do
      let s ← insertC0 s key value
      let cache ← cachePut s.cache key value
      some (exitSuccess, success, { s with cache := cache })

def server1DeleteRequest (s : Store) (key : CStr) : Option Reply :=
  let s := deleteC0 s key
  some (exitSuccess, success, { s with cache := cacheInvalidate s.cache key })

def myTimerHandler (s : Store) : Option Store :=
  let c0Batch := s.T
  c0Dump c0Batch { s with T := .null }

/-! ## what they do -/

theorem exit_ne : exitFailure ≠ exitSuccess := by decide

theorem c0Size_eq_zero {T : C0Node} : T.c0Size = 0 ↔ T = .null := by
  cases T with
  | null => simp [C0Node.c0Size]
  | node k v l r ht f => simp [C0Node.c0Size]

@[simp] theorem c0Dump_null (s : Store) : c0Dump .null s = some s := by
  simp [c0Dump, C0Node.c0Size]

/-- **`c0_dump` hands the entries in key order to c1**, and removes the log if that succeeds. -/
theorem c0Dump_eq {T : C0Node} (hT : T ≠ .null) (s : Store) :
    c0Dump T s = (c1BatchInsert s.c1 T.entries).map fun r =>
      { s with c1 := r.2, txLog := if r.1 = 0 then none else s.txLog } := by
  have hsize : T.c0Size ≠ 0 := fun h => hT (c0Size_eq_zero.mp h)
  unfold c0Dump
  rw [if_neg hsize, C0Node.dumpToArray_mapM]
  simp only [Option.bind_eq_bind, Option.bind_some, flushLog]
  cases c1BatchInsert s.c1 T.entries with
  | none => rfl
  | some r =>
    simp only [Option.bind_some, Option.map_some]
    split_ifs <;> rfl

/-- a dump leaves the cache and the new tree alone -/
theorem c0Dump_frame {T : C0Node} {s s' : Store} (h : c0Dump T s = some s') :
    s'.cache = s.cache ∧ s'.T = s.T := by
  by_cases hT : T = .null
  · subst hT
    rw [c0Dump_null] at h
    cases h
    exact ⟨rfl, rfl⟩
  · rw [c0Dump_eq hT, Option.map_eq_some_iff] at h
    obtain ⟨r, -, rfl⟩ := h
    exact ⟨rfl, rfl⟩

/-- `insertC0` inserts, or inserts and dumps -/
theorem insertC0_cases {s s' : Store} {key value : CStr} (h : insertC0 s key value = some s') :
    ((s.T.insert key value 0).c0Size ≠ maxC0Size ∧
      s' = { s with T := s.T.insert key value 0 }) ∨
    ((s.T.insert key value 0).c0Size = maxC0Size ∧
      c0Dump (s.T.insert key value 0) { s with T := .null } = some s') := by
  unfold insertC0 at h
  dsimp only at h
  split_ifs at h with hsize
  · exact Or.inr ⟨hsize, h⟩
  · exact Or.inl ⟨hsize, (Option.some.inj h).symm⟩

theorem insertC0_frame {s s' : Store} {key value : CStr} (h : insertC0 s key value = some s') :
    s'.cache = s.cache := by
  rcases insertC0_cases h with ⟨-, rfl⟩ | ⟨-, h⟩
  · rfl
  · exact (c0Dump_frame h).1

theorem putC0_root {s : Store} {key value : CStr} {e : Entry} (h : s.T.get key = some e) :
    putC0 s key value = some { s with T := (s.T.update key ⟨value, true⟩ 0).2 } := by
  rw [putC0, h]

theorem putC0_insert {s : Store} {key value : CStr} (h : s.T.get key = none) :
    putC0 s key value = insertC0 s key value := by
  rw [putC0, h]

theorem putC0_frame {s s' : Store} {key value : CStr} (h : putC0 s key value = some s') :
    s'.cache = s.cache := by
  cases hg : s.T.get key with
  | none => exact insertC0_frame (putC0_insert hg ▸ h)
  | some e =>
    rw [putC0_root hg] at h
    cases h
    rfl

theorem deleteC0_frame (s : Store) (key : CStr) :
    (deleteC0 s key).cache = s.cache ∧ (deleteC0 s key).c1 = s.c1 ∧
      (deleteC0 s key).txLog = s.txLog := by
  unfold deleteC0
  split <;> exact ⟨rfl, rfl, rfl⟩

/-- **`server_1_put_request`**: the section under `c0_mutex`, then the cache. -/
theorem put_eq {s : Store} {key value : CStr} {r : Reply}
    (h : server1PutRequest s key value = some r) :
    ∃ s1 cache, putC0 s key value = some s1 ∧ cachePut s.cache key value = some cache ∧
      r = (exitSuccess, success, { s1 with cache := cache }) := by
  obtain ⟨s1, h1, h⟩ := Option.bind_eq_some_iff.mp h
  obtain ⟨cache, hc, h⟩ := Option.bind_eq_some_iff.mp h
  rw [putC0_frame h1] at hc
  exact ⟨s1, cache, h1, hc, (Option.some.inj h).symm⟩

/-- **`server_1_insert_request`**: a duplicate in the cache or at the root, or an insertion. -/
theorem insert_eq {s : Store} {key value : CStr} {r : Reply}
    (h : server1InsertRequest s key value = some r) :
    ((s.cache.Has key ∨ s.T.get key ≠ none) ∧
      r = (exitFailure, duplicate, { s with cache := (cacheGet s.cache key).2 })) ∨
    (¬ s.cache.Has key ∧ s.T.get key = none ∧ ∃ s1 cache, insertC0 s key value = some s1 ∧
      cachePut s.cache key value = some cache ∧
      r = (exitSuccess, success, { s1 with cache := cache })) := by
  unfold server1InsertRequest at h
  cases hc : (cacheGet s.cache key).1 with
  | some v =>
    have hhas : s.cache.Has key := ⟨v, (cacheGet_hit hc).1⟩
    simp only [hc] at h
    exact Or.inl ⟨Or.inl hhas, (Option.some.inj h).symm⟩
  | none =>
    obtain ⟨hno, hsame⟩ := cacheGet_miss hc
    simp only [hc] at h
    cases hg : s.T.get key with
    | some e =>
      rw [hg] at h
      exact Or.inl ⟨Or.inr (by simp), (Option.some.inj h).symm⟩
    | none =>
      rw [hg, hsame] at h
      obtain ⟨s1, h1, h⟩ := Option.bind_eq_some_iff.mp h
      obtain ⟨cache, hcp, h⟩ := Option.bind_eq_some_iff.mp h
      rw [insertC0_frame h1] at hcp
      exact Or.inr ⟨hno, rfl, s1, cache, h1, hcp, (Option.some.inj h).symm⟩

theorem insertC0_small {s : Store} {key value : CStr}
    (h : (s.T.insert key value 0).c0Size ≠ maxC0Size) :
    insertC0 s key value = some { s with T := s.T.insert key value 0 } := by
  unfold insertC0
  dsimp only
  rw [if_neg h]

/-- a PUT that neither finds its key at the root nor fills the table -/
theorem put_small {s : Store} {key value : CStr} {cache : Cache} (hg : s.T.get key = none)
    (hsize : (s.T.insert key value 0).c0Size ≠ maxC0Size)
    (hp : cachePut s.cache key value = some cache) : server1PutRequest s key value
      = some (exitSuccess, success, { s with T := s.T.insert key value 0, cache := cache }) := by
  simp [server1PutRequest, putC0_insert hg, insertC0_small hsize, hp]

theorem insert_small {s : Store} {key value : CStr} {cache : Cache} (hno : ¬ s.cache.Has key)
    (hg : s.T.get key = none) (hsize : (s.T.insert key value 0).c0Size ≠ maxC0Size)
    (hp : cachePut s.cache key value = some cache) : server1InsertRequest s key value
      = some (exitSuccess, success, { s with T := s.T.insert key value 0, cache := cache }) := by
  have hc := cacheGet_none_iff.mpr hno
  have hsame := (cacheGet_miss hc).2
  simp [server1InsertRequest, hc, hsame, hg, insertC0_small hsize, hp]

theorem insert_duplicate {s : Store} {key : CStr} (h : s.cache.Has key ∨ s.T.get key ≠ none)
    (value : CStr) : server1InsertRequest s key value
      = some (exitFailure, duplicate, { s with cache := (cacheGet s.cache key).2 }) := by
  unfold server1InsertRequest
  cases hc : (cacheGet s.cache key).1 with
  | some v => simp only [hc]
  | none =>
    obtain ⟨e, he⟩ := Option.ne_none_iff_exists'.mp
      (h.resolve_left (cacheGet_none_iff.mp hc))
    simp only [hc, he]

/-- **`server_1_get_request`**: the cache, the root of `_T`, the current file of c1. -/
theorem get_eq {s : Store} {key : CStr} {r : Reply} (h : server1GetRequest s key = some r) :
    (∃ v, (key, v) ∈ s.cache.nodes ∧
      r = (exitSuccess, v, { s with cache := (cacheGet s.cache key).2 })) ∨
    (¬ s.cache.Has key ∧ ∃ v cache, cachePut s.cache key v = some cache ∧
      r = (exitSuccess, v, { s with cache := cache }) ∧
      ((∃ e, s.T.get key = some e ∧ e.value.chars = v) ∨
        (s.T.get key = none ∧ c1Get s.c1 key = some (some v)))) := by
  unfold server1GetRequest at h
  cases hc : (cacheGet s.cache key).1 with
  | some v =>
    simp only [hc] at h
    exact Or.inl ⟨v, (cacheGet_hit hc).1, (Option.some.inj h).symm⟩
  | none =>
    obtain ⟨hno, hsame⟩ := cacheGet_miss hc
    simp only [hc, hsame] at h
    refine Or.inr ⟨hno, ?_⟩
    cases hg : s.T.get key with
    | some e =>
      rw [hg] at h
      obtain ⟨cache, hcp, h⟩ := Option.bind_eq_some_iff.mp h
      exact ⟨_, cache, hcp, (Option.some.inj h).symm, Or.inl ⟨e, rfl, rfl⟩⟩
    | none =>
      rw [hg] at h
      obtain ⟨w, hw, h1⟩ := Option.bind_eq_some_iff.mp h
      obtain ⟨v, rfl, h2⟩ := Option.bind_eq_some_iff.mp h1
      obtain ⟨cache, hcp, h3⟩ := Option.bind_eq_some_iff.mp h2
      exact ⟨v, cache, hcp, (Option.some.inj h3).symm, Or.inr ⟨rfl, hw⟩⟩

/-! ## runs of requests -/

/-- a request, or the timer -/
inductive Req where
  | put (key value : CStr)
  | insert (key value : CStr)
  | delete (key : CStr)
  | get (key : CStr)
  | timer
  deriving DecidableEq, Repr

/-- the key a mutating request writes -/
def Req.writes : Req → Option CStr
  | .put key _ => some key
  | .insert key _ => some key
  | .delete key => some key
  | _ => none

def serve (s : Store) : Req → Option Reply
  | .put key value => server1PutRequest s key value
  | .insert key value => server1InsertRequest s key value
  | .delete key => server1DeleteRequest s key
  | .get key => server1GetRequest s key
  | .timer => (myTimerHandler s).map fun s => (exitSuccess, [], s)

/-- the state after a request -/
def Store.step (s : Store) (r : Req) : Option Store := (serve s r).map fun reply => reply.2.2

end LsmKv
