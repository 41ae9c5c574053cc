import LsmKv.Abd
import LsmKv.Journal

/-!
# The handler of an ABD server (`server-part1.c`)

* `serverHandler`        one request line: the response and the store after it;
* `readString`           what a GET of the key would answer;
* `Keeps s key v`        every string the server has for `key` begins with the value `v`;
* `Keeps.get`, `Keeps.putAbd`   neither a GET nor a PUT of the key changes that;
* `Keeps.handle_get`, `Keeps.handle_put`   and no line that asks for one.
-/

namespace LsmKv

open KeySorted

/-- the `int` that `strtol` gives, assigned to a `uint32_t` -/
def atoi (s : CStr) : BitVec 32 := .ofInt 32 (((scanInt s).map Prod.fst).getD 0)

/-- `server_handler`, for one line.  Without five tokens `atoi` is called on NULL, so the answer
BAD BOI is never sent. -/
def serverHandler (s : Store) (txid : Int) (searchTag : AbdTag) (inputLine : CStr) :
    Option (CStr × Store) :=
  let (tokens, savePtr) := strtokR inputLine
  let (key, savePtr) := strtokR savePtr
  let (value, savePtr) := strtokR savePtr
  let (tag, savePtr) := strtokR savePtr
  let (clientId, _) := strtokR savePtr
  match tokens, key, value, tag, clientId with
  | some tokens, some key, some value, some tag, some clientId =>
    let recTag : AbdTag := ⟨atoi tag, atoi clientId⟩
    if strncmp tokens "GET".toList then do
      let (_, response, s) ← server1GetRequest s key
      some (response, s)
    else if strncmp tokens "PUT".toList then do
      let s := logTransaction s txid inputLine
      let (_, response, s) ← server1PutRequestAbd s key value recTag searchTag
      some (response, s)
    else if strncmp tokens "INSERT".toList then do
      let s := logTransaction s txid inputLine
      let (_, _, s) ← server1InsertRequestAbd s key value recTag searchTag
      some ("OK".toList, s)
    else if strncmp tokens "DELETE".toList then do
      let s := logTransaction s txid inputLine
      let (_, response, s) ← server1DeleteRequestAbd s key recTag searchTag
      some (response, s)
    else some ("ERROR".toList, s)
  | _, _, _, _, _ => none

/-- the string of the cache, or of the root of `_T` -/
def readString (s : Store) (key : CStr) : Option CStr :=
  match (cacheGet s.cache key).1 with
  | some defn => some defn
  | none => (s.T.get key).map fun e => e.value.chars

/-- a value with its tag behind it -/
def Begins (buffer v : CStr) : Prop := ∃ r, buffer = v ++ ' ' :: r

/-- a word of the size the server has for values -/
structure IsValue (v : CStr) : Prop where
  nonempty : v ≠ []
  word : ∀ c ∈ v, isspace c = false
  size : v.length < maxValueSize

/-- Whatever the server has for the key begins with `v`, and the key can be read. -/
structure Keeps (s : Store) (key v : CStr) : Prop where
  value : IsValue v
  bst : s.T.Bst
  cache : s.cache.Wf
  node : ∀ e, s.T.find key = some e → Begins e.value.chars v
  cached : ∀ d, (key, d) ∈ s.cache.nodes → Begins d v
  readable : s.cache.Has key ∨ s.T.get key ≠ none

/-! ## tokens -/

/-- one token up to a space -/
theorem strtokR_append {w : CStr} (hne : w ≠ []) (hw : ∀ c ∈ w, c ≠ ' ') (r : CStr) :
    strtokR (w ++ ' ' :: r) = (some w, r) := by
  have hdrop : (w ++ ' ' :: r).dropWhile (· = ' ') = w ++ ' ' :: r := by
    cases w with
    | nil => exact absurd rfl hne
    | cons c w => simp [hw c (by simp)]
  have htake : (w ++ ' ' :: r).takeWhile (· ≠ ' ') = w := by
    rw [List.takeWhile_append_of_pos (by simpa using hw)]
    simp
  have hrest : (w ++ ' ' :: r).dropWhile (· ≠ ' ') = ' ' :: r := by
    rw [List.dropWhile_append_of_pos (by simpa using hw)]
    simp
  unfold strtokR
  simp only [hdrop, htake, hrest]
  cases w with
  | nil => exact absurd rfl hne
  | cons c w => rfl

theorem ne_space_of_word {w : CStr} (hw : ∀ c ∈ w, isspace c = false) : ∀ c ∈ w, c ≠ ' ' := by
  rintro c hc rfl
  exact absurd (hw _ hc) (by decide)

section values
variable {v buffer : CStr}

/-- the first token of what a server answers -/
theorem Begins.token (hv : IsValue v) (h : Begins buffer v) : (strtokR buffer).1 = some v := by
  obtain ⟨r, rfl⟩ := h
  rw [strtokR_append hv.nonempty (ne_space_of_word hv.word)]

/-- `sscanf` reads the value, whatever the tag is -/
theorem Begins.sscanfTag (hv : IsValue v) (h : Begins buffer v) (value : CStr) (tag : AbdTag) :
    (sscanfTag buffer value tag).1 = v := by
  obtain ⟨r, rfl⟩ := h
  have hs := scanWord_nonspace hv.nonempty hv.word (r := ' ' :: r) (by simp [Stops, isspace])
  simp only [LsmKv.sscanfTag, hs]
  split
  · rfl
  · split <;> rfl

/-- what `snprintf` makes of it, even if the tag is cut -/
theorem begins_newValue (hv : IsValue v) (tag : AbdTag) : Begins (newValue v tag) v := by
  have hsize := hv.size
  have hcap : maxValueSize + maxTagSize + 3 - 1 = v.length + (277 - v.length + 1) := by
    unfold maxValueSize maxTagSize at *
    omega
  unfold newValue fmtTag
  rw [List.append_assoc, List.cons_append, hcap, List.take_length_add_append, List.take_succ_cons]
  exact ⟨_, rfl⟩

end values

/-! ## requests of the key -/

namespace Keeps
variable {s : Store} {key v : CStr}

theorem log (h : Keeps s key v) (txid : Int) (data : CStr) :
    Keeps (logTransaction s txid data) key v :=
  ⟨h.value, h.bst, h.cache, h.node, h.cached, h.readable⟩

/-- another cache whose strings for the key begin with the value -/
theorem setCache (h : Keeps s key v) {cache : Cache} {d : CStr} (hd : Begins d v)
    (hput : cachePut s.cache key d = some cache) : Keeps { s with cache := cache } key v := by
  obtain ⟨cache', hput', hwf, hin, hother⟩ := h.cache.put key d
  obtain rfl : cache = cache' := Option.some.inj (hput.symm.trans hput')
  refine ⟨h.value, h.bst, hwf, h.node, fun w hw => ?_, Or.inl ⟨d, hin⟩⟩
  rcases hother _ hw with heq | ⟨hne, -⟩
  · rw [(Prod.mk.inj heq).2]
    exact hd
  · exact absurd rfl hne

/-- **A GET** answers with a string that begins with the value. -/
theorem get (h : Keeps s key v) {x : Reply} (hx : server1GetRequest s key = some x) :
    x.1 = exitSuccess ∧ Begins x.2.1 v ∧ Keeps x.2.2 key v := by
  rcases get_eq hx with ⟨d, hd, rfl⟩ | ⟨hno, d, cache, hput, rfl, hfrom⟩
  · have hmem := h.cache.mem_get key
    exact ⟨rfl, h.cached d hd, h.value, h.bst, h.cache.get key, h.node,
      fun w hw => h.cached w ((hmem _).mp hw), Or.inl ⟨d, (hmem _).mpr hd⟩⟩
  · have hd : Begins d v := by
      rcases hfrom with ⟨e, he, rfl⟩ | ⟨hnone, -⟩
      · exact h.node e (C0Node.get_find h.bst he)
      · exact absurd hnone (h.readable.resolve_left hno)
    exact ⟨rfl, hd, h.setCache hd hput⟩

/-- a PUT of a string that begins with the value -/
theorem put (h : Keeps s key v) {d : CStr} (hd : Begins d v) {x : Reply}
    (hx : server1PutRequest s key d = some x) : Keeps x.2.2 key v := by
  obtain ⟨s1, cache, h1, hput, rfl⟩ := put_eq hx
  have hcache : s1.cache = s.cache := putC0_frame h1
  obtain ⟨-, -, hwf, -, hcached, hreadable⟩ := h.setCache hd hput
  have hkeep : s1.T.Bst ∧ ∀ e, s1.T.find key = some e → Begins e.value.chars v := by
    cases hg : s.T.get key with
    | some e =>
      rw [putC0_root hg] at h1
      cases h1
      refine ⟨h.bst.update hg _ _, fun e' he' => ?_⟩
      rw [show Store.T _ = (s.T.update key ⟨d, true⟩ 0).2 from rfl,
        C0Node.find_update h.bst hg, if_pos rfl] at he'
      rw [← Option.some.inj he']
      exact hd
    | none =>
      rw [putC0_insert hg] at h1
      rcases insertC0_cases h1 with ⟨-, rfl⟩ | ⟨-, hdump⟩
      · refine ⟨h.bst.insert _ _ _, fun e' he' => ?_⟩
        rw [show Store.T _ = s.T.insert key d 0 from rfl, C0Node.find_insert h.bst,
          if_pos rfl] at he'
        cases hf : s.T.find key with
        | some e =>
          rw [hf] at he'
          rw [← Option.some.inj he']
          exact h.node e hf
        | none =>
          rw [hf] at he'
          rw [← Option.some.inj he']
          exact hd
      · rw [(c0Dump_frame hdump).2]
        refine ⟨C0Node.bst_null, fun e' he' => ?_⟩
        cases he'
  have hhas : cache.Has key := by
    obtain ⟨cache', hput', -, hin, -⟩ := h.cache.put key d
    obtain rfl : cache = cache' := Option.some.inj (hput.symm.trans hput')
    exact ⟨d, hin⟩
  exact ⟨h.value, hkeep.1, hwf, hkeep.2, hcached, Or.inl hhas⟩

/-- **A tagged PUT** keeps the value, whatever it brings. -/
theorem putAbd (h : Keeps s key v) {value : CStr} {tag searchTag : AbdTag} {x : Reply}
    (hx : server1PutRequestAbd s key value tag searchTag = some x) : Keeps x.2.2 key v := by
  obtain ⟨y, hy, hx⟩ := Option.bind_eq_some_iff.mp hx
  obtain ⟨hrc, hbuf, hkeep⟩ := h.get hy
  obtain ⟨rc, buffer, s1⟩ := y
  obtain rfl : rc = exitSuccess := hrc
  dsimp only at hx
  rw [if_neg (show ¬ exitSuccess ≠ 0 by decide)] at hx
  split_ifs at hx with hcmp
  · rw [Begins.sscanfTag h.value hbuf] at hx
    exact hkeep.put (begins_newValue h.value tag) hx
  · cases hx
    exact hkeep

/-- what the key reads as -/
theorem readString_begins (h : Keeps s key v) :
    ∃ buffer, readString s key = some buffer ∧ Begins buffer v := by
  unfold readString
  cases hc : (cacheGet s.cache key).1 with
  | some d => exact ⟨d, rfl, h.cached d (cacheGet_hit hc).1⟩
  | none =>
    obtain ⟨e, he⟩ := Option.ne_none_iff_exists'.mp
      (h.readable.resolve_left (cacheGet_none_iff.mp hc))
    rw [he]
    exact ⟨_, rfl, h.node e (C0Node.get_find h.bst he)⟩

variable {txid : Int} {searchTag : AbdTag} {r : CStr} {x : CStr × Store}

/-- **A line that asks for the key** is answered with its value. -/
theorem handle_get (h : Keeps s key v) (hkey : Word key)
    (hx : serverHandler s txid searchTag ("GET".toList ++ ' ' :: (key ++ ' ' :: r)) = some x) :
    Begins x.1 v ∧ Keeps x.2 key v := by
  have h1 := strtokR_append (w := "GET".toList) (by decide) (by simp) (key ++ ' ' :: r)
  have h2 := strtokR_append hkey.1 (ne_space_of_word fun c hc => (hkey.2 c hc).1) r
  unfold serverHandler at hx
  simp only [h1, h2] at hx
  split at hx
  · rename_i tokens key' value tag clientId ht hk _ _ _
    cases ht
    cases hk
    rw [if_pos (by rfl)] at hx
    obtain ⟨y, hy, hx⟩ := Option.bind_eq_some_iff.mp hx
    cases hx
    exact (h.get hy).2
  · cases hx

/-- **A line that puts the key** leaves its value. -/
theorem handle_put (h : Keeps s key v) (hkey : Word key)
    (hx : serverHandler s txid searchTag ("PUT".toList ++ ' ' :: (key ++ ' ' :: r)) = some x) :
    Keeps x.2 key v := by
  have h1 := strtokR_append (w := "PUT".toList) (by decide) (by simp) (key ++ ' ' :: r)
  have h2 := strtokR_append hkey.1 (ne_space_of_word fun c hc => (hkey.2 c hc).1) r
  unfold serverHandler at hx
  simp only [h1, h2] at hx
  split at hx
  · rename_i tokens key' value tag clientId ht hk _ _ _
    cases ht
    cases hk
    rw [if_neg (by decide), if_pos (by rfl)] at hx
    obtain ⟨y, hy, hx⟩ := Option.bind_eq_some_iff.mp hx
    cases hx
    exact (h.log txid _).putAbd hy
  · cases hx

end Keeps

end LsmKv
