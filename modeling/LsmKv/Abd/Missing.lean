import LsmKv.Lib.Run
import LsmKv.Store.Reads
import LsmKv.C1.Search
import LsmKv.Abd.Handler

/-!
# Missing strings (`server-part1.c`)

The handlers once more, with what stops a request: a token or the result of a lookup may be NULL
where a string function is called on it.

* `Trap`                     why a request ends without an answer;
* `Strict.serverHandler`, `Strict.serverHandlerBlocking`   the handlers, with the calls of `atoi`
                             and `strcpy` on what may be NULL;
* `handler_toOption`, `blocking_toOption`   without the reasons they are the handlers as they were;
* `Handled`                  what a client may expect of a line;
* `handled_iff`              when a line is handled;
* `all_handled_iff`          and every line of a run.
-/

namespace LsmKv

/-- the string functions -/
inductive StrFn where
  | atoi
  | strcmp
  | strlen
  | strcpy
  deriving DecidableEq, Repr

/-- Why there is no answer: a string function is called on NULL; `c1_get` reads outside of its
tables, so that its result is not defined; a NULL is stored as a value; or something else. -/
inductive Trap where
  | null (f : StrFn)
  | lookup
  | stored
  | other
  deriving DecidableEq, Repr

/-- a string function on a pointer -/
def deref (f : StrFn) : Option CStr → Except Trap CStr
  | some s => .ok s
  | none => .error (.null f)

def defined {α : Type} (t : Trap) : Option α → Except Trap α
  | some a => .ok a
  | none => .error t

/-- the tokens of a line -/
structure Tokens where
  tokens : Option CStr
  key : Option CStr
  value : Option CStr
  tag : Option CStr
  clientId : Option CStr
  deriving DecidableEq, Repr

/-- five calls of `strtok_r` -/
def Tokens.of (inputLine : CStr) : Tokens :=
  let (tokens, savePtr) := strtokR inputLine
  let (key, savePtr) := strtokR savePtr
  let (value, savePtr) := strtokR savePtr
  let (tag, savePtr) := strtokR savePtr
  let (clientId, _) := strtokR savePtr
  ⟨tokens, key, value, tag, clientId⟩

namespace Strict

def server1GetRequest (s : Store) (key : CStr) : Except Trap Reply :=
  let (cacheLookup, cache) := cacheGet s.cache key
  match cacheLookup with
  | some defn => .ok (exitSuccess, defn, { s with cache := cache })
  | none =>
    match s.T.get key with
    | some c0Lookup => do
      let cache ← defined .other (cachePut cache key c0Lookup.value.chars)
      .ok (exitSuccess, c0Lookup.value.chars, { s with cache := cache })
    | none => do
      let value ← defined .lookup (c1Get s.c1 key)
      -- strcpy(*ret_buffer, value)
      let value ← deref .strcpy value
      let cache ← defined .other (cachePut cache key value)
      .ok (exitSuccess, value, { s with cache := cache })

/-- `server_1_put_request` with a value that is NULL: `Update` and `cache_put` store it, and
`Insert` takes its length where it makes a node. -/
def putMissing (s : Store) (key : CStr) : Except Trap Reply :=
  if (s.T.insert key [] 0).c0Size = s.T.c0Size then .error .stored else .error (.null .strlen)

/-- `server_1_insert_request` with a value that is NULL -/
def insertMissing (s : Store) (key : CStr) : Except Trap Reply :=
  let (cacheLookup, cache) := cacheGet s.cache key
  match cacheLookup, s.T.get key with
  | none, none => putMissing s key
  | _, _ => .ok (exitFailure, duplicate, { s with cache := cache })

def server1PutRequestAbd (s : Store) (key value : CStr) (tag searchTag : AbdTag) :
    Except Trap Reply := do
  let (rc, searchBuffer, s) ← server1GetRequest s key
  if rc ≠ 0 then .error .other
  else
    let (value, searchTag) := sscanfTag searchBuffer value searchTag
    if abdTagCmp tag searchTag = 1 then
      defined .other (server1PutRequest s key (newValue value tag))
    else .ok (0, searchBuffer, s)

def server1InsertRequestAbd (s : Store) (key value : CStr) (tag searchTag : AbdTag) :
    Except Trap Reply := do
  let (rc, searchBuffer, s) ← server1GetRequest s key
  if rc ≠ 0 then .error .other
  else
    let (value, searchTag) := sscanfTag searchBuffer value searchTag
    if abdTagCmp tag searchTag = 1 then
      defined .other (server1InsertRequest s key (newValue value tag))
    else .ok (0, searchBuffer, s)

def server1DeleteRequestAbd (s : Store) (key : CStr) (tag searchTag : AbdTag) :
    Except Trap Reply := do
  let (rc, searchBuffer, s) ← server1GetRequest s key
  if rc ≠ 0 then .error .other
  else if abdTagCmp tag searchTag = 1 then defined .other (server1DeleteRequest s key)
  else .ok (0, searchBuffer, s)

/-- `server_handler`, for one line: `atoi` comes before the check of the tokens. -/
def serverHandler (s : Store) (txid : Int) (searchTag : AbdTag) (inputLine : CStr) :
    Except Trap (CStr × Store) := do
  let t := Tokens.of inputLine
  let tag ← deref .atoi t.tag
  let clientId ← deref .atoi t.clientId
  let recTag : AbdTag := ⟨atoi tag, atoi clientId⟩
  match t.tokens, t.key, t.value with
  | some tokens, some key, some value =>
    if strncmp tokens "GET".toList then do
      let (_, response, s) ← server1GetRequest s key
      .ok (response, s)
    else if strncmp tokens "PUT".toList then do
      let s := logTransaction s txid inputLine
      let (_, response, s) ← server1PutRequestAbd s key value recTag searchTag
      .ok (response, s)
    else if strncmp tokens "INSERT".toList then do
      let s := logTransaction s txid inputLine
      let (_, _, s) ← server1InsertRequestAbd s key value recTag searchTag
      .ok ("OK".toList, s)
    else if strncmp tokens "DELETE".toList then do
      let s := logTransaction s txid inputLine
      let (_, response, s) ← server1DeleteRequestAbd s key recTag searchTag
      .ok (response, s)
    else .ok ("ERROR".toList, s)
  | _, _, _ => .ok ("BAD BOI".toList, s)

/-- `server_handler_blocking`, for one line; `broadcast_write` takes care of a NULL. -/
def serverHandlerBlocking (s : Store) (txid : Int) (inputLine : CStr) :
    Except Trap (CStr × Store) :=
  match command inputLine with
  | .bad => .ok ("BAD BOI".toList, s)
  | .get key => do
    let (_, response, s) ← server1GetRequest s key
    .ok (response, s)
  | .put key (some value) => do
    let (_, response, s) ← defined .other
      (server1PutRequest (logTransaction s txid inputLine) key value)
    .ok (response, s)
  | .put key none => do
    let (_, response, s) ← putMissing (logTransaction s txid inputLine) key
    .ok (response, s)
  | .insert key (some value) => do
    let (_, _, s) ← defined .other
      (server1InsertRequest (logTransaction s txid inputLine) key value)
    .ok ("OK".toList, s)
  | .insert key none => do
    let (_, _, s) ← insertMissing (logTransaction s txid inputLine) key
    .ok ("OK".toList, s)
  | .delete key => do
    let (_, response, s) ← defined .other
      (server1DeleteRequest (logTransaction s txid inputLine) key)
    .ok (response, s)
  | .unknown => .ok ("ERROR".toList, s)

end Strict

/-! ## the reasons forgotten -/

section option
variable {α β : Type}

@[simp] theorem toOption_bind (x : Except Trap α) (f : α → Except Trap β) :
    (x >>= f).toOption = x.toOption.bind fun a => (f a).toOption := by
  cases x <;> rfl

@[simp] theorem toOption_ok (a : α) : (Except.ok a : Except Trap α).toOption = some a := rfl

@[simp] theorem toOption_error (t : Trap) : (Except.error t : Except Trap α).toOption = none := rfl

@[simp] theorem toOption_defined (t : Trap) (x : Option α) : (defined t x).toOption = x := by
  cases x <;> rfl

@[simp] theorem toOption_deref (f : StrFn) (x : Option CStr) : (deref f x).toOption = x := by
  cases x <;> rfl

end option

theorem get_toOption (s : Store) (key : CStr) :
    (Strict.server1GetRequest s key).toOption = server1GetRequest s key := by
  unfold Strict.server1GetRequest server1GetRequest
  dsimp only
  cases (cacheGet s.cache key).1 with
  | some defn => rfl
  | none =>
    cases s.T.get key with
    | some e => simp
    | none => simp

theorem putAbd_toOption (s : Store) (key value : CStr) (tag searchTag : AbdTag) :
    (Strict.server1PutRequestAbd s key value tag searchTag).toOption
      = server1PutRequestAbd s key value tag searchTag := by
  unfold Strict.server1PutRequestAbd server1PutRequestAbd
  rw [toOption_bind, get_toOption]
  refine congrArg _ (funext fun r => ?_)
  dsimp only
  split_ifs <;> simp

theorem insertAbd_toOption (s : Store) (key value : CStr) (tag searchTag : AbdTag) :
    (Strict.server1InsertRequestAbd s key value tag searchTag).toOption
      = server1InsertRequestAbd s key value tag searchTag := by
  unfold Strict.server1InsertRequestAbd server1InsertRequestAbd
  rw [toOption_bind, get_toOption]
  refine congrArg _ (funext fun r => ?_)
  dsimp only
  split_ifs <;> simp

theorem deleteAbd_toOption (s : Store) (key : CStr) (tag searchTag : AbdTag) :
    (Strict.server1DeleteRequestAbd s key tag searchTag).toOption
      = server1DeleteRequestAbd s key tag searchTag := by
  unfold Strict.server1DeleteRequestAbd server1DeleteRequestAbd
  rw [toOption_bind, get_toOption]
  refine congrArg _ (funext fun r => ?_)
  dsimp only
  split_ifs <;> simp

theorem strtokR_nil : strtokR [] = (none, []) := rfl

/-- a line with a fifth token has the four in front of it -/
theorem Tokens.of_clientId {line : CStr} {clientId : CStr}
    (h : (Tokens.of line).clientId = some clientId) : ∃ tokens key value tag,
      Tokens.of line = ⟨some tokens, some key, some value, some tag, some clientId⟩ := by
  unfold Tokens.of at h ⊢
  dsimp only at h ⊢
  obtain ⟨tokens, hts⟩ : ∃ t, (strtokR line).1 = t := ⟨_, rfl⟩
  obtain ⟨key, hk⟩ : ∃ t, (strtokR (strtokR line).2).1 = t := ⟨_, rfl⟩
  obtain ⟨value, hv⟩ : ∃ t, (strtokR (strtokR (strtokR line).2).2).1 = t := ⟨_, rfl⟩
  obtain ⟨tag, ht⟩ : ∃ t, (strtokR (strtokR (strtokR (strtokR line).2).2).2).1 = t := ⟨_, rfl⟩
  cases tag with
  | none =>
    rw [strtokR_none ht, strtokR_nil] at h
    cases h
  | some tag =>
    cases value with
    | none =>
      rw [strtokR_none hv, strtokR_nil] at ht
      cases ht
    | some value =>
      cases key with
      | none =>
        rw [strtokR_none hk, strtokR_nil] at hv
        cases hv
      | some key =>
        cases tokens with
        | none =>
          rw [strtokR_none hts, strtokR_nil] at hk
          cases hk
        | some tokens => exact ⟨tokens, key, value, tag, by rw [hts, hk, hv, ht, h]⟩

/-- **Without the reasons** it is the handler of ABD. -/
theorem handler_toOption (s : Store) (txid : Int) (searchTag : AbdTag) (line : CStr) :
    (Strict.serverHandler s txid searchTag line).toOption
      = serverHandler s txid searchTag line := by
  unfold Strict.serverHandler serverHandler
  obtain ⟨⟨tokens, s1⟩, h1⟩ : ∃ p, strtokR line = p := ⟨_, rfl⟩
  obtain ⟨⟨key, s2⟩, h2⟩ : ∃ p, strtokR s1 = p := ⟨_, rfl⟩
  obtain ⟨⟨value, s3⟩, h3⟩ : ∃ p, strtokR s2 = p := ⟨_, rfl⟩
  obtain ⟨⟨tag, s4⟩, h4⟩ : ∃ p, strtokR s3 = p := ⟨_, rfl⟩
  obtain ⟨⟨clientId, s5⟩, h5⟩ : ∃ p, strtokR s4 = p := ⟨_, rfl⟩
  have ht : Tokens.of line = ⟨tokens, key, value, tag, clientId⟩ := by
    unfold Tokens.of
    simp only [h1, h2, h3, h4, h5]
  simp only [ht, h1, h2, h3, h4, h5]
  cases clientId with
  | none => cases tokens <;> cases key <;> cases value <;> cases tag <;> rfl
  | some clientId =>
    obtain ⟨tokens', key', value', tag', ht'⟩ := Tokens.of_clientId (by rw [ht])
    rw [ht] at ht'
    cases ht'
    simp only [deref, toOption_bind, toOption_ok, Option.bind_some]
    split_ifs <;> simp [get_toOption, putAbd_toOption, insertAbd_toOption, deleteAbd_toOption]

theorem blocking_toOption (s : Store) (txid : Int) {line : CStr}
    (h : ∀ key, command line ≠ .insert key none) :
    (Strict.serverHandlerBlocking s txid line).toOption
      = serverHandlerBlocking s txid line := by
  unfold Strict.serverHandlerBlocking serverHandlerBlocking
  cases hc : command line with
  | put key value =>
    cases value with
    | none =>
      dsimp only
      rw [toOption_bind, Strict.putMissing]
      split_ifs <;> rfl
    | some value =>
      simp
  | insert key value =>
    cases value with
    | none => exact absurd hc (h key)
    | some value => simp
  | bad => rfl
  | unknown => rfl
  | get key =>
    simp [get_toOption]
  | delete key => rfl

/-! ## what a line finds -/

/-- the request ends with an answer, or for another reason -/
def Harmless {α : Type} (x : Except Trap α) : Prop := ∀ t, x = .error t → t = .other

/-- a string is missing -/
def Trap.Missing (t : Trap) : Prop := t = .lookup ∨ ∃ f, t = .null f

section harmless
variable {α β : Type}

theorem harmless_ok (a : α) : Harmless (.ok a) := by
  intro t h
  cases h

theorem harmless_other : Harmless (.error .other : Except Trap α) := by
  intro t h
  cases h
  rfl

theorem harmless_defined (x : Option α) : Harmless (defined .other x) := by
  cases x with
  | none => exact harmless_other
  | some a => exact harmless_ok a

theorem Harmless.bind {x : Except Trap α} (h : Harmless x) {f : α → Except Trap β}
    (hf : ∀ a, Harmless (f a)) : Harmless (x >>= f) := by
  cases x with
  | error t => exact h t rfl ▸ harmless_other
  | ok a => exact hf a

/-- what stops the first part stops the whole -/
theorem bind_error {x : Except Trap α} {t : Trap} (h : x = .error t) (f : α → Except Trap β) :
    x >>= f = .error t := by
  rw [h]
  rfl

end harmless

/-- **A lookup that finds the key** has a string to copy. -/
theorem harmless_get {s : Store} {key : CStr} (h : Answered s key) :
    Harmless (Strict.server1GetRequest s key) := by
  unfold Strict.server1GetRequest
  dsimp only
  cases hc : (cacheGet s.cache key).1 with
  | some defn => exact harmless_ok _
  | none =>
    cases hg : s.T.get key with
    | some e => exact (harmless_defined _).bind fun cache => harmless_ok _
    | none =>
      obtain ⟨v, hv⟩ := (h.resolve_left (cacheGet_miss hc).1).resolve_left (not_not.mpr hg)
      rw [hv]
      exact (harmless_defined _).bind fun cache => harmless_ok _

/-- **One that does not** has none. -/
theorem get_missing {s : Store} {key : CStr} (h : ¬ Answered s key) :
    ∃ t, Strict.server1GetRequest s key = .error t ∧ t.Missing := by
  unfold Strict.server1GetRequest
  dsimp only
  cases hc : (cacheGet s.cache key).1 with
  | some defn => exact absurd (Or.inl ⟨defn, (cacheGet_hit hc).1⟩) h
  | none =>
    cases hg : s.T.get key with
    | some e => exact absurd (Or.inr (Or.inl (by rw [hg]; simp))) h
    | none =>
      cases hv : c1Get s.c1 key with
      | none => exact ⟨.lookup, rfl, Or.inl rfl⟩
      | some value =>
        cases value with
        | none => exact ⟨.null .strcpy, rfl, Or.inr ⟨_, rfl⟩⟩
        | some v => exact absurd (Or.inr (Or.inr ⟨v, hv⟩)) h

section abd
variable {s : Store} {key : CStr} (value : CStr) (tag searchTag : AbdTag)

theorem harmless_putAbd (h : Answered s key) :
    Harmless (Strict.server1PutRequestAbd s key value tag searchTag) := by
  refine (harmless_get h).bind fun r => ?_
  dsimp only
  split_ifs
  · exact harmless_other
  · exact harmless_defined _
  · exact harmless_ok _

theorem harmless_insertAbd (h : Answered s key) :
    Harmless (Strict.server1InsertRequestAbd s key value tag searchTag) := by
  refine (harmless_get h).bind fun r => ?_
  dsimp only
  split_ifs
  · exact harmless_other
  · exact harmless_defined _
  · exact harmless_ok _

theorem harmless_deleteAbd (h : Answered s key) :
    Harmless (Strict.server1DeleteRequestAbd s key tag searchTag) := by
  refine (harmless_get h).bind fun r => ?_
  dsimp only
  split_ifs
  · exact harmless_other
  · exact harmless_defined _
  · exact harmless_ok _

end abd

/-! ## what a client may expect -/

/-- `setup_sigs_and_exec_handler`, for one line -/
def Strict.execHandler (blocking : Bool) (s : Store) (txid : Int) (searchTag : AbdTag)
    (inputLine : CStr) : Except Trap (CStr × Store) :=
  if blocking then Strict.serverHandlerBlocking s txid inputLine
  else Strict.serverHandler s txid searchTag inputLine

/-- a command with a branch of its own -/
def Known (tokens : CStr) : Prop :=
  strncmp tokens "GET".toList ∨ strncmp tokens "PUT".toList ∨ strncmp tokens "INSERT".toList ∨
    strncmp tokens "DELETE".toList

instance (tokens : CStr) : Decidable (Known tokens) := inferInstanceAs (Decidable (_ ∨ _))

/-- The line lacks a token that its command needs; in ABD every command needs five. -/
def LacksToken (blocking : Bool) (line : CStr) : Prop :=
  if blocking then command line = .bad ∨
    ∃ key, command line = .put key none ∨ command line = .insert key none
  else (Tokens.of line).clientId = none

/-- the key whose string the line is answered from: in ABD every command begins with a GET -/
def LooksUp (blocking : Bool) (line key : CStr) : Prop :=
  if blocking then command line = .get key
  else (Tokens.of line).key = some key ∧ (Tokens.of line).clientId ≠ none ∧
    ∃ tokens, (Tokens.of line).tokens = some tokens ∧ Known tokens

/-- neither the cache, nor a node of `_T`, nor a record of a data file has the key -/
structure StoredNowhere (s : Store) (key : CStr) : Prop where
  cache : ¬ s.cache.Has key
  table : ∀ e ∈ s.T.entries, e.key ≠ key
  files : ∀ n file, s.c1.files n = some file → ∀ line ∈ file, (sscanf line).1 ≠ some key

/-- **What a client may expect**: no string function is called on a missing token or a missing
result, a line that lacks a token leaves the server as it was, and so a key that is stored nowhere
has an answer. -/
structure Handled (blocking : Bool) (s : Store) (txid : Int) (searchTag : AbdTag) (line : CStr) :
    Prop where
  strings : ∀ t, Strict.execHandler blocking s txid searchTag line = .error t → ¬ t.Missing
  lacking : LacksToken blocking line →
    ∃ response, Strict.execHandler blocking s txid searchTag line = .ok (response, s)
  absent : ∀ key, LooksUp blocking line key → StoredNowhere s key →
    ∃ r, Strict.execHandler blocking s txid searchTag line = .ok r

/-- The line has the tokens its command needs, but a line without command or key is no matter for a
blocking server, and the key it looks up is cached, at the root of `_T` or found by `c1_get`. -/
def Meets (blocking : Bool) (s : Store) (line : CStr) : Prop :=
  (LacksToken blocking line → blocking = true ∧ command line = .bad) ∧
    ∀ key, LooksUp blocking line key → Answered s key

theorem not_storedNowhere {s : Store} {key : CStr} (h : Answered s key) :
    ¬ StoredNowhere s key := by
  intro hno
  rcases h with h | h | ⟨v, hv⟩
  · exact hno.cache h
  · obtain ⟨e, he⟩ := Option.ne_none_iff_exists'.mp h
    obtain ⟨hm, hk⟩ := C0Node.get_mem he
    exact hno.table e hm hk
  · obtain ⟨file, line, hf, hl, hk, -⟩ := c1Get_mem hv
    exact hno.files _ file hf line hl hk

theorem Harmless.strings {α : Type} {x : Except Trap α} (h : Harmless x) :
    ∀ t, x = .error t → ¬ t.Missing := by
  intro t ht hm
  obtain rfl := h t ht
  rcases hm with hm | ⟨f, hm⟩ <;> cases hm

/-- a logged line is one more -/
theorem txLog_logTransaction_ne (s : Store) (txid : Int) (data : CStr) :
    (logTransaction s txid data).txLog ≠ s.txLog := by
  intro h
  have hlog : some (s.txLog.getD [] ++ [(⟨txid, data, 1, 1⟩ : Transaction)]) = s.txLog := h
  have hlen := congrArg (fun o => (o.getD []).length) hlog
  simp only [Option.getD_some, List.length_append, List.length_singleton] at hlen
  omega

theorem putMissing_error (s : Store) (key : CStr) : ∃ t, Strict.putMissing s key = .error t := by
  unfold Strict.putMissing
  split_ifs
  · exact ⟨_, rfl⟩
  · exact ⟨_, rfl⟩

/-- an INSERT without a value that is answered leaves the log alone -/
theorem insertMissing_txLog {s : Store} {key : CStr} {r : Reply}
    (h : Strict.insertMissing s key = .ok r) : r.2.2.txLog = s.txLog := by
  unfold Strict.insertMissing at h
  dsimp only at h
  cases hc : (cacheGet s.cache key).1 with
  | some defn =>
    rw [hc] at h
    cases h
    rfl
  | none =>
    cases hg : s.T.get key with
    | some e =>
      rw [hc, hg] at h
      cases h
      rfl
    | none =>
      rw [hc, hg] at h
      obtain ⟨t, ht⟩ := putMissing_error s key
      dsimp only at h
      rw [ht] at h
      cases h

section five
variable {s : Store} {txid : Int} {searchTag : AbdTag} {line tokens key value tag clientId : CStr}

/-- a line of five tokens -/
theorem serverHandler_five
    (ht : Tokens.of line = ⟨some tokens, some key, some value, some tag, some clientId⟩) :
    Strict.serverHandler s txid searchTag line =
      if strncmp tokens "GET".toList then
        Strict.server1GetRequest s key >>= fun r => .ok (r.2.1, r.2.2)
      else if strncmp tokens "PUT".toList then
        Strict.server1PutRequestAbd (logTransaction s txid line) key value
          ⟨atoi tag, atoi clientId⟩ searchTag >>= fun r => .ok (r.2.1, r.2.2)
      else if strncmp tokens "INSERT".toList then
        Strict.server1InsertRequestAbd (logTransaction s txid line) key value
          ⟨atoi tag, atoi clientId⟩ searchTag >>= fun r => .ok ("OK".toList, r.2.2)
      else if strncmp tokens "DELETE".toList then
        Strict.server1DeleteRequestAbd (logTransaction s txid line) key
          ⟨atoi tag, atoi clientId⟩ searchTag >>= fun r => .ok (r.2.1, r.2.2)
      else .ok ("ERROR".toList, s) := by
  rw [Strict.serverHandler, ht]
  rfl

/-- **A command whose GET finds nothing** -/
theorem five_missing
    (ht : Tokens.of line = ⟨some tokens, some key, some value, some tag, some clientId⟩)
    (hk : Known tokens) (h : ¬ Answered s key) :
    ∃ t, Strict.serverHandler s txid searchTag line = .error t ∧ t.Missing := by
  have hlog : ¬ Answered (logTransaction s txid line) key := h
  obtain ⟨t, he, hm⟩ := get_missing h
  obtain ⟨t', he', hm'⟩ := get_missing hlog
  rw [serverHandler_five ht]
  split_ifs with h1 h2 h3 h4
  · exact ⟨t, bind_error he _, hm⟩
  · exact ⟨t', bind_error (bind_error he' _) _, hm'⟩
  · exact ⟨t', bind_error (bind_error he' _) _, hm'⟩
  · exact ⟨t', bind_error (bind_error he' _) _, hm'⟩
  · rcases hk with hk | hk | hk | hk
    · exact absurd hk h1
    · exact absurd hk h2
    · exact absurd hk h3
    · exact absurd hk h4

/-- **One whose GET finds its key, or a command that is not known** -/
theorem five_harmless
    (ht : Tokens.of line = ⟨some tokens, some key, some value, some tag, some clientId⟩)
    (h : Known tokens → Answered s key) :
    Harmless (Strict.serverHandler s txid searchTag line) := by
  have hlog : ∀ hk : Known tokens, Answered (logTransaction s txid line) key := h
  rw [serverHandler_five ht]
  split_ifs with h1 h2 h3 h4
  · exact (harmless_get (h (Or.inl h1))).bind fun r => harmless_ok _
  · exact (harmless_putAbd _ _ _ (hlog (Or.inr (Or.inl h2)))).bind fun r => harmless_ok _
  · exact (harmless_insertAbd _ _ _ (hlog (Or.inr (Or.inr (Or.inl h3))))).bind
      fun r => harmless_ok _
  · exact (harmless_deleteAbd _ _ (hlog (Or.inr (Or.inr (Or.inr h4))))).bind
      fun r => harmless_ok _
  · exact harmless_ok _

end five

/-- **When a line of an ABD client is handled.** -/
theorem handled_abd_iff (s : Store) (txid : Int) (searchTag : AbdTag) (line : CStr) :
    Handled false s txid searchTag line ↔ Meets false s line := by
  have hexec : Strict.execHandler false s txid searchTag line
      = Strict.serverHandler s txid searchTag line := rfl
  cases hc : (Tokens.of line).clientId with
  | none =>
    -- `atoi` is called on NULL
    refine iff_of_false (fun h => ?_) (fun h => ?_)
    · obtain ⟨response, hr⟩ := h.lacking hc
      rw [hexec, Strict.serverHandler, hc] at hr
      dsimp only at hr
      cases ht : (Tokens.of line).tag <;> rw [ht] at hr <;> cases hr
    · exact absurd (h.1 hc).1 (by decide)
  | some clientId =>
    obtain ⟨tokens, key, value, tag, ht⟩ := Tokens.of_clientId hc
    have hlacks : ¬ LacksToken false line := by
      intro h
      have hnone : (Tokens.of line).clientId = none := h
      rw [hc] at hnone
      cases hnone
    have hlooks : ∀ k, LooksUp false line k ↔ k = key ∧ Known tokens := by
      intro k
      show ((Tokens.of line).key = some k ∧ (Tokens.of line).clientId ≠ none ∧ _) ↔ _
      rw [ht]
      simp [eq_comm]
    have hmeets : Meets false s line ↔ (Known tokens → Answered s key) := by
      unfold Meets
      simp only [hlacks, false_implies, true_and, hlooks]
      exact ⟨fun h hk => h key ⟨rfl, hk⟩, fun h k hk => hk.1 ▸ h hk.2⟩
    rw [hmeets]
    constructor
    · intro h hk
      by_contra hno
      obtain ⟨t, he, hm⟩ := five_missing ht hk hno
      exact h.strings t he hm
    · intro h
      refine ⟨?_, fun hl => absurd hl hlacks, fun k hk hno => ?_⟩
      · exact (five_harmless ht h).strings
      · obtain ⟨rfl, hknown⟩ := (hlooks k).mp hk
        exact absurd hno (not_storedNowhere (h hknown))

section blocking
variable {s : Store} {txid : Int} {line : CStr} (searchTag : AbdTag)

/-- a line that needs neither a third token nor a lookup -/
theorem blocking_plain (hget : ∀ key, command line ≠ .get key)
    (hput : ∀ key, command line ≠ .put key none) (hinsert : ∀ key, command line ≠ .insert key none)
    (hharm : Harmless (Strict.serverHandlerBlocking s txid line)) :
    Handled true s txid searchTag line ↔ Meets true s line := by
  have hexec : Strict.execHandler true s txid searchTag line
      = Strict.serverHandlerBlocking s txid line := rfl
  have hlacks : LacksToken true line → command line = .bad := by
    intro h
    rcases h with h | ⟨key, h | h⟩
    · exact h
    · exact absurd h (hput key)
    · exact absurd h (hinsert key)
  refine iff_of_true ⟨hharm.strings, fun h => ?_, fun key h _ => ?_⟩
    ⟨fun h => ⟨rfl, hlacks h⟩, fun key h => ?_⟩
  · refine ⟨"BAD BOI".toList, ?_⟩
    rw [hexec, Strict.serverHandlerBlocking, hlacks h]
  · exact absurd h (hget key)
  · exact absurd h (hget key)

/-- a PUT or INSERT without a value has been logged -/
theorem blocking_value {key : CStr}
    (hc : command line = .put key none ∨ command line = .insert key none)
    (hno : ∀ response, Strict.serverHandlerBlocking s txid line ≠ .ok (response, s)) :
    Handled true s txid searchTag line ↔ Meets true s line := by
  have hlacks : LacksToken true line := Or.inr ⟨key, hc⟩
  refine iff_of_false (fun h => ?_) (fun h => ?_)
  · obtain ⟨response, hr⟩ := h.lacking hlacks
    exact hno response hr
  · have hbad := (h.1 hlacks).2
    rcases hc with hc | hc
    · rw [hc] at hbad
      cases hbad
    · rw [hc] at hbad
      cases hbad

theorem put_no_value {key : CStr} (hc : command line = .put key none) (response : CStr) :
    Strict.serverHandlerBlocking s txid line ≠ .ok (response, s) := by
  intro hr
  obtain ⟨t, ht⟩ := putMissing_error (logTransaction s txid line) key
  rw [Strict.serverHandlerBlocking, hc] at hr
  dsimp only at hr
  rw [ht] at hr
  cases hr

theorem insert_no_value {key : CStr} (hc : command line = .insert key none) (response : CStr) :
    Strict.serverHandlerBlocking s txid line ≠ .ok (response, s) := by
  intro hr
  rw [Strict.serverHandlerBlocking, hc] at hr
  dsimp only at hr
  cases hi : Strict.insertMissing (logTransaction s txid line) key with
  | error t =>
    rw [hi] at hr
    cases hr
  | ok r =>
    rw [hi] at hr
    obtain ⟨-, hs⟩ := Prod.mk.inj (Except.ok.inj hr)
    refine txLog_logTransaction_ne s txid line ?_
    rw [← insertMissing_txLog hi, hs]

theorem blocking_get {key : CStr} (hc : command line = .get key) :
    Handled true s txid searchTag line ↔ Meets true s line := by
  have hexec : Strict.execHandler true s txid searchTag line
      = Strict.serverHandlerBlocking s txid line := rfl
  have hlooks : ∀ k, LooksUp true line k ↔ k = key := by
    intro k
    show command line = .get k ↔ _
    rw [hc]
    simp [eq_comm]
  have hlacks : ¬ LacksToken true line := by
    intro h
    rcases h with h | ⟨k, h | h⟩ <;> rw [hc] at h <;> cases h
  have hrun : Strict.serverHandlerBlocking s txid line
      = Strict.server1GetRequest s key >>= fun r => .ok (r.2.1, r.2.2) := by
    rw [Strict.serverHandlerBlocking, hc]
  have hmeets : Meets true s line ↔ Answered s key := by
    unfold Meets
    simp only [hlacks, false_implies, true_and, hlooks, forall_eq]
  rw [hmeets]
  constructor
  · intro h
    by_contra hno
    obtain ⟨t, he, hm⟩ := get_missing hno
    refine h.strings t ?_ hm
    rw [hexec, hrun]
    exact bind_error he _
  · intro h
    refine ⟨?_, fun hl => absurd hl hlacks, fun k hk hno => ?_⟩
    · rw [hexec, hrun]
      exact ((harmless_get h).bind fun r => harmless_ok _).strings
    · obtain rfl := (hlooks k).mp hk
      exact absurd hno (not_storedNowhere h)

end blocking

/-- **When a line of a blocking client is handled.** -/
theorem handled_blocking_iff (s : Store) (txid : Int) (searchTag : AbdTag) (line : CStr) :
    Handled true s txid searchTag line ↔ Meets true s line := by
  cases hc : command line with
  | bad =>
    refine blocking_plain _ (by simp [hc]) (by simp [hc]) (by simp [hc]) ?_
    rw [Strict.serverHandlerBlocking, hc]
    exact harmless_ok _
  | unknown =>
    refine blocking_plain _ (by simp [hc]) (by simp [hc]) (by simp [hc]) ?_
    rw [Strict.serverHandlerBlocking, hc]
    exact harmless_ok _
  | delete key =>
    refine blocking_plain _ (by simp [hc]) (by simp [hc]) (by simp [hc]) ?_
    rw [Strict.serverHandlerBlocking, hc]
    exact (harmless_defined _).bind fun r => harmless_ok _
  | put key value =>
    cases value with
    | some value =>
      refine blocking_plain _ (by simp [hc]) (by simp [hc]) (by simp [hc]) ?_
      rw [Strict.serverHandlerBlocking, hc]
      exact (harmless_defined _).bind fun r => harmless_ok _
    | none => exact blocking_value _ (Or.inl hc) (put_no_value hc)
  | insert key value =>
    cases value with
    | some value =>
      refine blocking_plain _ (by simp [hc]) (by simp [hc]) (by simp [hc]) ?_
      rw [Strict.serverHandlerBlocking, hc]
      exact (harmless_defined _).bind fun r => harmless_ok _
    | none => exact blocking_value _ (Or.inr hc) (insert_no_value hc)
  | get key => exact blocking_get _ hc

theorem handled_line_iff (blocking : Bool) (s : Store) (txid : Int) (searchTag : AbdTag)
    (line : CStr) : Handled blocking s txid searchTag line ↔ Meets blocking s line := by
  cases blocking with
  | false => exact handled_abd_iff s txid searchTag line
  | true => exact handled_blocking_iff s txid searchTag line

/-! ## runs -/

/-- what a server does: a line of either handler, the timer, a restart with a recovery -/
inductive ServerEvent where
  | line (blocking : Bool) (txid : Int) (searchTag : AbdTag) (inputLine : CStr)
  | timer
  | restart

/-- the store after an event -/
def Store.next (s : Store) : ServerEvent → Option Store
  | .line blocking txid searchTag inputLine =>
    ((Strict.execHandler blocking s txid searchTag inputLine).toOption).map Prod.snd
  | .timer => myTimerHandler s
  | .restart => (recover (crash s)).map fun r => runServer1 r.2

/-- a line is handled -/
def ServerEvent.Handled (s : Store) : ServerEvent → Prop
  | .line blocking txid searchTag inputLine => LsmKv.Handled blocking s txid searchTag inputLine
  | _ => True

/-- a line meets the condition -/
def ServerEvent.Meets (s : Store) : ServerEvent → Prop
  | .line blocking _ _ inputLine => LsmKv.Meets blocking s inputLine
  | _ => True

/-- **When no missing string is used**: every line of a run of the server is handled if and only if
each one meets the condition in the store it finds: it has the tokens it needs, and the key it looks
up is cached, at the root of the table or found in the data file. -/
theorem no_missing_iff (s : Store) (es : List ServerEvent) :
    Run.Guarded Store.next ServerEvent.Handled s es
      ↔ Run.Guarded Store.next ServerEvent.Meets s es := by
  refine Run.guarded_congr (fun t e => ?_) s es
  cases e with
  | line blocking txid searchTag inputLine => exact handled_line_iff blocking t txid searchTag _
  | timer => exact Iff.rfl
  | restart => exact Iff.rfl

/-- **Missing strings**: a GET of a key that is nowhere, in ABD a line of two tokens, and a PUT
without a value. -/
theorem missing_strings_used :
    Strict.execHandler true Store.empty 1 ⟨0, 0⟩ "GET a".toList = .error (.null .strcpy) ∧
    Strict.execHandler false Store.empty 1 ⟨0, 0⟩ "GET a".toList = .error (.null .atoi) ∧
    Strict.execHandler false Store.empty 1 ⟨0, 0⟩ "PUT a v 1 1".toList = .error (.null .strcpy) ∧
    Strict.execHandler true Store.empty 1 ⟨0, 0⟩ "PUT a".toList = .error (.null .strlen) ∧
    StoredNowhere Store.empty ['a'] ∧
    ¬ Handled true Store.empty 1 ⟨0, 0⟩ "GET a".toList ∧
    ¬ Handled false Store.empty 1 ⟨0, 0⟩ "GET a".toList ∧
    ¬ Handled false Store.empty 1 ⟨0, 0⟩ "PUT a v 1 1".toList ∧
    ¬ Handled true Store.empty 1 ⟨0, 0⟩ "PUT a".toList := by
  have h1 : Strict.execHandler true Store.empty 1 ⟨0, 0⟩ "GET a".toList
      = .error (.null .strcpy) := rfl
  have h2 : Strict.execHandler false Store.empty 1 ⟨0, 0⟩ "GET a".toList
      = .error (.null .atoi) := rfl
  have h3 : Strict.execHandler false Store.empty 1 ⟨0, 0⟩ "PUT a v 1 1".toList
      = .error (.null .strcpy) := rfl
  have h4 : Strict.execHandler true Store.empty 1 ⟨0, 0⟩ "PUT a".toList
      = .error (.null .strlen) := rfl
  have hmiss : ∀ f, (Trap.null f).Missing := fun f => Or.inr ⟨f, rfl⟩
  refine ⟨h1, h2, h3, h4, ⟨?_, ?_, ?_⟩, fun h => h.strings _ h1 (hmiss _),
    fun h => h.strings _ h2 (hmiss _), fun h => h.strings _ h3 (hmiss _),
    fun h => h.strings _ h4 (hmiss _)⟩
  · decide
  · intro e he
    cases he
  · intro n file hf
    cases hf

end LsmKv
