import LsmKv.Store

/-!
# The journal and the blocking handler (`journal.c`, `server-part1.c`)

`tx_log` is the list of its whole entries.

* `command`                    the dispatch on the tokens of a request line;
* `logTransaction`, `recover`  the log appended to, and replayed;
* `serverHandlerBlocking`      one client request, once its lock is granted: `broadcast_write` and
                               the lock leave the store alone;
* `crash`, `runServer1`        what a restart finds, and its initialisation;
* `handler_write`, `replay_write`   live and replay make the same call for a write.

A PUT or INSERT line without a value passes NULL on: it has no result here.
-/

namespace LsmKv

/-- what a request line asks for; `value` is the third token, if there is one -/
inductive Command where
  | bad
  | get (key : CStr)
  | put (key : CStr) (value : Option CStr)
  | insert (key : CStr) (value : Option CStr)
  | delete (key : CStr)
  | unknown
  deriving DecidableEq, Repr

/-- three calls of `strtok_r` and the chain of `strncmp` -/
def command (line : CStr) : Command :=
  let (tokens, savePtr) := strtokR line
  let (key, savePtr) := strtokR savePtr
  let (value, _) := strtokR savePtr
  match tokens, key with
  | some tokens, some key =>
    if strncmp tokens "GET".toList then .get key
    else if strncmp tokens "PUT".toList then .put key value
    else if strncmp tokens "INSERT".toList then .insert key value
    else if strncmp tokens "DELETE".toList then .delete key
    else .unknown
  | _, _ => .bad

/-- `log_transaction`; `txid` is what `rand` returned -/
def logTransaction (s : Store) (txid : Int) (data : CStr) : Store :=
  { s with txLog := some (s.txLog.getD [] ++ [⟨txid, data, 1, 1⟩]) }

/-- the response to the client and the state after one request line -/
def serverHandlerBlocking (s : Store) (txid : Int) (inputLine : CStr) : Option (CStr × Store) :=
  match command inputLine with
  | .bad => some ("BAD BOI".toList, s)
  | .get key => do
    let (_, response, s) ← server1GetRequest s key
    some (response, s)
  | .put key value => do
    let value ← value
    let (_, response, s) ← server1PutRequest (logTransaction s txid inputLine) key value
    some (response, s)
  | .insert key value => do
    let value ← value
    let (_, _, s) ← server1InsertRequest (logTransaction s txid inputLine) key value
    some ("OK".toList, s)
  | .delete key => do
    let (_, response, s) ← server1DeleteRequest (logTransaction s txid inputLine) key
    some (response, s)
  | .unknown => some ("ERROR".toList, s)

/-- one round of the loop of `recover` -/
def replayEntry (s : Store) (tx : Transaction) : Option Store :=
  if tx.valid = 0 then some s
  else match command tx.data with
    | .bad => some s
    | .get key => (server1GetRequest s key).map fun r => r.2.2
    | .put key value => do
      let value ← value
      (server1PutRequest s key value).map fun r => r.2.2
    | .insert key value => do
      let value ← value
      (server1InsertRequest s key value).map fun r => r.2.2
    | .delete key => (server1DeleteRequest s key).map fun r => r.2.2
    | .unknown => some s

/-- The return code and the state after; the log is removed at the end. -/
def recover (s : Store) : Option (Int × Store) :=
  match s.txLog with
  | none => some (-1, s)
  | some entries => do
    let s ← entries.foldlM replayEntry s
    some (0, { s with txLog := none })

/-- what is left of a process that ended: the files -/
def crash (s : Store) : Store :=
  ⟨Cache.empty, .null, { s.c1 with fileCounter := -1, metadata := none }, s.txLog⟩

/-- the initialisation in `run_server_1`: `head = tail = NULL` and `c1_init` -/
def runServer1 (s : Store) : Store :=
  { s with cache := { s.cache with nodes := [] }, c1 := c1Init s.c1 }

/-! ## writes -/

/-- the request of a PUT, INSERT or DELETE line that has the tokens it needs -/
def Command.write : Command → Option Req
  | .put key (some value) => some (.put key value)
  | .insert key (some value) => some (.insert key value)
  | .delete key => some (.delete key)
  | _ => none

theorem writes_of_write {c : Command} {r : Req} (h : c.write = some r) : r.writes ≠ none := by
  cases c with
  | put key value => cases value <;> cases h; simp [Req.writes]
  | insert key value => cases value <;> cases h; simp [Req.writes]
  | delete key => cases h; simp [Req.writes]
  | bad => cases h
  | get key => cases h
  | unknown => cases h

/-- a live write is logged and served -/
theorem handler_write {line : CStr} {r : Req} (h : (command line).write = some r) (s : Store)
    (txid : Int) : (serverHandlerBlocking s txid line).map Prod.snd
      = (serve (logTransaction s txid line) r).map fun reply => reply.2.2 := by
  unfold serverHandlerBlocking
  cases hc : command line with
  | put key value =>
    cases value with
    | none => rw [hc] at h; cases h
    | some value =>
      rw [hc] at h
      cases h
      show Option.map _ (Option.bind (server1PutRequest _ _ _) _) = _
      rw [serve]
      cases server1PutRequest (logTransaction s txid line) key value <;> rfl
  | insert key value =>
    cases value with
    | none => rw [hc] at h; cases h
    | some value =>
      rw [hc] at h
      cases h
      show Option.map _ (Option.bind (server1InsertRequest _ _ _) _) = _
      rw [serve]
      cases server1InsertRequest (logTransaction s txid line) key value <;> rfl
  | delete key =>
    rw [hc] at h
    cases h
    rfl
  | bad => rw [hc] at h; cases h
  | get key => rw [hc] at h; cases h
  | unknown => rw [hc] at h; cases h

/-- a replayed write is served -/
theorem replay_write {tx : Transaction} {r : Req} (hv : tx.valid ≠ 0)
    (h : (command tx.data).write = some r) (s : Store) :
    replayEntry s tx = (serve s r).map fun reply => reply.2.2 := by
  unfold replayEntry
  rw [if_neg hv]
  cases hc : command tx.data with
  | put key value =>
    cases value with
    | none => rw [hc] at h; cases h
    | some value => rw [hc] at h; cases h; rfl
  | insert key value =>
    cases value with
    | none => rw [hc] at h; cases h
    | some value => rw [hc] at h; cases h; rfl
  | delete key => rw [hc] at h; cases h; rfl
  | bad => rw [hc] at h; cases h
  | get key => rw [hc] at h; cases h
  | unknown => rw [hc] at h; cases h

end LsmKv
