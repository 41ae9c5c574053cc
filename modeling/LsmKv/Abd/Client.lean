import LsmKv.Lib.Run
import LsmKv.Abd.Handler

/-!
# ABD clients (`client.c`)

Clients read and write one key on `n` replicas, one operation after the other.  A query starts a
thread for each node and goes on when its semaphore shows a majority, so threads of earlier
queries may still be on their way.  The strings fit their buffers.

* `Clients`, `Clients.step`   the replicas, the clients' variables, the threads, and one step;
* `obtained`, `writtenBack`   what the reads so far obtained and wrote back, each with the value
                              of the last completed `abd_write`;
* `ReadOk`                    the read is the first of its client, and every replica stores that
                              value;
* `Wire`, `Reading`           what holds of the threads, and of a read that is under way;
* `abd_read_last`             such reads obtain, and write back, the value of the last write.
-/

namespace LsmKv

open Run

/-- `CLIENT_ID` -/
def abdClientId : BitVec 32 := 10

/-- `abd_read_query` or `abd_write_query` -/
inductive Kind where
  | read
  | write
  deriving DecidableEq, Repr

/-- the `abd_arg` that the threads of one query share, and the client they belong to -/
structure AbdArg (n : ℕ) (ι : Type) where
  client : ι
  nodeId : Option (Fin n)
  value : CStr
  tag : Option AbdTag

/-- where a thread of a query is -/
inductive QueryPhase (n : ℕ) where
  | created
  | sent (i : Fin n) (cmd : CStr)
  | replied (buffer : CStr)
  | done

/-- one thread; `arg` is the number of its `abd_arg` -/
structure Query (n : ℕ) where
  kind : Kind
  arg : ℕ
  phase : QueryPhase n

/-- where the operation under way is; `op` is the value of an `abd_write` -/
inductive Prog where
  | idle
  | spawning (kind : Kind) (arg : ℕ) (i : ℕ) (op : Option CStr)
  | waiting (kind : Kind) (arg : ℕ) (op : Option CStr)
  | returned (arg : ℕ)

structure Clients (n : ℕ) (ι : Type) where
  replica : Fin n → Store
  rqSem : ι → ℕ
  wqSem : ι → ℕ
  args : ℕ → Option (AbdArg n ι)
  next : ℕ
  queries : List (Query n)
  prog : Prog
  /-- the value of the last `abd_write` that completed -/
  lastWrite : Option CStr
  obtained : List (Option CStr × CStr)
  writtenBack : List (Option CStr × CStr)

inductive ClientAct (ι : Type) where
  /-- `contents` is what `malloc` left in `arg->value` -/
  | startRead (c : ι) (contents : CStr)
  | startWrite (c : ι) (value : CStr) (timestamp : Int)
  | spawn
  | send (j : ℕ)
  | deliver (j : ℕ) (txid : Int) (searchTag : AbdTag)
  | receive (j : ℕ)
  | proceed
  | writeBack

/-- `snprintf(new_value, MAX_ENTRY_SIZE + MAX_TAG_SIZE + 3, "%s %d %d\n", ..)` -/
def fmtRequest (value : CStr) (tag : AbdTag) : CStr :=
  (fmtTag value tag ++ ['\n']).take (maxEntrySize + maxTagSize + 3 - 1)

/-- the command that a thread sends -/
def queryCmd (key : CStr) {n : ℕ} {ι : Type} (arg : AbdArg n ι) : Kind → Option CStr
  | .read => arg.tag.map fun tag => "GET".toList ++ ' ' :: (key ++ ' ' :: fmtRequest "-".toList tag)
  | .write => some ("PUT".toList ++ ' ' :: (key ++ ' ' :: arg.value))

/-- What `send_abd_read_query` reads in an answer.  Both fields of the tag are taken from the first
token: `strtok_r` is called on `req_str` again, where it has put a terminator behind that token. -/
def parseReply (buffer : CStr) : Option (CStr × AbdTag) := do
  let v ← (strtokR buffer).1
  let reqStr := buffer.takeWhile (· = ' ') ++ v
  let timestamp ← (strtokR reqStr).1
  let clientId ← (strtokR reqStr).1
  some (v, ⟨atoi timestamp, atoi clientId⟩)

namespace Clients
variable {n : ℕ} {ι : Type}

/-- a new `abd_arg`, and how the operation goes on with it -/
def alloc (s : Clients n ι) (arg : AbdArg n ι) (prog : Prog) : Clients n ι :=
  { s with args := Function.update s.args s.next (some arg), next := s.next + 1, prog := prog }

def setArg (s : Clients n ι) (a : ℕ) (arg : AbdArg n ι) : Clients n ι :=
  { s with args := Function.update s.args a (some arg) }

def setQuery (s : Clients n ι) (j : ℕ) (q : Query n) : Clients n ι :=
  { s with queries := s.queries.set j q }

/-- one turn of the loop around `pthread_create` -/
def create (s : Clients n ι) (kind : Kind) (a : ℕ) (arg : AbdArg n ι) (i : Fin n)
    (op : Option CStr) : Clients n ι :=
  { s.setArg a { arg with nodeId := some i } with
    queries := s.queries ++ [⟨kind, a, .created⟩]
    prog := .spawning kind a (i + 1) op }

variable [DecidableEq ι]

def step (key : CStr) (s : Clients n ι) : ClientAct ι → Option (Clients n ι)
  | .startRead c contents =>
    match s.prog with
    | .idle => some (s.alloc ⟨c, none, contents, some ⟨0, abdClientId⟩⟩
        (.spawning .read s.next 0 none))
    | _ => none
  | .startWrite c value _ =>
    -- the timestamp is not used
    match s.prog with
    | .idle => some (s.alloc ⟨c, none, fmtRequest value ⟨0, abdClientId⟩, none⟩
        (.spawning .write s.next 0 (some value)))
    | _ => none
  | .spawn =>
    match s.prog with
    | .spawning kind a i op =>
      if h : i < n then (s.args a).map fun arg => s.create kind a arg ⟨i, h⟩ op
      else some { s with prog := .waiting kind a op }
    | _ => none
  | .send j =>
    -- the node is read when the thread runs, not when it is created
    match s.queries[j]? with
    | some ⟨kind, a, .created⟩ => do
      let arg ← s.args a
      let i ← arg.nodeId
      let cmd ← queryCmd key arg kind
      some (s.setQuery j ⟨kind, a, .sent i cmd⟩)
    | _ => none
  | .deliver j txid searchTag =>
    match s.queries[j]? with
    | some ⟨kind, a, .sent i cmd⟩ => do
      let (response, store) ← serverHandler (s.replica i) txid searchTag cmd
      some { s.setQuery j ⟨kind, a, .replied response⟩ with
        replica := Function.update s.replica i store }
    | _ => none
  | .receive j =>
    match s.queries[j]? with
    | some ⟨.read, a, .replied buffer⟩ => do
      let arg ← s.args a
      let (v, tag) ← parseReply buffer
      let old ← arg.tag
      let tag := if abdTagCmp tag old ≠ 0 then tag else old
      some { (s.setArg a { arg with value := v, tag := some tag }).setQuery j ⟨.read, a, .done⟩ with
        rqSem := Function.update s.rqSem arg.client (s.rqSem arg.client + 1) }
    | some ⟨.write, a, .replied _⟩ => do
      let arg ← s.args a
      some { s.setQuery j ⟨.write, a, .done⟩ with
        wqSem := Function.update s.wqSem arg.client (s.wqSem arg.client + 1) }
    | _ => none
  | .proceed =>
    -- the semaphores are never reset
    match s.prog with
    | .waiting .read a _ => do
      let arg ← s.args a
      if s.rqSem arg.client < n / 2 + 1 then none
      else some { s with
        prog := .returned a, obtained := (s.lastWrite, arg.value) :: s.obtained }
    | .waiting .write a op => do
      let arg ← s.args a
      if s.wqSem arg.client < n / 2 + 1 then none
      else some { s with prog := .idle, lastWrite := op.or s.lastWrite }
    | _ => none
  | .writeBack =>
    match s.prog with
    | .returned a => do
      let arg ← s.args a
      let tag ← arg.tag
      some { s.alloc ⟨arg.client, none, fmtRequest arg.value tag, none⟩
          (.spawning .write s.next 0 none) with
        writtenBack := (s.lastWrite, arg.value) :: s.writtenBack }
    | _ => none

def init (replica : Fin n → Store) : Clients n ι :=
  ⟨replica, fun _ => 0, fun _ => 0, fun _ => none, 0, [], .idle, none, [], []⟩

/-- what one step does -/
inductive Step (key : CStr) (s : Clients n ι) : ClientAct ι → Clients n ι → Prop where
  | startRead (c : ι) (contents : CStr) (hp : s.prog = .idle) :
      Step key s (.startRead c contents)
        (s.alloc ⟨c, none, contents, some ⟨0, abdClientId⟩⟩ (.spawning .read s.next 0 none))
  | startWrite (c : ι) (value : CStr) (timestamp : Int) (hp : s.prog = .idle) :
      Step key s (.startWrite c value timestamp)
        (s.alloc ⟨c, none, fmtRequest value ⟨0, abdClientId⟩, none⟩
          (.spawning .write s.next 0 (some value)))
  | create (kind : Kind) (a : ℕ) (i : Fin n) (op : Option CStr) (arg : AbdArg n ι)
      (hp : s.prog = .spawning kind a i op) (harg : s.args a = some arg) :
      Step key s .spawn (s.create kind a arg i op)
  | created (kind : Kind) (a i : ℕ) (op : Option CStr) (hp : s.prog = .spawning kind a i op) :
      Step key s .spawn { s with prog := .waiting kind a op }
  | send (j : ℕ) (kind : Kind) (a : ℕ) (i : Fin n) (arg : AbdArg n ι) (cmd : CStr)
      (hq : ⟨kind, a, .created⟩ ∈ s.queries) (hcmd : queryCmd key arg kind = some cmd) :
      Step key s (.send j) (s.setQuery j ⟨kind, a, .sent i cmd⟩)
  | deliver (j : ℕ) (txid : Int) (searchTag : AbdTag) (kind : Kind) (a : ℕ) (i : Fin n)
      (cmd response : CStr) (store : Store) (hq : ⟨kind, a, .sent i cmd⟩ ∈ s.queries)
      (hx : serverHandler (s.replica i) txid searchTag cmd = some (response, store)) :
      Step key s (.deliver j txid searchTag) { s.setQuery j ⟨kind, a, .replied response⟩ with
        replica := Function.update s.replica i store }
  | receiveRead (j a : ℕ) (buffer v : CStr) (arg : AbdArg n ι) (tag tag' : AbdTag)
      (hq : ⟨.read, a, .replied buffer⟩ ∈ s.queries) (harg : s.args a = some arg)
      (hv : parseReply buffer = some (v, tag)) :
      Step key s (.receive j)
        { (s.setArg a { arg with value := v, tag := some tag' }).setQuery j ⟨.read, a, .done⟩ with
          rqSem := Function.update s.rqSem arg.client (s.rqSem arg.client + 1) }
  | receiveWrite (j a : ℕ) (arg : AbdArg n ι) (buffer : CStr)
      (hq : ⟨.write, a, .replied buffer⟩ ∈ s.queries) :
      Step key s (.receive j) { s.setQuery j ⟨.write, a, .done⟩ with
        wqSem := Function.update s.wqSem arg.client (s.wqSem arg.client + 1) }
  | proceedRead (a : ℕ) (op : Option CStr) (arg : AbdArg n ι) (hp : s.prog = .waiting .read a op)
      (harg : s.args a = some arg) (hsem : 0 < s.rqSem arg.client) :
      Step key s .proceed { s with
        prog := .returned a, obtained := (s.lastWrite, arg.value) :: s.obtained }
  | proceedWrite (a : ℕ) (op lastWrite : Option CStr) (hp : s.prog = .waiting .write a op) :
      Step key s .proceed { s with prog := .idle, lastWrite := lastWrite }
  | writeBack (a : ℕ) (arg : AbdArg n ι) (value : CStr) (hp : s.prog = .returned a)
      (harg : s.args a = some arg) :
      Step key s .writeBack { s.alloc ⟨arg.client, none, value, none⟩
          (.spawning .write s.next 0 none) with
        writtenBack := (s.lastWrite, arg.value) :: s.writtenBack }

/-- **The steps are those of `Step`.** -/
theorem step_cases {key : CStr} {s s' : Clients n ι} {a : ClientAct ι}
    (hs : s.step key a = some s') : Step key s a s' := by
  cases a with
  | startRead c contents =>
    cases hp : s.prog with
    | idle => simp only [step, hp] at hs; cases hs; exact .startRead c contents hp
    | spawning | waiting | returned => simp only [step, hp] at hs; cases hs
  | startWrite c value timestamp =>
    cases hp : s.prog with
    | idle => simp only [step, hp] at hs; cases hs; exact .startWrite c value timestamp hp
    | spawning | waiting | returned => simp only [step, hp] at hs; cases hs
  | spawn =>
    cases hp : s.prog with
    | spawning kind a i op =>
      simp only [step, hp] at hs
      split_ifs at hs with hi
      · obtain ⟨arg, harg, rfl⟩ := Option.map_eq_some_iff.mp hs
        exact .create kind a ⟨i, hi⟩ op arg hp harg
      · cases hs
        exact .created kind a i op hp
    | idle | waiting | returned => simp only [step, hp] at hs; cases hs
  | send j =>
    simp only [step] at hs
    split at hs
    · rename_i kind a hj
      obtain ⟨arg, -, hs⟩ := Option.bind_eq_some_iff.mp hs
      obtain ⟨i, -, hs⟩ := Option.bind_eq_some_iff.mp hs
      obtain ⟨cmd, hcmd, hs⟩ := Option.bind_eq_some_iff.mp hs
      cases hs
      exact .send j kind a i arg cmd (List.mem_of_getElem? hj) hcmd
    · cases hs
  | deliver j txid searchTag =>
    simp only [step] at hs
    split at hs
    · rename_i kind a i cmd hj
      obtain ⟨x, hx, hs⟩ := Option.bind_eq_some_iff.mp hs
      cases hs
      exact .deliver j txid searchTag kind a i cmd x.1 x.2 (List.mem_of_getElem? hj) hx
    · cases hs
  | receive j =>
    simp only [step] at hs
    split at hs
    · rename_i a buffer hj
      obtain ⟨arg, harg, hs⟩ := Option.bind_eq_some_iff.mp hs
      obtain ⟨y, hy, hs⟩ := Option.bind_eq_some_iff.mp hs
      obtain ⟨old, -, hs⟩ := Option.bind_eq_some_iff.mp hs
      cases hs
      exact .receiveRead j a buffer y.1 arg y.2 _ (List.mem_of_getElem? hj) harg hy
    · rename_i a buffer hj
      obtain ⟨arg, -, hs⟩ := Option.bind_eq_some_iff.mp hs
      cases hs
      exact .receiveWrite j a arg buffer (List.mem_of_getElem? hj)
    · cases hs
  | proceed =>
    simp only [step] at hs
    split at hs
    · rename_i a op hp
      obtain ⟨arg, harg, hs⟩ := Option.bind_eq_some_iff.mp hs
      split_ifs at hs with hsem
      cases hs
      exact .proceedRead a op arg hp harg (by omega)
    · rename_i a op hp
      obtain ⟨arg, harg, hs⟩ := Option.bind_eq_some_iff.mp hs
      split_ifs at hs with hsem
      cases hs
      exact .proceedWrite a op _ hp
    · cases hs
  | writeBack =>
    cases hp : s.prog with
    | returned a =>
      simp only [step, hp] at hs
      obtain ⟨arg, harg, hs⟩ := Option.bind_eq_some_iff.mp hs
      obtain ⟨tag, -, hs⟩ := Option.bind_eq_some_iff.mp hs
      cases hs
      exact .writeBack a arg _ hp harg
    | idle | spawning | waiting => simp only [step, hp] at hs; cases hs

end Clients

/-! ## the condition -/

/-- the value that a replica stores -/
def readValue (s : Store) (key : CStr) : Option CStr :=
  (readString s key).bind fun buffer => (strtokR buffer).1

/-- A read after a write is the first read of its client, and every replica stores the value. -/
def ReadOk (key : CStr) {n : ℕ} {ι : Type} (s : Clients n ι) : ClientAct ι → Prop
  | .startRead c _ => ∀ v, s.lastWrite = some v →
      s.rqSem c = 0 ∧ ∀ i, readValue (s.replica i) key = some v
  | _ => True

instance (key : CStr) {n : ℕ} {ι : Type} (s : Clients n ι) : (a : ClientAct ι) →
    Decidable (ReadOk key s a)
  | .startRead _ _ => inferInstanceAs (Decidable (∀ v, s.lastWrite = some v → _))
  | .startWrite _ _ _ => inferInstanceAs (Decidable True)
  | .spawn => inferInstanceAs (Decidable True)
  | .send _ => inferInstanceAs (Decidable True)
  | .deliver _ _ _ => inferInstanceAs (Decidable True)
  | .receive _ => inferInstanceAs (Decidable True)
  | .proceed => inferInstanceAs (Decidable True)
  | .writeBack => inferInstanceAs (Decidable True)

/-! ## the threads -/

section threads
variable {n : ℕ} {ι : Type} {key : CStr} {vals : Fin n → CStr}

/-- a command asks for the key, and an answer to a GET begins with the value of a replica -/
def QueryOk (key : CStr) (vals : Fin n → CStr) : Kind → QueryPhase n → Prop
  | .read, .sent _ cmd => ∃ r, cmd = "GET".toList ++ ' ' :: (key ++ ' ' :: r)
  | .write, .sent _ cmd => ∃ r, cmd = "PUT".toList ++ ' ' :: (key ++ ' ' :: r)
  | .read, .replied buffer => ∃ i, Begins buffer (vals i)
  | _, _ => True

/-- every replica keeps its value -/
structure Wire (key : CStr) (vals : Fin n → CStr) (s : Clients n ι) : Prop where
  keeps : ∀ i, Keeps (s.replica i) key (vals i)
  queries : ∀ q ∈ s.queries, QueryOk key vals q.kind q.phase

theorem queryCmd_ok {arg : AbdArg n ι} {kind : Kind} {cmd : CStr} {i : Fin n}
    (h : queryCmd key arg kind = some cmd) : QueryOk key vals kind (.sent i cmd) := by
  cases kind with
  | read =>
    obtain ⟨tag, -, rfl⟩ := Option.map_eq_some_iff.mp h
    exact ⟨_, rfl⟩
  | write =>
    cases h
    exact ⟨_, rfl⟩

theorem forall_set {P : Query n → Prop} {qs : List (Query n)} {j : ℕ} {q : Query n}
    (h : ∀ q ∈ qs, P q) (hq : P q) : ∀ q' ∈ qs.set j q, P q' := by
  intro q' hq'
  rcases List.mem_or_eq_of_mem_set hq' with h' | rfl
  · exact h q' h'
  · exact hq

theorem parseReply_value {buffer v w : CStr} {tag : AbdTag} (hv : IsValue v)
    (hb : Begins buffer v) (h : parseReply buffer = some (w, tag)) : w = v := by
  obtain ⟨u, hu, h⟩ := Option.bind_eq_some_iff.mp h
  obtain ⟨_, -, h⟩ := Option.bind_eq_some_iff.mp h
  obtain ⟨_, -, h⟩ := Option.bind_eq_some_iff.mp h
  rw [hb.token hv] at hu
  cases hu
  cases h
  rfl

/-- a replica answers -/
theorem Wire.deliver {s : Clients n ι} (h : Wire key vals s) (hkey : Word key) {kind : Kind}
    {i : Fin n} {cmd : CStr} (hq : QueryOk key vals kind (.sent i cmd)) {txid : Int}
    {searchTag : AbdTag} {x : CStr × Store}
    (hx : serverHandler (s.replica i) txid searchTag cmd = some x) :
    Keeps x.2 key (vals i) ∧ QueryOk key vals kind (.replied x.1) := by
  cases kind with
  | read =>
    obtain ⟨r, rfl⟩ := hq
    obtain ⟨hb, hk⟩ := (h.keeps i).handle_get hkey hx
    exact ⟨hk, i, hb⟩
  | write =>
    obtain ⟨r, rfl⟩ := hq
    exact ⟨(h.keeps i).handle_put hkey hx, trivial⟩

/-- what the threads share with another state -/
theorem Wire.of_eq {s s' : Clients n ι} (h : Wire key vals s) (hr : s'.replica = s.replica)
    (hq : s'.queries = s.queries) : Wire key vals s' :=
  ⟨by rw [hr]; exact h.keeps, by rw [hq]; exact h.queries⟩

theorem Wire.step [DecidableEq ι] {s s' : Clients n ι} (h : Wire key vals s) (hkey : Word key)
    {a : ClientAct ι} (hs : Clients.Step key s a s') : Wire key vals s' := by
  cases hs with
  | startRead | startWrite | created | proceedRead | proceedWrite | writeBack =>
    exact h.of_eq rfl rfl
  | create kind a i op arg hp harg =>
    refine ⟨h.keeps, fun q hq => ?_⟩
    rcases List.mem_append.mp hq with hq | hq
    · exact h.queries q hq
    · rw [List.mem_singleton.mp hq]
      cases kind <;> trivial
  | send j kind a i arg cmd hq hcmd => exact ⟨h.keeps, forall_set h.queries (queryCmd_ok hcmd)⟩
  | deliver j txid searchTag kind a i cmd response store hq hx =>
    obtain ⟨hkeep, hreply⟩ := h.deliver hkey (h.queries _ hq) hx
    refine ⟨fun i' => ?_, forall_set h.queries hreply⟩
    show Keeps (Function.update s.replica i store i') key (vals i')
    by_cases hi : i' = i
    · subst hi
      rw [Function.update_self]
      exact hkeep
    · rw [Function.update_of_ne hi]
      exact h.keeps i'
  | receiveRead => exact ⟨h.keeps, forall_set h.queries trivial⟩
  | receiveWrite => exact ⟨h.keeps, forall_set h.queries trivial⟩

/-! ## a read that is under way -/

/-- the `abd_arg` of the read under way -/
def Prog.reading : Prog → Option ℕ
  | .spawning .read a _ _ => some a
  | .waiting .read a _ => some a
  | .returned a => some a
  | _ => none

/-- the `abd_arg` that threads are created for -/
def Prog.creating : Prog → Option ℕ
  | .spawning _ a _ _ => some a
  | _ => none

/-- A client with a read behind it has a semaphore above zero, and a read after a write has
answers of its own alone, all with the value of that write. -/
structure Reading (vals : Fin n → CStr) (s : Clients n ι) : Prop where
  args : ∀ q ∈ s.queries, q.arg < s.next
  creating : ∀ a, s.prog.creating = some a → a < s.next
  past : ∀ q ∈ s.queries, q.kind = .read → s.prog.reading ≠ some q.arg →
    ∀ arg, s.args q.arg = some arg → 0 < s.rqSem arg.client
  returned : ∀ a arg, s.prog = .returned a → s.args a = some arg → 0 < s.rqSem arg.client
  current : ∀ a arg v, s.prog.reading = some a → s.args a = some arg → s.lastWrite = some v →
    (∀ i, vals i = v) ∧ (0 < s.rqSem arg.client → arg.value = v) ∧
      ∀ q ∈ s.queries, q.kind = .read → q.arg ≠ a →
        ∀ arg', s.args q.arg = some arg' → arg'.client ≠ arg.client
  values : ∀ p ∈ s.obtained ++ s.writtenBack, ∀ v, p.1 = some v → p.2 = v

theorem readValue_eq {s : Store} {v : CStr} (h : Keeps s key v) : readValue s key = some v := by
  obtain ⟨buffer, hb, hbegins⟩ := h.readString_begins
  rw [readValue, hb]
  exact hbegins.token h.value

namespace Reading
variable {s : Clients n ι}

theorem alloc_ne (h : Reading vals s) {q : Query n} (hq : q ∈ s.queries) (arg : AbdArg n ι)
    (prog : Prog) : (s.alloc arg prog).args q.arg = s.args q.arg :=
  Function.update_of_ne (Nat.ne_of_lt (h.args q hq)) _ _

theorem alloc_self (s : Clients n ι) (arg : AbdArg n ι) (prog : Prog) :
    (s.alloc arg prog).args s.next = some arg :=
  Function.update_self _ _ _

/-- an operation goes on with an `abd_arg` for a write -/
theorem allocWrite (h : Reading vals s) (arg : AbdArg n ι) (op : Option CStr)
    (hpast : ∀ a arg, s.prog.reading = some a → s.args a = some arg → 0 < s.rqSem arg.client) :
    Reading vals (s.alloc arg (.spawning .write s.next 0 op)) := by
  refine ⟨fun q hq => Nat.lt_succ_of_lt (h.args q hq), ?_, ?_, ?_, ?_, h.values⟩
  · intro a ha
    cases ha
    exact Nat.lt_succ_self _
  · intro q hq hk _ arg' harg'
    rw [h.alloc_ne hq] at harg'
    by_cases hr : s.prog.reading = some q.arg
    · exact hpast _ _ hr harg'
    · exact h.past q hq hk hr _ harg'
  · intro a arg' hp
    cases hp
  · intro a arg' v hp
    cases hp

/-- a read starts -/
theorem allocRead (h : Reading vals s) (hidle : s.prog.reading = none) {arg : AbdArg n ι}
    (hok : ∀ v, s.lastWrite = some v → s.rqSem arg.client = 0 ∧ ∀ i, vals i = v) :
    Reading vals (s.alloc arg (.spawning .read s.next 0 none)) := by
  have hpast : ∀ q ∈ s.queries, q.kind = .read → ∀ arg', s.args q.arg = some arg' →
      0 < s.rqSem arg'.client :=
    fun q hq hk => h.past q hq hk (by rw [hidle]; simp)
  refine ⟨fun q hq => Nat.lt_succ_of_lt (h.args q hq), ?_, ?_, ?_, ?_, h.values⟩
  · intro a ha
    cases ha
    exact Nat.lt_succ_self _
  · intro q hq hk _ arg' harg'
    rw [h.alloc_ne hq] at harg'
    exact hpast q hq hk arg' harg'
  · intro a arg' hp
    cases hp
  · intro a arg' v hp harg' hv
    cases hp
    rw [alloc_self] at harg'
    obtain rfl : arg = arg' := Option.some.inj harg'
    obtain ⟨hzero, hall⟩ := hok v hv
    have hno : ¬ 0 < s.rqSem arg.client := by
      rw [hzero]
      exact Nat.lt_irrefl 0
    refine ⟨hall, fun hpos => absurd hpos hno, ?_⟩
    intro q hq hk _ arg'' harg'' heq
    rw [h.alloc_ne hq] at harg''
    rw [← heq] at hno
    exact hno (hpast q hq hk arg'' harg'')

/-- a thread goes on -/
theorem setQuery (h : Reading vals s) {q : Query n} (hq : q ∈ s.queries) (j : ℕ) (q' : Query n)
    (hk : q'.kind = q.kind) (ha : q'.arg = q.arg) : Reading vals (s.setQuery j q') := by
  refine ⟨forall_set h.args (by rw [ha]; exact h.args q hq), h.creating, ?_, h.returned, ?_,
    h.values⟩
  · refine forall_set h.past ?_
    rw [hk, ha]
    exact h.past q hq
  · intro a arg v hr harg hv
    obtain ⟨h1, h2, h3⟩ := h.current a arg v hr harg hv
    refine ⟨h1, h2, forall_set h3 ?_⟩
    rw [hk, ha]
    exact h3 q hq

/-- an `abd_arg` is changed, and its client's semaphore may go up -/
theorem setArg (h : Reading vals s) {a : ℕ} {arg arg' : AbdArg n ι} {rqSem : ι → ℕ}
    (harg : s.args a = some arg) (hc : arg'.client = arg.client) (hsem : ∀ c, s.rqSem c ≤ rqSem c)
    (hvalue : ∀ a' arg'' v, s.prog.reading = some a' → s.args a' = some arg'' →
      s.lastWrite = some v → 0 < rqSem arg''.client →
        (if a' = a then arg'.value = v else 0 < s.rqSem arg''.client)) :
    Reading vals { s.setArg a arg' with rqSem := rqSem } := by
  have hold : ∀ b x, (s.setArg a arg').args b = some x →
      ∃ y, s.args b = some y ∧ x.client = y.client ∧ (b ≠ a → x = y) ∧ (b = a → x = arg') := by
    intro b x hx
    by_cases hb : b = a
    · subst hb
      rw [show (s.setArg b arg').args b = some arg' from Function.update_self _ _ _] at hx
      cases hx
      exact ⟨arg, harg, hc, fun hne => absurd rfl hne, fun _ => rfl⟩
    · rw [show (s.setArg a arg').args b = s.args b from Function.update_of_ne hb _ _] at hx
      exact ⟨x, hx, rfl, fun _ => rfl, fun heq => absurd heq hb⟩
  refine ⟨h.args, h.creating, ?_, ?_, ?_, h.values⟩
  · intro q hq hk hr x hx
    obtain ⟨y, hy, hcl, -⟩ := hold _ _ hx
    rw [hcl]
    exact (h.past q hq hk hr y hy).trans_le (hsem _)
  · intro b x hp hx
    obtain ⟨y, hy, hcl, -⟩ := hold _ _ hx
    rw [hcl]
    exact (h.returned b y hp hy).trans_le (hsem _)
  · intro b x v hr hx hv
    obtain ⟨y, hy, hcl, hne, heq⟩ := hold _ _ hx
    obtain ⟨h1, h2, h3⟩ := h.current b y v hr hy hv
    refine ⟨h1, fun hpos => ?_, ?_⟩
    · have hval := hvalue b y v hr hy hv (by rwa [← hcl])
      by_cases hb : b = a
      · rw [if_pos hb] at hval
        rw [heq hb]
        exact hval
      · rw [if_neg hb] at hval
        rw [hne hb]
        exact h2 hval
    · intro q hq hk hqb z hz
      obtain ⟨w, hw, hcl', -⟩ := hold _ _ hz
      rw [hcl, hcl']
      exact h3 q hq hk hqb w hw

/-- a thread is created -/
theorem create (h : Reading vals s) {kind : Kind} {a : ℕ} {i : Fin n} {op : Option CStr}
    {arg : AbdArg n ι} (hp : s.prog = .spawning kind a i op) (harg : s.args a = some arg) :
    Reading vals (s.create kind a arg i op) := by
  have hvalue : ∀ a' arg'' v, s.prog.reading = some a' → s.args a' = some arg'' →
      s.lastWrite = some v → 0 < s.rqSem arg''.client →
        (if a' = a then arg.value = v else 0 < s.rqSem arg''.client) := by
    intro a' arg'' v hr harg'' hv hpos
    split_ifs with heq
    · subst heq
      obtain rfl : arg = arg'' := Option.some.inj (harg.symm.trans harg'')
      exact (h.current a' arg v hr harg'' hv).2.1 hpos
    · exact hpos
  have h1 : Reading vals { s.setArg a { arg with nodeId := some i } with rqSem := s.rqSem } :=
    h.setArg harg rfl (fun _ => le_rfl) hvalue
  have hreading : s.prog.reading = (Prog.spawning kind a (i + 1) op).reading := by
    rw [hp]
    cases kind <;> rfl
  have hnew : ∀ b, s.prog.reading = some b → kind = .read ∧ a = b := by
    intro b hb
    rw [hp] at hb
    cases kind with
    | read => exact ⟨rfl, Option.some.inj hb⟩
    | write => cases hb
  refine ⟨?_, ?_, ?_, ?_, ?_, h.values⟩
  · intro q hq
    rcases List.mem_append.mp hq with hq | hq
    · exact h.args q hq
    · rw [List.mem_singleton.mp hq]
      exact h.creating a (by rw [hp]; rfl)
  · intro b hb
    cases hb
    exact h.creating a (by rw [hp]; rfl)
  · intro q hq hk hr x hx
    rcases List.mem_append.mp hq with hq | hq
    · exact h1.past q hq hk (fun he => hr (hreading.symm.trans he)) x hx
    · rw [List.mem_singleton.mp hq] at hk hr
      obtain rfl : kind = .read := hk
      exact absurd rfl hr
  · intro b x hb
    cases hb
  · intro b x v hr hx hv
    rw [show (s.create kind a arg i op).prog.reading = s.prog.reading from hreading.symm] at hr
    obtain ⟨h2, h3, h4⟩ := h1.current b x v hr hx hv
    refine ⟨h2, h3, fun q hq hk hqb y hy => ?_⟩
    rcases List.mem_append.mp hq with hq | hq
    · exact h4 q hq hk hqb y hy
    · rw [List.mem_singleton.mp hq] at hqb
      exact absurd (hnew b hr).2 hqb

/-- **One step.** -/
theorem step [DecidableEq ι] {s' : Clients n ι} (h : Reading vals s) (hw : Wire key vals s)
    {a : ClientAct ι} (hok : ReadOk key s a) (hs : Clients.Step key s a s') :
    Reading vals s' := by
  cases hs with
  | startRead c contents hp =>
    refine h.allocRead (by rw [hp]; rfl) fun v hv => ?_
    obtain ⟨hzero, hall⟩ := hok v hv
    exact ⟨hzero, fun i => Option.some.inj ((readValue_eq (hw.keeps i)).symm.trans (hall i))⟩
  | startWrite c value timestamp hp =>
    exact h.allocWrite _ _ fun a arg hr => by rw [hp] at hr; cases hr
  | create kind a i op arg hp harg => exact h.create hp harg
  | created kind a i op hp =>
    have hreading : s.prog.reading = (Prog.waiting kind a op).reading := by
      rw [hp]
      cases kind <;> rfl
    refine ⟨h.args, (fun b hb => by cases hb), ?_, (fun b x hb => by cases hb), ?_, h.values⟩
    · intro q hq hk hr
      exact h.past q hq hk (by rw [hreading]; exact hr)
    · intro b x v hr
      exact h.current b x v (hreading.trans hr)
  | send j kind a i arg cmd hq hcmd => exact h.setQuery hq j _ rfl rfl
  | deliver j txid searchTag kind a i cmd response store hq hx =>
    have h1 := h.setQuery hq j ⟨kind, a, .replied response⟩ rfl rfl
    exact ⟨h1.args, h1.creating, h1.past, h1.returned, h1.current, h1.values⟩
  | receiveRead j a buffer v arg tag tag' hq harg hv =>
    obtain ⟨i, hb⟩ := hw.queries _ hq
    obtain rfl : v = vals i := parseReply_value (hw.keeps i).value hb hv
    have hup : ∀ c, s.rqSem c ≤ Function.update s.rqSem arg.client (s.rqSem arg.client + 1) c := by
      intro c
      by_cases hc : c = arg.client
      · subst hc
        rw [Function.update_self]
        exact Nat.le_succ _
      · rw [Function.update_of_ne hc]
    have h1 : Reading vals { s.setArg a { arg with value := vals i, tag := some tag' } with
        rqSem := Function.update s.rqSem arg.client (s.rqSem arg.client + 1) } := by
      refine h.setArg harg rfl hup ?_
      intro b x v hr hx hv' hpos
      obtain ⟨h2, -, h4⟩ := h.current b x v hr hx hv'
      split_ifs with hab
      · exact h2 i
      · -- an answer to an older read of another client
        have hne := h4 _ hq rfl (Ne.symm hab) arg harg
        rwa [Function.update_of_ne (Ne.symm hne)] at hpos
    exact h1.setQuery hq j ⟨.read, a, .done⟩ rfl rfl
  | receiveWrite j a arg buffer hq =>
    have h1 := h.setQuery hq j ⟨.write, a, .done⟩ rfl rfl
    exact ⟨h1.args, h1.creating, h1.past, h1.returned, h1.current, h1.values⟩
  | proceedRead a op arg hp harg hsem =>
    have hreading : s.prog.reading = some a := by rw [hp]; rfl
    refine ⟨h.args, (fun b hb => by cases hb), ?_, ?_, ?_, ?_⟩
    · intro q hq hk hr
      exact h.past q hq hk (by rw [hreading]; exact hr)
    · intro b x hb hx
      cases hb
      obtain rfl : arg = x := Option.some.inj (harg.symm.trans hx)
      exact hsem
    · intro b x v hr
      exact h.current b x v (hreading.trans hr)
    · intro p hpm v hv
      rcases List.mem_cons.mp hpm with rfl | hpm
      · exact (h.current a arg v hreading harg hv).2.1 hsem
      · exact h.values p hpm v hv
  | proceedWrite a op lastWrite hp =>
    have hreading : s.prog.reading = none := by rw [hp]; rfl
    refine ⟨h.args, (fun b hb => by cases hb), ?_, (fun b x hb => by cases hb),
      (fun b x v hb => by cases hb), h.values⟩
    intro q hq hk _
    exact h.past q hq hk (by rw [hreading]; simp)
  | writeBack a arg value hp harg =>
    have hreading : s.prog.reading = some a := by rw [hp]; rfl
    have hpos := h.returned a arg hp harg
    have h1 := h.allocWrite ⟨arg.client, none, value, none⟩ none ?_
    · refine ⟨h1.args, h1.creating, h1.past, h1.returned, h1.current, ?_⟩
      intro p hpm v hv
      rcases List.mem_append.mp hpm with hpm | hpm
      · exact h.values p (List.mem_append_left _ hpm) v hv
      · rcases List.mem_cons.mp hpm with rfl | hpm
        · exact (h.current a arg v hreading harg hv).2.1 hpos
        · exact h.values p (List.mem_append_right _ hpm) v hv
    · intro b x hb hx
      obtain rfl : a = b := Option.some.inj (hreading.symm.trans hb)
      obtain rfl : arg = x := Option.some.inj (harg.symm.trans hx)
      exact hpos

end Reading

end threads

/-- **Reads obtain the value of the last write.**  In every run of operations, one after the
other, whose reads are `ReadOk`. -/
theorem abd_read_last {n : ℕ} {ι : Type} [DecidableEq ι] (key : CStr) (hkey : Word key)
    (replica : Fin n → Store) (vals : Fin n → CStr) (h : ∀ i, Keeps (replica i) key (vals i))
    (acts : List (ClientAct ι))
    (hg : Guarded (Clients.step key) (ReadOk key) (Clients.init replica) acts) (s : Clients n ι)
    (hr : run (Clients.step key) (Clients.init replica) acts = some s) :
    ∀ p ∈ s.obtained ++ s.writtenBack, ∀ v, p.1 = some v → p.2 = v := by
  have h0 : Wire key vals (Clients.init replica : Clients n ι) ∧
      Reading vals (Clients.init replica : Clients n ι) :=
    ⟨⟨h, by simp [Clients.init]⟩, ⟨by simp [Clients.init], (fun a ha => by cases ha),
      by simp [Clients.init], (fun a x ha => by cases ha), (fun a x v ha => by cases ha),
      by simp [Clients.init]⟩⟩
  have hstep : ∀ (s : Clients n ι) a t, (Wire key vals s ∧ Reading vals s) → ReadOk key s a →
      Clients.step key s a = some t → Wire key vals t ∧ Reading vals t := by
    intro s a t hs hok hst
    have hcase := Clients.step_cases hst
    exact ⟨hs.1.step hkey hcase, hs.2.step hs.1 hok hcase⟩
  exact (inv_of_guarded hstep h0 hg hr).2.values

/-- a replica that stores `k -> old`, with the tag (0, 1) -/
def oldReplica : Store :=
  { Store.empty with T := .node ['k'] ⟨"old 0 1".toList, false⟩ .null .null 1 0 }

theorem keeps_oldReplica : Keeps oldReplica ['k'] "old".toList where
  value := ⟨by decide, (scanWord_mem (s := "old 0 1".toList) rfl).2, by decide⟩
  bst := List.pairwise_singleton _ _
  cache := Cache.Wf.empty
  node := by
    intro e he
    cases he
    exact ⟨"0 1".toList, rfl⟩
  cached := by
    intro d hd
    cases hd
  readable := Or.inr (by decide)

/-- one write, by a client with one node; `j` is the number of its thread -/
def writeActs (value : CStr) (j : ℕ) : List (ClientAct Unit) :=
  [.startWrite () value 5, .spawn, .spawn, .send j, .deliver j 7 ⟨0, 0⟩, .receive j, .proceed]

/-- one read; `j` is the number of its first thread -/
def readActs (j : ℕ) : List (ClientAct Unit) :=
  [.startRead () [], .spawn, .spawn, .send j, .deliver j 7 ⟨0, 0⟩, .receive j, .proceed,
    .writeBack, .spawn, .spawn, .send (j + 1), .deliver (j + 1) 7 ⟨0, 0⟩, .receive (j + 1),
    .proceed]

theorem abd_read_last_same : ∃ s, run (Clients.step ['k'])
    (Clients.init fun _ : Fin 1 => oldReplica) (writeActs "old".toList 0 ++ readActs 1) = some s ∧
      ∀ p ∈ s.obtained ++ s.writtenBack, ∀ v, p.1 = some v → p.2 = v :=
  ⟨_, rfl, abd_read_last ['k'] (by decide) (fun _ => oldReplica) (fun _ => "old".toList)
    (fun _ => keeps_oldReplica) (writeActs "old".toList 0 ++ readActs 1) (by decide) _ rfl⟩

/-- After `abd_write` of another value the read obtains the old one, and writes it back. -/
theorem read_obtains_old : ∃ s, run (Clients.step ['k'])
    (Clients.init fun _ : Fin 1 => oldReplica) (writeActs "new".toList 0 ++ readActs 1) = some s ∧
      s.obtained = [(some "new".toList, "old".toList)] ∧
      s.writtenBack = [(some "new".toList, "old".toList)] :=
  ⟨_, rfl, rfl, rfl⟩

end LsmKv
