import LsmKv.Lib.Run
import LsmKv.Journal

/-!
# Durability over whole lives of a node

A node serves clients, applies the writes of its peers, flushes, crashes and recovers.

* `Node.step`           one event of its life;
* `loggedWrites`        the writes recorded in `tx_log` with `valid = 1`;
* `Table`, `tableStep`     the abstract table, and what one write does to it;
* `Req.Lends`           a PUT that leaves in `_T` a pointer into its own line;
* `Durable`             every entry of `_T` is recorded, and the table of `_T` is rebuilt from some
                        of the recorded writes, in their order, all of its values readable;
* `EventOk`             no client PUT that lends its line, no peer write that changes `_T`, no
                        restart that replays a write;
* `durable`             after a life of such events the node is durable.
-/

namespace LsmKv

open KeySorted Run

/-- `write_type_t` -/
inductive WriteType where
  | get
  | put
  | insert
  | delete
  deriving DecidableEq, Repr

/-- the case SERVER_WRITE of `handle_peer_message`, for a sender at the head of the queue -/
def handleServerWrite (s : Store) (writeType : WriteType) (key value : CStr) : Option Store :=
  match writeType with
  | .insert => (server1InsertRequest s key value).map fun r => r.2.2
  | .put => (server1PutRequest s key value).map fun r => r.2.2
  | .delete => (server1DeleteRequest s key).map fun r => r.2.2
  | .get => some s

/-- a node; a node that is down has nothing but its files -/
structure Node where
  store : Store
  up : Bool

inductive Event where
  | client (txid : Int) (line : CStr)
  | serverWrite (writeType : WriteType) (key value : CStr)
  | flush
  | crash
  | restart
  deriving DecidableEq, Repr

namespace Node

def empty : Node := ⟨Store.empty, true⟩

def step (n : Node) (e : Event) : Option Node :=
  match e, n.up with
  | .client txid line, true =>
    (serverHandlerBlocking n.store txid line).map fun r => ⟨r.2, true⟩
  | .serverWrite writeType key value, true =>
    (handleServerWrite n.store writeType key value).map fun s => ⟨s, true⟩
  | .flush, true => (myTimerHandler n.store).map fun s => ⟨s, true⟩
  | .crash, true => some ⟨LsmKv.crash n.store, false⟩
  | .restart, false => (recover n.store).map fun r => ⟨runServer1 r.2, true⟩
  | _, _ => none

end Node

/-! ## what is recorded -/

def loggedWrites (txLog : Option (List Transaction)) : List Req :=
  (txLog.getD []).filterMap fun tx => if tx.valid = 1 then (command tx.data).write else none

/-- keys to values and flags; a value that cannot be read is `none` -/
abbrev Table := CStr → Option (Option CStr × Int)

/-- what a write that takes effect does to the table -/
def tableStep (m : Table) : Req → Table
  | .put key value => Function.update m key (some (some value, 0))
  | .insert key value => Function.update m key (some (some value, 0))
  | .delete key =>
    Function.update m key (some (((m key).map Prod.fst).getD (some "invalid_delete".toList), 1))
  | .get _ => m
  | .timer => m

/-- the line of a request is freed when it is served -/
def tableOf (T : C0Node) : Table := fun k => (T.find k).map fun e => (e.value.read, e.flag)

/-- the entry is what the write leaves -/
def Reflects (key : CStr) (value : Option CStr) (flag : Int) : Req → Prop
  | .put k v => k = key ∧ value = some v ∧ flag = 0
  | .insert k v => k = key ∧ value = some v ∧ flag = 0
  | .delete k => k = key ∧ value ≠ none ∧ flag = 1
  | .get _ => False
  | .timer => False

/-- The tree can be rebuilt from the log. -/
structure Durable (s : Store) : Prop where
  recorded : ∀ e ∈ s.T.entries, ∃ q ∈ loggedWrites s.txLog, Reflects e.key e.value.read e.flag q
  rebuilt : ∃ ws : List Req, ws.Sublist (loggedWrites s.txLog) ∧
    tableOf s.T = ws.foldl tableStep fun _ => none

/-! ## the conditions -/

/-- a PUT of the key at the root: `Update` keeps its value pointer -/
def Req.Lends (s : Store) : Req → Prop
  | .put key _ => s.T.get key ≠ none
  | _ => False

/-- the peer write leaves the entries of `_T` alone, or fills the table and is flushed -/
def PeerOk (s : Store) (writeType : WriteType) (key value : CStr) : Prop :=
  match writeType with
  | .get => True
  | .put => s.T.get key = none ∧
      (s.T.find key ≠ none ∨ (s.T.insert key value 0).c0Size = maxC0Size)
  | .insert => s.cache.Has key ∨ s.T.find key ≠ none ∨
      (s.T.insert key value 0).c0Size = maxC0Size
  | .delete => s.T.get key = none ∧ s.T.find key ≠ none

/-- no entry of the log that `recover` would apply -/
def NoReplay (s : Store) : Prop :=
  ∀ tx ∈ s.txLog.getD [], tx.valid ≠ 0 → (command tx.data).write = none

def EventOk (n : Node) : Event → Prop
  | .serverWrite writeType key value => PeerOk n.store writeType key value
  | .restart => NoReplay n.store
  | .client _ line => ∀ q ∈ (command line).write, ¬ Req.Lends n.store q
  | .flush => True
  | .crash => True

instance (s : Store) (key value : CStr) : (w : WriteType) → Decidable (PeerOk s w key value)
  | .get => inferInstanceAs (Decidable True)
  | .put => inferInstanceAs (Decidable (_ ∧ _))
  | .insert => inferInstanceAs (Decidable (_ ∨ _))
  | .delete => inferInstanceAs (Decidable (_ ∧ _))

instance (s : Store) : Decidable (NoReplay s) :=
  inferInstanceAs (Decidable (∀ tx ∈ s.txLog.getD [], _ → _))

instance Req.decLends (s : Store) : (q : Req) → Decidable (Req.Lends s q)
  | .put _ _ => inferInstanceAs (Decidable (_ ≠ _))
  | .insert _ _ => inferInstanceAs (Decidable False)
  | .delete _ => inferInstanceAs (Decidable False)
  | .get _ => inferInstanceAs (Decidable False)
  | .timer => inferInstanceAs (Decidable False)

instance (n : Node) : (e : Event) → Decidable (EventOk n e)
  | .serverWrite _ _ _ => inferInstanceAs (Decidable (PeerOk _ _ _ _))
  | .restart => inferInstanceAs (Decidable (NoReplay _))
  | .client _ _ => inferInstanceAs (Decidable (∀ q ∈ (_ : Option Req), ¬ Req.Lends _ q))
  | .flush => inferInstanceAs (Decidable True)
  | .crash => inferInstanceAs (Decidable True)

/-! ## tables -/

theorem tableOf_insert {T : C0Node} (hb : T.Bst) {key value : CStr} {flag : Int}
    (hf : T.find key = none) :
    tableOf (T.insert key value flag) =
      Function.update (tableOf T) key (some (some value, flag)) := by
  funext k
  unfold tableOf
  rw [C0Node.find_insert hb]
  by_cases hk : k = key
  · subst hk
    rw [if_pos rfl, hf, Function.update_self]
    rfl
  · rw [if_neg hk, Function.update_of_ne hk]

/-- an insertion below the root changes nothing -/
theorem tableOf_insert_held {T : C0Node} (hb : T.Bst) {key value : CStr} {flag : Int}
    (hf : T.find key ≠ none) : tableOf (T.insert key value flag) = tableOf T := by
  funext k
  unfold tableOf
  rw [C0Node.find_insert hb]
  split_ifs with hk
  · subst hk
    obtain ⟨e, he⟩ := Option.ne_none_iff_exists'.mp hf
    rw [he]
    rfl
  · rfl

theorem tableOf_update {T : C0Node} (hb : T.Bst) {key : CStr} {e : Entry}
    (hg : T.get key = some e) (p : CPtr) (flag : Int) :
    tableOf (T.update key p flag).2 = Function.update (tableOf T) key (some (p.read, flag)) := by
  funext k
  unfold tableOf
  rw [C0Node.find_update hb hg]
  by_cases hk : k = key
  · subst hk
    rw [if_pos rfl, Function.update_self]
    rfl
  · rw [if_neg hk, Function.update_of_ne hk]

/-- every value of a table can be read -/
def Table.Readable (m : Table) : Prop := ∀ k row, m k = some row → row.1 ≠ none

theorem Table.Readable.update {m : Table} (h : m.Readable) (key : CStr) {value : Option CStr}
    (hv : value ≠ none) (flag : Int) :
    Table.Readable (Function.update m key (some (value, flag))) := by
  intro k row hrow
  by_cases hk : k = key
  · subst hk
    rw [Function.update_self] at hrow
    cases hrow
    exact hv
  · rw [Function.update_of_ne hk] at hrow
    exact h k row hrow

/-- what a DELETE leaves as the value -/
theorem Table.Readable.deleted {m : Table} (h : m.Readable) (key : CStr) :
    ((m key).map Prod.fst).getD (some "invalid_delete".toList) ≠ none := by
  cases hm : m key with
  | none => simp
  | some row => exact h key row hm

theorem tableStep_readable {m : Table} (h : m.Readable) (q : Req) : (tableStep m q).Readable := by
  cases q with
  | put key value => exact h.update key (by simp) 0
  | insert key value => exact h.update key (by simp) 0
  | delete key => exact h.update key (h.deleted key) 1
  | get key => exact h
  | timer => exact h

theorem foldl_readable (ws : List Req) {m : Table} (h : m.Readable) :
    (ws.foldl tableStep m).Readable := by
  induction ws generalizing m with
  | nil => exact h
  | cons q ws ih => exact ih (tableStep_readable h q)

theorem readable_empty : Table.Readable fun _ => none := fun _ _ h => by cases h

/-- what the table says was written -/
theorem reflects_of_foldl (ws : List Req) {key : CStr} {value : Option CStr} {flag : Int}
    (h : (ws.foldl tableStep fun _ => none) key = some (value, flag)) :
    ∃ q ∈ ws, Reflects key value flag q := by
  induction ws using List.reverseRecOn with
  | nil => cases h
  | append_singleton ws q ih =>
    have hold : (ws.foldl tableStep fun _ => none) key = some (value, flag) →
        ∃ q' ∈ ws ++ [q], Reflects key value flag q' := fun h' => by
      obtain ⟨q', hq', hr⟩ := ih h'
      exact ⟨q', List.mem_append_left _ hq', hr⟩
    rw [List.foldl_append, List.foldl_cons, List.foldl_nil] at h
    cases q with
    | put k v =>
      by_cases hk : key = k
      · subst hk
        simp only [tableStep, Function.update_self, Option.some.injEq, Prod.mk.injEq] at h
        exact ⟨.put key v, by simp, rfl, h.1.symm, h.2.symm⟩
      · exact hold (by rwa [tableStep, Function.update_of_ne hk] at h)
    | insert k v =>
      by_cases hk : key = k
      · subst hk
        simp only [tableStep, Function.update_self, Option.some.injEq, Prod.mk.injEq] at h
        exact ⟨.insert key v, by simp, rfl, h.1.symm, h.2.symm⟩
      · exact hold (by rwa [tableStep, Function.update_of_ne hk] at h)
    | delete k =>
      by_cases hk : key = k
      · subst hk
        have hv := (foldl_readable ws readable_empty).deleted key
        simp only [tableStep, Function.update_self, Option.some.injEq, Prod.mk.injEq] at h
        exact ⟨.delete key, by simp, rfl, h.1 ▸ hv, h.2.symm⟩
      · exact hold (by rwa [tableStep, Function.update_of_ne hk] at h)
    | get k => exact hold h
    | timer => exact hold h

/-! ## writes -/

/-- what an insertion does to the table: nothing is left of it, nothing changes, or it is there -/
theorem insertC0_effect {s s' : Store} {key value : CStr} (hb : s.T.Bst)
    (h : insertC0 s key value = some s') : s'.T.Bst ∧ (s'.T = .null ∨ s'.txLog = s.txLog ∧
      ((s.T.find key ≠ none ∧ tableOf s'.T = tableOf s.T) ∨
      (s.T.find key = none ∧ (s.T.insert key value 0).c0Size ≠ maxC0Size ∧
        tableOf s'.T = Function.update (tableOf s.T) key (some (some value, 0))))) := by
  rcases insertC0_cases h with ⟨hsize, rfl⟩ | ⟨-, hd⟩
  · refine ⟨hb.insert _ _ _, Or.inr ⟨rfl, ?_⟩⟩
    by_cases hf : s.T.find key = none
    · exact Or.inr ⟨hf, hsize, tableOf_insert hb hf⟩
    · exact Or.inl ⟨hf, tableOf_insert_held hb hf⟩
  · have hnull := (c0Dump_frame hd).2
    exact ⟨by rw [hnull]; exact C0Node.bst_null, Or.inl hnull⟩

theorem deleteC0_effect {s : Store} (key : CStr) (hb : s.T.Bst) : (deleteC0 s key).T.Bst ∧
    ((s.T.get key = none ∧ s.T.find key ≠ none ∧ tableOf (deleteC0 s key).T = tableOf s.T) ∨
      tableOf (deleteC0 s key).T = tableStep (tableOf s.T) (.delete key)) := by
  unfold deleteC0
  cases hg : s.T.get key with
  | none =>
    refine ⟨hb.insert _ _ _, ?_⟩
    by_cases hf : s.T.find key = none
    · right
      rw [tableOf_insert hb hf, tableStep, tableOf, hf]
      rfl
    · exact Or.inl ⟨rfl, hf, tableOf_insert_held hb hf⟩
  | some e =>
    obtain ⟨-, -, -, heq, -⟩ := C0Node.update_root hg e.value 1
    have hkey := (C0Node.get_mem hg).2
    simp only [hkey, heq]
    refine ⟨hb.update hg _ _, Or.inr ?_⟩
    rw [tableOf_update hb hg, tableStep, tableOf, C0Node.get_find hb hg]
    rfl

/-- **What a request does to the table**: it empties it, leaves it alone or takes effect. -/
theorem serve_effect {s : Store} {q : Req} {x : Reply} (hb : s.T.Bst) (hq : ¬ Req.Lends s q)
    (hx : serve s q = some x) : x.2.2.T.Bst ∧ (x.2.2.T = .null ∨ x.2.2.txLog = s.txLog ∧
      (tableOf x.2.2.T = tableOf s.T ∨ tableOf x.2.2.T = tableStep (tableOf s.T) q)) := by
  cases q with
  | put key value =>
    obtain ⟨s1, cache, h1, -, rfl⟩ := put_eq hx
    have hg : s.T.get key = none := not_not.mp hq
    rw [putC0_insert hg] at h1
    obtain ⟨hb', he⟩ := insertC0_effect hb h1
    exact ⟨hb', he.imp_right fun h => ⟨h.1, h.2.imp And.right fun h => h.2.2⟩⟩
  | insert key value =>
    rcases insert_eq hx with ⟨-, rfl⟩ | ⟨-, -, s1, cache, h1, -, rfl⟩
    · exact ⟨hb, Or.inr ⟨rfl, Or.inl rfl⟩⟩
    · obtain ⟨hb', he⟩ := insertC0_effect hb h1
      exact ⟨hb', he.imp_right fun h => ⟨h.1, h.2.imp And.right fun h => h.2.2⟩⟩
  | delete key =>
    cases hx
    obtain ⟨hb', he⟩ := deleteC0_effect key hb
    exact ⟨hb', Or.inr ⟨(deleteC0_frame s key).2.2, he.imp_left fun h => h.2.2⟩⟩
  | get key =>
    rcases get_eq hx with ⟨v, -, rfl⟩ | ⟨-, v, cache, -, rfl, -⟩
    · exact ⟨hb, Or.inr ⟨rfl, Or.inl rfl⟩⟩
    · exact ⟨hb, Or.inr ⟨rfl, Or.inl rfl⟩⟩
  | timer =>
    obtain ⟨s1, hd, rfl⟩ := Option.map_eq_some_iff.mp hx
    have hnull : s1.T = .null := (c0Dump_frame hd).2
    exact ⟨by rw [hnull]; exact C0Node.bst_null, Or.inl hnull⟩

/-- a peer write that is `PeerOk` leaves an empty table or the one that was there -/
theorem peer_effect {s s' : Store} {w : WriteType} {key value : CStr} (hb : s.T.Bst)
    (hok : PeerOk s w key value) (h : handleServerWrite s w key value = some s') :
    s'.T.Bst ∧ (s'.T = .null ∨ s'.txLog = s.txLog ∧ tableOf s'.T = tableOf s.T) := by
  cases w with
  | get =>
    cases h
    exact ⟨hb, Or.inr ⟨rfl, rfl⟩⟩
  | put =>
    obtain ⟨x, hx, rfl⟩ := Option.map_eq_some_iff.mp h
    obtain ⟨s1, cache, h1, -, rfl⟩ := put_eq hx
    rw [putC0_insert hok.1] at h1
    obtain ⟨hb', he⟩ := insertC0_effect hb h1
    refine ⟨hb', he.imp_right fun hl => ⟨hl.1, ?_⟩⟩
    rcases hl.2 with ⟨-, ht⟩ | ⟨hf, hsize, -⟩
    · exact ht
    · exact (hok.2.elim (fun hf' => hf' hf) fun hs => hsize hs).elim
  | insert =>
    obtain ⟨x, hx, rfl⟩ := Option.map_eq_some_iff.mp h
    rcases insert_eq hx with ⟨-, rfl⟩ | ⟨hno, -, s1, cache, h1, -, rfl⟩
    · exact ⟨hb, Or.inr ⟨rfl, rfl⟩⟩
    · obtain ⟨hb', he⟩ := insertC0_effect hb h1
      refine ⟨hb', he.imp_right fun hl => ⟨hl.1, ?_⟩⟩
      rcases hl.2 with ⟨-, ht⟩ | ⟨hf, hsize, -⟩
      · exact ht
      · exact ((hok.resolve_left hno).elim (fun hf' => hf' hf) fun hs => hsize hs).elim
  | delete =>
    cases h
    obtain ⟨hb', he⟩ := deleteC0_effect key hb
    refine ⟨hb', Or.inr ⟨(deleteC0_frame s key).2.2, ?_⟩⟩
    rcases he with ⟨-, -, ht⟩ | ht
    · exact ht
    · have hsame : deleteC0 s key = { s with T := s.T.insert key "invalid_delete".toList 1 } := by
        unfold deleteC0
        rw [hok.1]
      show tableOf (deleteC0 s key).T = tableOf s.T
      rw [hsame]
      exact tableOf_insert_held hb hok.2

/-! ## the invariant -/

/-- the table is rebuilt from a sublist of the recorded writes -/
structure Durable.Inv (n : Node) : Prop where
  bst : n.store.T.Bst
  rebuilt : ∃ ws : List Req, ws.Sublist (loggedWrites n.store.txLog) ∧
    tableOf n.store.T = ws.foldl tableStep fun _ => none
  down : n.up = false → n.store.T = .null

namespace Durable.Inv
variable {n n' : Node}

theorem empty : Durable.Inv Node.empty where
  bst := C0Node.bst_null
  rebuilt := ⟨[], List.nil_sublist _, rfl⟩
  down := fun h => by cases h

/-- an empty table needs no tableStep -/
theorem of_null {s : Store} {up : Bool} (h : s.T = .null) : Durable.Inv ⟨s, up⟩ where
  bst := by rw [h]; exact C0Node.bst_null
  rebuilt := ⟨[], List.nil_sublist _, by rw [h]; rfl⟩
  down := fun _ => h

theorem rebuild (h : Durable.Inv n) : Durable n.store := by
  obtain ⟨ws, hsub, ht⟩ := h.rebuilt
  refine ⟨fun e he => ?_, ws, hsub, ht⟩
  have hrow : tableOf n.store.T e.key = some (e.value.read, e.flag) := by
    rw [tableOf, C0Node.find, h.bst.lookup_mem he]
    rfl
  rw [ht] at hrow
  obtain ⟨q, hq, hr⟩ := reflects_of_foldl ws hrow
  exact ⟨q, hsub.subset hq, hr⟩

theorem loggedWrites_log {s : Store} {txid : Int} {line : CStr} {q : Req}
    (hq : (command line).write = some q) :
    loggedWrites (logTransaction s txid line).txLog = loggedWrites s.txLog ++ [q] := by
  simp [loggedWrites, logTransaction, List.filterMap_append, hq]

/-- **A client request** is recorded before it is applied. -/
theorem client {s : Store} (h : Durable.Inv ⟨s, true⟩) {txid : Int} {line : CStr}
    (hok : EventOk ⟨s, true⟩ (.client txid line))
    {r : CStr × Store} (hr : serverHandlerBlocking s txid line = some r) :
    Durable.Inv ⟨r.2, true⟩ := by
  cases hw : (command line).write with
  | some q =>
    have hr' := handler_write hw s txid
    rw [hr, Option.map_some] at hr'
    obtain ⟨x, hx, hxr⟩ := Option.map_eq_some_iff.mp hr'.symm
    rw [← show x.2.2 = r.2 from hxr]
    obtain ⟨hb, he⟩ := serve_effect (s := logTransaction s txid line) h.bst (hok q hw) hx
    rcases he with hnull | ⟨hlog, he⟩
    · exact of_null hnull
    · obtain ⟨ws, hsub, ht⟩ := h.rebuilt
      have hl : loggedWrites x.2.2.txLog = loggedWrites s.txLog ++ [q] := by
        rw [hlog, loggedWrites_log hw]
      refine ⟨hb, ?_, fun hup => by cases hup⟩
      rcases he with hsame | hrec
      · refine ⟨ws, ?_, hsame.trans ht⟩
        rw [hl]
        exact hsub.trans (List.sublist_append_left _ _)
      · refine ⟨ws ++ [q], ?_, ?_⟩
        · rw [hl]
          exact hsub.append (List.Sublist.refl _)
        · rw [List.foldl_append, List.foldl_cons, List.foldl_nil]
          exact hrec.trans (congrArg (tableStep · q) ht)
  | none =>
    -- a line that is no write leaves the tree and the log alone
    have hframe : r.2.T = s.T ∧ r.2.txLog = s.txLog := by
      unfold serverHandlerBlocking at hr
      cases hc : command line with
      | bad => rw [hc] at hr; cases hr; exact ⟨rfl, rfl⟩
      | unknown => rw [hc] at hr; cases hr; exact ⟨rfl, rfl⟩
      | get key =>
        rw [hc] at hr
        obtain ⟨x, hx, hr⟩ := Option.bind_eq_some_iff.mp hr
        cases hr
        rcases get_eq hx with ⟨v, -, rfl⟩ | ⟨-, v, cache, -, rfl, -⟩
        · exact ⟨rfl, rfl⟩
        · exact ⟨rfl, rfl⟩
      | put key value =>
        cases value with
        | none => rw [hc] at hr; cases hr
        | some value => rw [hc] at hw; cases hw
      | insert key value =>
        cases value with
        | none => rw [hc] at hr; cases hr
        | some value => rw [hc] at hw; cases hw
      | delete key => rw [hc] at hw; cases hw
    obtain ⟨hT, hlog⟩ := hframe
    refine ⟨by rw [hT]; exact h.bst, ?_, fun hup => by cases hup⟩
    rw [hT, hlog]
    exact h.rebuilt

/-- a log without writes leaves the tree as it is -/
theorem foldlM_replay {txs : List Transaction} {s s' : Store}
    (hok : ∀ tx ∈ txs, tx.valid ≠ 0 → (command tx.data).write = none)
    (h : txs.foldlM replayEntry s = some s') : s'.T = s.T := by
  induction txs generalizing s with
  | nil => cases h; rfl
  | cons tx txs ih =>
    obtain ⟨s1, h1, h2⟩ := Option.bind_eq_some_iff.mp h
    rw [ih (fun tx' htx => hok tx' (List.mem_cons_of_mem _ htx)) h2]
    have hw := hok tx (by simp)
    unfold replayEntry at h1
    split_ifs at h1 with hv
    · cases h1; rfl
    · specialize hw hv
      cases hc : command tx.data with
      | bad => rw [hc] at h1; cases h1; rfl
      | unknown => rw [hc] at h1; cases h1; rfl
      | get key =>
        rw [hc] at h1
        obtain ⟨x, hx, rfl⟩ := Option.map_eq_some_iff.mp h1
        rcases get_eq hx with ⟨v, -, rfl⟩ | ⟨-, v, cache, -, rfl, -⟩
        · rfl
        · rfl
      | put key value =>
        cases value with
        | none => rw [hc] at h1; cases h1
        | some value => rw [hc] at hw; cases hw
      | insert key value =>
        cases value with
        | none => rw [hc] at h1; cases h1
        | some value => rw [hc] at hw; cases hw
      | delete key => rw [hc] at hw; cases hw

/-- **One event.** -/
theorem step (h : Durable.Inv n) {e : Event} (hok : EventOk n e) (hs : n.step e = some n') :
    Durable.Inv n' := by
  obtain ⟨s, up⟩ := n
  cases up with
  | true =>
    cases e with
    | client txid line =>
      obtain ⟨r, hr, rfl⟩ := Option.map_eq_some_iff.mp hs
      exact h.client hok hr
    | serverWrite w key value =>
      obtain ⟨s', hw, rfl⟩ := Option.map_eq_some_iff.mp hs
      obtain ⟨hb, hnull | ⟨hlog, ht⟩⟩ := peer_effect h.bst hok hw
      · exact of_null hnull
      · refine ⟨hb, ?_, fun hup => by cases hup⟩
        rw [hlog, ht]
        exact h.rebuilt
    | flush =>
      obtain ⟨s', hd, rfl⟩ := Option.map_eq_some_iff.mp hs
      exact of_null (c0Dump_frame hd).2
    | crash =>
      cases hs
      exact of_null rfl
    | restart => cases hs
  | false =>
    cases e with
    | restart =>
      obtain ⟨r, hr, rfl⟩ := Option.map_eq_some_iff.mp hs
      have hT : r.2.T = s.T := by
        unfold recover at hr
        cases hl : s.txLog with
        | none =>
          rw [hl] at hr
          cases hr
          rfl
        | some txs =>
          rw [hl] at hr
          obtain ⟨s1, h1, hr⟩ := Option.bind_eq_some_iff.mp hr
          cases hr
          have hno : ∀ tx ∈ txs, tx.valid ≠ 0 → (command tx.data).write = none := by
            intro tx htx
            refine hok tx ?_
            rw [show Store.txLog _ = some txs from hl]
            exact htx
          show s1.T = s.T
          exact foldlM_replay hno h1
      exact of_null (hT.trans (h.down rfl))
    | client txid line => cases hs
    | serverWrite w key value => cases hs
    | flush => cases hs
    | crash => cases hs

end Durable.Inv

/-- **Durability over whole lives.**  In every state that a life of `EventOk` events reaches the
tree can be rebuilt from the log. -/
theorem durable (es : List Event) (hg : Guarded Node.step EventOk Node.empty es) (n : Node)
    (hr : run Node.step Node.empty es = some n) : Durable n.store :=
  (inv_of_guarded (fun _ _ _ h hok hs => Durable.Inv.step h hok hs) Durable.Inv.empty hg
    hr).rebuild

/-- a life with a peer write that is a duplicate and a restart just after a flush -/
def quietLife : List Event :=
  [.client 11 "PUT a 1".toList, .serverWrite .insert ['a'] ['2'], .client 12 "DELETE b".toList,
    .flush, .crash, .restart, .client 13 "INSERT c 3".toList]

theorem durable_quietLife : ∃ n, run Node.step Node.empty quietLife = some n ∧ Durable n.store :=
  ⟨_, rfl, durable quietLife (by decide) _ rfl⟩

/-- a completed recovery, before any flush -/
def recoveredLife : List Event := [.client 11 "PUT a 1".toList, .crash, .restart]

/-- After a recovery the replayed write is in `_T` and in no log. -/
theorem recovered_unlogged : ∃ n e, run Node.step Node.empty recoveredLife = some n ∧
    e ∈ n.store.T.entries ∧ n.store.txLog = none ∧ ¬ Durable n.store := by
  refine ⟨_, ⟨['a'], ⟨['1'], false⟩, 0⟩, rfl, by decide, rfl, fun h => ?_⟩
  obtain ⟨q, hq, -⟩ := h.recorded ⟨['a'], ⟨['1'], false⟩, 0⟩ (by decide)
  cases hq

end LsmKv
