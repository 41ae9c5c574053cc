import LsmKv.Journal.Durable

/-!
# What a flush takes from the log

Client handler threads work at one time.  Each takes a write in three steps: it logs it, applies
it, and replies; the timer may flush between any two steps.  The line of a request is freed after
the reply, so a value that still points into it counts as lost.

* `Threads`, `Threads.step`   the threads, and one step of one of them;
* `fullBatch`           the batch a request hands to `c1_batch_insert`;
* `Batch.Holds`         the batch holds the write, or a later write of its key;
* `Covers`              a batch that was written holds the write, or `tx_log` has its entry;
* `ActOk`               an accepted write takes its place in `_T`, in strings of its own, and no
                        flush came between its entry and itself;
* `log_covers`          in every state that such steps reach the acknowledged writes are covered.
-/

namespace LsmKv

open KeySorted Run

/-- a write and its entry of the log; `id` counts the calls of `log_transaction` -/
structure Write where
  id : Nat
  entry : Transaction
  req : Req
  deriving DecidableEq

/-- where a thread is in its request -/
inductive Phase where
  | idle
  | logged (w : Write)
  | applied (w : Write) (rc : Int)

/-- a batch that `c1_batch_insert` wrote, and the accepted writes since the batch before, in the
order they were applied -/
structure Batch where
  entries : List Entry
  writes : List Write

/-- the store, the threads, and what happened so far -/
structure Threads (ι : Type) where
  store : Store
  phase : ι → Phase
  next : Nat
  /-- the writes of the entries of `tx_log` -/
  logged : List Write
  /-- accepted since the last batch -/
  pending : List Write
  batches : List Batch
  /-- accepted and acknowledged -/
  acked : List Write

inductive Act (ι : Type) where
  | log (t : ι) (txid : Int) (line : CStr)
  | apply (t : ι)
  | reply (t : ι)
  | timer

/-- the request finds nothing in its way and brings the table to its limit -/
def Req.Fills (s : Store) : Req → Prop
  | .put key value => s.T.get key = none ∧ (s.T.insert key value 0).c0Size = maxC0Size
  | .insert key value => ¬ s.cache.Has key ∧ s.T.get key = none ∧
      (s.T.insert key value 0).c0Size = maxC0Size
  | _ => False

instance (s : Store) : (q : Req) → Decidable (Req.Fills s q)
  | .put _ _ => inferInstanceAs (Decidable (_ ∧ _))
  | .insert _ _ => inferInstanceAs (Decidable (_ ∧ _ ∧ _))
  | .delete _ => inferInstanceAs (Decidable False)
  | .get _ => inferInstanceAs (Decidable False)
  | .timer => inferInstanceAs (Decidable False)

/-- what a request hands to `c1_batch_insert` -/
def fullBatch (s : Store) : Req → Option (List Entry)
  | .put key value =>
    if Req.Fills s (.put key value) then some (s.T.insert key value 0).entries else none
  | .insert key value =>
    if Req.Fills s (.insert key value) then some (s.T.insert key value 0).entries else none
  | .timer => if s.T.c0Size = 0 then none else some s.T.entries
  | _ => none

namespace Threads
variable {ι : Type}

/-- `pending` are the accepted writes, the one just applied included -/
def served (s : Threads ι) (q : Req) (pending : List Write) (store : Store) : Threads ι :=
  match fullBatch s.store q with
  | none => { s with store := store, pending := pending }
  | some nodes =>
    match c1BatchInsert s.store.c1 nodes with
    | some (0, _) => { s with
        store := store, logged := [], pending := [], batches := ⟨nodes, pending⟩ :: s.batches }
    | _ => { s with store := store, pending := [] }

variable [DecidableEq ι]

/-- what `server_handler` does, step by step, and the timer -/
def step (s : Threads ι) : Act ι → Option (Threads ι)
  | .log t txid line =>
    match s.phase t, (command line).write with
    | .idle, some q =>
      let w : Write := ⟨s.next, ⟨txid, line, 1, 1⟩, q⟩
      some { s with
        store := logTransaction s.store txid line, logged := s.logged ++ [w], next := s.next + 1,
        phase := Function.update s.phase t (.logged w) }
    | _, _ => none
  | .apply t =>
    match s.phase t with
    | .logged w => do
      let (rc, _, store) ← serve s.store w.req
      let pending := if rc = exitSuccess then s.pending ++ [w] else s.pending
      let s := s.served w.req pending store
      some { s with phase := Function.update s.phase t (.applied w rc) }
    | _ => none
  | .reply t =>
    match s.phase t with
    | .applied w rc => some { s with
        acked := if rc = exitSuccess then w :: s.acked else s.acked
        phase := Function.update s.phase t .idle }
    | _ => none
  | .timer => do
    let (_, _, store) ← serve s.store .timer
    some (s.served .timer s.pending store)

def empty : Threads ι := ⟨Store.empty, fun _ => .idle, 0, [], [], [], []⟩

end Threads

/-! ## coverage -/

/-- an entry is what the write left, or a write after it -/
def Batch.Holds (b : Batch) (w : Write) : Prop :=
  ∃ before after, b.writes = before ++ w :: after ∧ ∃ e ∈ b.entries, w.req.writes = some e.key ∧
    ∃ w' ∈ w :: after, Reflects e.key e.value.read e.flag w'.req

/-- a batch that was written holds the write, or its entry is still in the log -/
def Covers {ι : Type} (s : Threads ι) (w : Write) : Prop :=
  w ∈ s.logged ∨ ∃ b ∈ s.batches, b.Holds w

/-- The entries of `tx_log` are those of `logged`, and every acknowledged write is covered. -/
structure LogCovers {ι : Type} (s : Threads ι) : Prop where
  entries : s.logged.map Write.entry = s.store.txLog.getD []
  acked : ∀ w ∈ s.acked, Covers s w

/-! ## the conditions -/

/-- an INSERT that is a duplicate -/
def Req.Rejected (s : Store) : Req → Prop
  | .insert key _ => s.cache.Has key ∨ s.T.get key ≠ none
  | _ => False

/-- The write finds its key not in `_T` or just as it would leave it; a DELETE may find it at the
root, where a PUT would lend its line. -/
def Req.Lands (s : Store) : Req → Prop
  | .put key value => s.T.get key = none ∧
      (s.T.find key = none ∨ tableOf s.T key = some (some value, 0))
  | .insert key value => s.T.find key = none ∨ tableOf s.T key = some (some value, 0)
  | .delete key => s.T.get key ≠ none ∨ s.T.find key = none ∨
      (tableOf s.T key).map Prod.snd = some 1
  | _ => True

/-- An accepted write lands, and its entry is in the log or it is part of a batch at once. -/
def ApplyOk {ι : Type} (s : Threads ι) : Phase → Prop
  | .logged w => Req.Rejected s.store w.req ∨
      Req.Lands s.store w.req ∧ (w ∈ s.logged ∨ Req.Fills s.store w.req)
  | _ => True

def ActOk {ι : Type} (s : Threads ι) : Act ι → Prop
  | .apply t => ApplyOk s (s.phase t)
  | _ => True

instance Req.decRejected (s : Store) : (q : Req) → Decidable (Req.Rejected s q)
  | .insert _ _ => inferInstanceAs (Decidable (_ ∨ _))
  | .put _ _ => inferInstanceAs (Decidable False)
  | .delete _ => inferInstanceAs (Decidable False)
  | .get _ => inferInstanceAs (Decidable False)
  | .timer => inferInstanceAs (Decidable False)

instance Req.decLands (s : Store) : (q : Req) → Decidable (Req.Lands s q)
  | .put _ _ => inferInstanceAs (Decidable (_ ∧ (_ ∨ _)))
  | .insert _ _ => inferInstanceAs (Decidable (_ ∨ _))
  | .delete _ => inferInstanceAs (Decidable (_ ∨ _ ∨ _))
  | .get _ => inferInstanceAs (Decidable True)
  | .timer => inferInstanceAs (Decidable True)

instance {ι : Type} (s : Threads ι) : (p : Phase) → Decidable (ApplyOk s p)
  | .logged _ => inferInstanceAs (Decidable (_ ∨ _ ∧ (_ ∨ _)))
  | .idle => inferInstanceAs (Decidable True)
  | .applied _ _ => inferInstanceAs (Decidable True)

instance {ι : Type} (s : Threads ι) : (a : Act ι) → Decidable (ActOk s a)
  | .apply t => inferInstanceAs (Decidable (ApplyOk s (s.phase t)))
  | .log _ _ _ => inferInstanceAs (Decidable True)
  | .reply _ => inferInstanceAs (Decidable True)
  | .timer => inferInstanceAs (Decidable True)

/-! ## requests and batches -/

/-- the files the counter promises are there -/
def C1.Present (c : C1) : Prop := 0 ≤ c.fileCounter → (c.files c.fileCounter).isSome

theorem c1Publish_frame {c c' : C1} {rc : Int} (h : c1Publish c = some (rc, c')) :
    rc = 0 ∧ c'.fileCounter = c.fileCounter ∧ c'.files = c.files := by
  unfold c1Publish at h
  split at h
  · cases h
  · obtain ⟨md, -, h⟩ := Option.bind_eq_some_iff.mp h
    obtain ⟨md', -, h⟩ := Option.bind_eq_some_iff.mp h
    cases h
    exact ⟨rfl, rfl, rfl⟩

/-- **A batch over a file that is there** is written without an error. -/
theorem c1BatchInsert_present {c c' : C1} {nodes : List Entry} {rc : Int} (hp : c.Present)
    (h : c1BatchInsert c nodes = some (rc, c')) : rc = 0 ∧ c'.Present := by
  have hpub : ∀ {d : C1} {f : List Line}, d.files d.fileCounter = some f →
      c1Publish d = some (rc, c') → rc = 0 ∧ c'.Present := by
    intro d f hf hd
    obtain ⟨hrc, hn, hfiles⟩ := c1Publish_frame hd
    refine ⟨hrc, fun _ => ?_⟩
    rw [hn, hfiles, hf]
    rfl
  unfold c1BatchInsert at h
  dsimp only at h
  split_ifs at h with hn
  · obtain ⟨old, hold⟩ := Option.isSome_iff_exists.mp (hp (by omega))
    have hprev : Function.update c.files (c.fileCounter + 1) (some (nodes.map keyval))
        (c.fileCounter + 1 - 1) = some old := by
      rw [Function.update_of_ne (by omega), add_sub_cancel_right]
      exact hold
    rw [hprev] at h
    obtain ⟨out, -, h⟩ := Option.bind_eq_some_iff.mp h
    exact hpub (Function.update_self _ _ _) h
  · exact hpub (Function.update_self _ _ _) h

section requests
variable {s : Store} {q : Req} {x : Reply}

/-- a section that fills the table, if it has a result -/
theorem insertC0_full {s' : Store} {key value : CStr} (h : insertC0 s key value = some s')
    (hsize : (s.T.insert key value 0).c0Size = maxC0Size) :
    ∃ r, c1BatchInsert s.c1 (s.T.insert key value 0).entries = some r ∧
      s' = { s with T := .null, c1 := r.2, txLog := if r.1 = 0 then none else s.txLog } := by
  rcases insertC0_cases h with ⟨hne, -⟩ | ⟨-, hd⟩
  · exact absurd hsize hne
  · have hT : s.T.insert key value 0 ≠ .null := by
      intro hnull
      rw [hnull] at hsize
      cases hsize
    rw [c0Dump_eq hT] at hd
    obtain ⟨r, hr, rfl⟩ := Option.map_eq_some_iff.mp hd
    exact ⟨r, hr, rfl⟩

/-- a request without a batch -/
theorem serve_unbatched (hx : serve s q = some x) (hn : fullBatch s q = none) :
    x.2.2.c1 = s.c1 ∧ x.2.2.txLog = s.txLog := by
  cases q with
  | put key value =>
    obtain ⟨s1, cache, h1, -, rfl⟩ := put_eq hx
    cases hg : s.T.get key with
    | none =>
      have hsize : (s.T.insert key value 0).c0Size ≠ maxC0Size := by
        intro hs
        rw [fullBatch, if_pos ⟨hg, hs⟩] at hn
        cases hn
      rw [putC0_insert hg, insertC0_small hsize] at h1
      cases h1
      exact ⟨rfl, rfl⟩
    | some e =>
      rw [putC0_root hg] at h1
      cases h1
      exact ⟨rfl, rfl⟩
  | insert key value =>
    rcases insert_eq hx with ⟨-, rfl⟩ | ⟨hno, hg, s1, cache, h1, -, rfl⟩
    · exact ⟨rfl, rfl⟩
    · have hsize : (s.T.insert key value 0).c0Size ≠ maxC0Size := by
        intro hs
        rw [fullBatch, if_pos ⟨hno, hg, hs⟩] at hn
        cases hn
      rw [insertC0_small hsize] at h1
      cases h1
      exact ⟨rfl, rfl⟩
  | delete key =>
    cases hx
    exact (deleteC0_frame s key).2
  | get key =>
    rcases get_eq hx with ⟨v, -, rfl⟩ | ⟨-, v, cache, -, rfl, -⟩
    · exact ⟨rfl, rfl⟩
    · exact ⟨rfl, rfl⟩
  | timer =>
    have hsize : s.T.c0Size = 0 := by
      by_contra hs
      rw [fullBatch, if_neg hs] at hn
      cases hn
    obtain ⟨s1, hd, rfl⟩ := Option.map_eq_some_iff.mp hx
    rw [myTimerHandler, c0Size_eq_zero.mp hsize, c0Dump_null] at hd
    cases hd
    exact ⟨rfl, rfl⟩

/-- a request with a batch -/
theorem serve_batched {nodes : List Entry} (hx : serve s q = some x)
    (hB : fullBatch s q = some nodes) : ∃ r, c1BatchInsert s.c1 nodes = some r ∧
      x.2.2.T = .null ∧ x.2.2.c1 = r.2 ∧ x.2.2.txLog = if r.1 = 0 then none else s.txLog := by
  cases q with
  | put key value =>
    rw [fullBatch] at hB
    split_ifs at hB with hf
    cases hB
    obtain ⟨s1, cache, h1, -, rfl⟩ := put_eq hx
    rw [putC0_insert hf.1] at h1
    obtain ⟨r, hr, rfl⟩ := insertC0_full h1 hf.2
    exact ⟨r, hr, rfl, rfl, rfl⟩
  | insert key value =>
    rw [fullBatch] at hB
    split_ifs at hB with hf
    cases hB
    rcases insert_eq hx with ⟨hdup, -⟩ | ⟨-, -, s1, cache, h1, -, rfl⟩
    · exact (hdup.elim hf.1 fun h => h hf.2.1).elim
    · obtain ⟨r, hr, rfl⟩ := insertC0_full h1 hf.2.2
      exact ⟨r, hr, rfl, rfl, rfl⟩
  | delete key => cases hB
  | get key => cases hB
  | timer =>
    rw [fullBatch] at hB
    split_ifs at hB with hsize
    cases hB
    obtain ⟨s1, hd, rfl⟩ := Option.map_eq_some_iff.mp hx
    rw [myTimerHandler, c0Dump_eq fun h => hsize (c0Size_eq_zero.mpr h)] at hd
    obtain ⟨r, hr, rfl⟩ := Option.map_eq_some_iff.mp hd
    exact ⟨r, hr, rfl, rfl, rfl⟩

/-- a request that fills the table has a batch -/
theorem fullBatch_of_fills (h : q.Fills s) : fullBatch s q ≠ none := by
  cases q with
  | put key value => rw [fullBatch, if_pos h]; simp
  | insert key value => rw [fullBatch, if_pos h]; simp
  | delete key => exact h.elim
  | get key => exact h.elim
  | timer => exact h.elim

/-- a rejected request -/
theorem serve_rejected (hx : serve s q = some x) (hr : q.Rejected s) :
    x.1 ≠ exitSuccess ∧ x.2.2.T = s.T ∧ fullBatch s q = none := by
  cases q with
  | insert key value =>
    rcases insert_eq hx with ⟨-, rfl⟩ | ⟨hno, hg, -⟩
    · refine ⟨show exitFailure ≠ exitSuccess by decide, rfl, ?_⟩
      rw [fullBatch, if_neg]
      rintro ⟨hno, hg, -⟩
      exact hr.elim hno fun h => h hg
    · exact (hr.elim hno fun h => h hg).elim
  | put key value => exact hr.elim
  | delete key => exact hr.elim
  | get key => exact hr.elim
  | timer => exact hr.elim

/-- an insertion that lands -/
theorem tableOf_insert_lands {T : C0Node} (hb : T.Bst) {key value : CStr} {flag : Int}
    (hl : T.find key = none ∨ tableOf T key = some (some value, flag)) :
    tableOf (T.insert key value flag) =
      Function.update (tableOf T) key (some (some value, flag)) := by
  by_cases hf : T.find key = none
  · exact tableOf_insert hb hf
  · rw [tableOf_insert_held hb hf, ← hl.resolve_left hf, Function.update_eq_self]

/-- **An accepted write that lands** has its row in the tree that stays or is flushed. -/
theorem serve_lands (hb : s.T.Bst) (hread : (tableOf s.T).Readable) (hx : serve s q = some x)
    (hq : q.writes ≠ none) (hr : ¬ q.Rejected s) (hl : q.Lands s) : x.1 = exitSuccess ∧
      ∃ k v f, ∃ T : C0Node, T.Bst ∧ q.writes = some k ∧ Reflects k v f q ∧
        tableOf T = Function.update (tableOf s.T) k (some (v, f)) ∧
        (fullBatch s q = none ∧ x.2.2.T = T ∨ fullBatch s q = some T.entries) := by
  cases q with
  | put key value =>
    obtain ⟨s1, cache, h1, -, rfl⟩ := put_eq hx
    obtain ⟨hg, hl⟩ := hl
    rw [putC0_insert hg] at h1
    refine ⟨rfl, key, some value, 0, s.T.insert key value 0, hb.insert _ _ _, rfl,
      ⟨rfl, rfl, rfl⟩, tableOf_insert_lands hb hl, ?_⟩
    by_cases hsize : (s.T.insert key value 0).c0Size = maxC0Size
    · exact Or.inr (if_pos ⟨hg, hsize⟩)
    · rw [insertC0_small hsize] at h1
      cases h1
      exact Or.inl ⟨if_neg fun h => hsize h.2, rfl⟩
  | insert key value =>
    rcases insert_eq hx with ⟨hdup, -⟩ | ⟨hno, hg, s1, cache, h1, -, rfl⟩
    · exact absurd hdup hr
    · refine ⟨rfl, key, some value, 0, s.T.insert key value 0, hb.insert _ _ _, rfl,
        ⟨rfl, rfl, rfl⟩, tableOf_insert_lands hb hl, ?_⟩
      by_cases hsize : (s.T.insert key value 0).c0Size = maxC0Size
      · exact Or.inr (if_pos ⟨hno, hg, hsize⟩)
      · rw [insertC0_small hsize] at h1
        cases h1
        exact Or.inl ⟨if_neg fun h => hsize h.2.2, rfl⟩
  | delete key =>
    cases hx
    refine ⟨rfl, key, ((tableOf s.T key).map Prod.fst).getD (some "invalid_delete".toList), 1,
      (deleteC0 s key).T, (deleteC0_effect key hb).1, rfl, ⟨rfl, hread.deleted key, rfl⟩, ?_,
      Or.inl ⟨rfl, rfl⟩⟩
    rcases (deleteC0_effect key hb).2 with ⟨hg, hf, ht⟩ | ht
    · -- a tombstone below the root stays as it is
      have hflag := (hl.resolve_left fun h => h hg).resolve_left hf
      obtain ⟨⟨v, f⟩, hrow, rfl⟩ := Option.map_eq_some_iff.mp hflag
      rw [ht, hrow]
      exact (Function.update_eq_self_iff.mpr hrow.symm).symm
    · exact ht
  | get key => exact absurd rfl hq
  | timer => exact absurd rfl hq

/-- a write that lands lends nothing -/
theorem not_lends (h : q.Rejected s ∨ q.Lands s) : ¬ q.Lends s := by
  cases q with
  | put key value =>
    rintro hg
    exact hg (h.resolve_left fun hr => hr.elim).1
  | insert key value => exact fun h => h.elim
  | delete key => exact fun h => h.elim
  | get key => exact fun h => h.elim
  | timer => exact fun h => h.elim

end requests

/-! ## rows of a table -/

theorem tableOf_entry {T : C0Node} (hb : T.Bst) {e : Entry} (he : e ∈ T.entries) :
    tableOf T e.key = some (e.value.read, e.flag) := by
  rw [tableOf, C0Node.find, hb.lookup_mem he]
  rfl

theorem entry_of_tableOf {T : C0Node} {key : CStr} {value : Option CStr} {flag : Int}
    (h : tableOf T key = some (value, flag)) :
    ∃ e ∈ T.entries, e.key = key ∧ e.value.read = value ∧ e.flag = flag := by
  obtain ⟨e, he, hv⟩ := Option.map_eq_some_iff.mp h
  obtain ⟨hmem, hk⟩ := lookup_some he
  cases hv
  exact ⟨e, hmem, hk, rfl, rfl⟩

section rows
variable {T T' : C0Node} {ws : List Write} {w : Write} {k : CStr} {v : Option CStr} {f : Int}

/-- the write that was applied last -/
theorem holds_last (hw : w.req.writes = some k) (hr : Reflects k v f w.req)
    (ht : tableOf T' k = some (v, f)) : (⟨T'.entries, ws ++ [w]⟩ : Batch).Holds w := by
  obtain ⟨e, he, rfl, rfl, rfl⟩ := entry_of_tableOf ht
  exact ⟨ws, [], rfl, e, he, hw, w, by simp, hr⟩

/-- **One more write** keeps what the table held, or supersedes it. -/
theorem batch_holds_snoc (hb : T.Bst) (hr : Reflects k v f w.req)
    (ht : tableOf T' = Function.update (tableOf T) k (some (v, f))) {w0 : Write}
    (h : (⟨T.entries, ws⟩ : Batch).Holds w0) : (⟨T'.entries, ws ++ [w]⟩ : Batch).Holds w0 := by
  obtain ⟨before, after, hws, e, he, hkey, w', hw', href⟩ := h
  have hws' : ws ++ [w] = before ++ w0 :: (after ++ [w]) := by
    rw [show ws = before ++ w0 :: after from hws, List.append_assoc, List.cons_append]
  by_cases hk : e.key = k
  · have hrow : tableOf T' k = some (v, f) := by rw [ht, Function.update_self]
    obtain ⟨e', he', hk', rfl, rfl⟩ := entry_of_tableOf hrow
    subst hk
    rw [← hk'] at hkey hr
    exact ⟨before, after ++ [w], hws', e', he', hkey, w, by simp, hr⟩
  · have hrow : tableOf T' e.key = some (e.value.read, e.flag) := by
      rw [ht, Function.update_of_ne hk, tableOf_entry hb he]
    obtain ⟨e', he', hk', hv', hf'⟩ := entry_of_tableOf hrow
    rw [← hk', ← hv', ← hf'] at href
    rw [← hk'] at hkey
    refine ⟨before, after ++ [w], hws', e', he', hkey, w', ?_, href⟩
    rw [← List.cons_append]
    exact List.mem_append_left _ hw'

end rows

/-! ## the invariant -/

section invariant
variable {ι : Type}

/-- accepted and not flushed, or held by a batch -/
def Kept (s : Threads ι) (w : Write) : Prop := w ∈ s.pending ∨ ∃ b ∈ s.batches, b.Holds w

structure LogCovers.Inv (s : Threads ι) : Prop where
  bst : s.store.T.Bst
  readable : (tableOf s.store.T).Readable
  present : s.store.c1.Present
  entries : s.logged.map Write.entry = s.store.txLog.getD []
  writes : ∀ t w, s.phase t = .logged w → w.req.writes ≠ none
  held : ∀ w ∈ s.pending, w ∈ s.logged ∧ (⟨s.store.T.entries, s.pending⟩ : Batch).Holds w
  applied : ∀ t w, s.phase t = .applied w exitSuccess → Kept s w
  acked : ∀ w ∈ s.acked, Kept s w

namespace LogCovers.Inv
variable {s : Threads ι}

theorem empty : LogCovers.Inv (Threads.empty : Threads ι) where
  bst := C0Node.bst_null
  readable := readable_empty
  present := fun h => absurd h (show ¬ (0 : Int) ≤ -1 by decide)
  entries := rfl
  writes := by
    intro t w h
    cases h
  held := by simp [Threads.empty]
  applied := by
    intro t w h
    cases h
  acked := by simp [Threads.empty]

theorem logCovers (h : LogCovers.Inv s) : LogCovers s where
  entries := h.entries
  acked := by
    intro w hw
    rcases h.acked w hw with hp | hb
    · exact Or.inl (h.held w hp).1
    · exact Or.inr hb

/-- **A request is served**: its writes are pending with their entries, or a batch holds them. -/
theorem served (h : LogCovers.Inv s) {q : Req} {pending : List Write} {x : Reply}
    (hx : serve s.store q = some x) (hb : x.2.2.T.Bst) (hread : (tableOf x.2.2.T).Readable)
    (hpend : ∀ w ∈ s.pending, w ∈ pending)
    (hsmall : fullBatch s.store q = none → ∀ w ∈ pending,
      w ∈ s.logged ∧ (⟨x.2.2.T.entries, pending⟩ : Batch).Holds w)
    (hfull : ∀ B, fullBatch s.store q = some B → ∀ w ∈ pending, (⟨B, pending⟩ : Batch).Holds w) :
    LogCovers.Inv (s.served q pending x.2.2) ∧
      ∀ w ∈ pending, Kept (s.served q pending x.2.2) w := by
  cases hB : fullBatch s.store q with
  | none =>
    obtain ⟨hc1, hlog⟩ := serve_unbatched hx hB
    have hs : s.served q pending x.2.2 = { s with store := x.2.2, pending := pending } := by
      rw [Threads.served, hB]
    have hkept : ∀ w, Kept s w → Kept { s with store := x.2.2, pending := pending } w :=
      fun w hw => hw.imp_left (hpend w)
    rw [hs]
    refine ⟨⟨hb, hread, ?_, ?_, h.writes, hsmall hB, fun t w hw => hkept w (h.applied t w hw),
      fun w hw => hkept w (h.acked w hw)⟩, fun w hw => Or.inl hw⟩
    · show x.2.2.c1.Present
      rw [hc1]
      exact h.present
    · show s.logged.map Write.entry = x.2.2.txLog.getD []
      rw [hlog]
      exact h.entries
  | some B =>
    obtain ⟨⟨rc, c1⟩, hr, -, hc1, hlog⟩ := serve_batched hx hB
    obtain ⟨rfl, hp⟩ := c1BatchInsert_present h.present hr
    have hs : s.served q pending x.2.2 = { s with
        store := x.2.2, logged := [], pending := [], batches := ⟨B, pending⟩ :: s.batches } := by
      simp only [Threads.served, hB, hr]
    have hkept : ∀ w, w ∈ pending ∨ (∃ b ∈ s.batches, b.Holds w) →
        Kept { s with
          store := x.2.2, logged := [], pending := []
          batches := ⟨B, pending⟩ :: s.batches } w := by
      intro w hw
      rcases hw with hw | ⟨b, hb, hw⟩
      · exact Or.inr ⟨_, List.mem_cons_self, hfull B hB w hw⟩
      · exact Or.inr ⟨b, List.mem_cons_of_mem _ hb, hw⟩
    rw [hs]
    refine ⟨⟨hb, hread, ?_, ?_, h.writes, (fun w hw => by cases hw),
      fun t w hw => hkept w ((h.applied t w hw).imp_left (hpend w)),
      fun w hw => hkept w ((h.acked w hw).imp_left (hpend w))⟩,
      fun w hw => hkept w (Or.inl hw)⟩
    · show x.2.2.c1.Present
      rw [hc1]
      exact hp
    · show [] = x.2.2.txLog.getD []
      rw [hlog]
      rfl

/-- a write is logged -/
theorem log (h : LogCovers.Inv s) (txid : Int) (line : CStr) (q : Req) :
    LogCovers.Inv { s with
      store := logTransaction s.store txid line, next := s.next + 1,
      logged := s.logged ++ [⟨s.next, ⟨txid, line, 1, 1⟩, q⟩] } := by
  refine ⟨h.bst, h.readable, h.present, ?_, h.writes, ?_, h.applied, h.acked⟩
  · show List.map Write.entry (s.logged ++ _) = s.store.txLog.getD [] ++ _
    rw [List.map_append, h.entries]
    rfl
  · intro w hw
    obtain ⟨hl, hh⟩ := h.held w hw
    exact ⟨List.mem_append_left _ hl, hh⟩

/-- **A write is applied.** -/
theorem apply (h : LogCovers.Inv s) {w : Write} (hw : w.req.writes ≠ none)
    (hok : ApplyOk s (.logged w)) {x : Reply} (hx : serve s.store w.req = some x) :
    ∃ s', s' = s.served w.req (if x.1 = exitSuccess then s.pending ++ [w] else s.pending) x.2.2 ∧
      LogCovers.Inv s' ∧ (x.1 = exitSuccess → Kept s' w) := by
  refine ⟨_, rfl, ?_⟩
  obtain ⟨hb, he⟩ := serve_effect h.bst (not_lends (hok.imp_right And.left)) hx
  have hread : (tableOf x.2.2.T).Readable := by
    rcases he with hnull | ⟨-, ht | ht⟩
    · rw [hnull]
      exact readable_empty
    · rw [ht]
      exact h.readable
    · rw [ht]
      exact tableStep_readable h.readable _
  by_cases hrej : w.req.Rejected s.store
  · obtain ⟨hne, hT, hnone⟩ := serve_rejected hx hrej
    rw [if_neg hne]
    obtain ⟨hi, -⟩ := h.served hx hb hread (fun _ h' => h')
      (fun _ w' hw' => by rw [hT]; exact h.held w' hw')
      (fun B hB => by rw [hnone] at hB; cases hB)
    exact ⟨hi, fun he => absurd he hne⟩
  · obtain ⟨hl, hin⟩ := hok.resolve_left hrej
    obtain ⟨hsucc, k, v, f, T, -, hk, hr, ht, hplace⟩ := serve_lands h.bst h.readable hx hw hrej hl
    have hall : ∀ w' ∈ s.pending ++ [w], (⟨T.entries, s.pending ++ [w]⟩ : Batch).Holds w' := by
      intro w' hw'
      rcases List.mem_append.mp hw' with hw' | hw'
      · exact batch_holds_snoc h.bst hr ht (h.held w' hw').2
      · rw [List.mem_singleton.mp hw']
        exact holds_last hk hr (by rw [ht, Function.update_self])
    rw [if_pos hsucc]
    have hsmall : fullBatch s.store w.req = none → ∀ w' ∈ s.pending ++ [w], w' ∈ s.logged ∧
        (⟨x.2.2.T.entries, s.pending ++ [w]⟩ : Batch).Holds w' := by
      intro hn w' hw'
      rcases hplace with ⟨-, hT⟩ | hB
      · rw [hT]
        refine ⟨?_, hall w' hw'⟩
        rcases List.mem_append.mp hw' with hw' | hw'
        · exact (h.held w' hw').1
        · rw [List.mem_singleton.mp hw']
          exact hin.resolve_right fun hfills => fullBatch_of_fills hfills hn
      · rw [hB] at hn
        cases hn
    have hfull : ∀ B, fullBatch s.store w.req = some B →
        ∀ w' ∈ s.pending ++ [w], (⟨B, s.pending ++ [w]⟩ : Batch).Holds w' := by
      intro B hB w' hw'
      rcases hplace with ⟨hn, -⟩ | hB'
      · rw [hn] at hB
        cases hB
      · obtain rfl : T.entries = B := Option.some.inj (hB'.symm.trans hB)
        exact hall w' hw'
    obtain ⟨hi, hkept⟩ :=
      h.served hx hb hread (fun _ h' => List.mem_append_left _ h') hsmall hfull
    exact ⟨hi, fun _ => hkept w (by simp)⟩

/-- the timer -/
theorem timer (h : LogCovers.Inv s) {x : Reply} (hx : serve s.store .timer = some x) :
    LogCovers.Inv (s.served .timer s.pending x.2.2) := by
  have hnull : x.2.2.T = .null := by
    obtain ⟨s1, hd, rfl⟩ := Option.map_eq_some_iff.mp hx
    exact (c0Dump_frame hd).2
  refine (h.served hx (by rw [hnull]; exact C0Node.bst_null) (by rw [hnull]; exact readable_empty)
    (fun _ hw => hw) ?_ ?_).1
  · intro hn w hw
    rw [fullBatch] at hn
    split_ifs at hn with hsize
    rw [hnull, ← c0Size_eq_zero.mp hsize]
    exact h.held w hw
  · intro B hB w hw
    rw [fullBatch] at hB
    split_ifs at hB with hsize
    rw [← Option.some.inj hB]
    exact (h.held w hw).2

variable [DecidableEq ι]

/-- a thread goes on to another phase -/
theorem setPhase (h : LogCovers.Inv s) (t : ι) {p : Phase}
    (hl : ∀ w, p = .logged w → w.req.writes ≠ none)
    (ha : ∀ w, p = .applied w exitSuccess → Kept s w) :
    LogCovers.Inv { s with phase := Function.update s.phase t p } := by
  refine ⟨h.bst, h.readable, h.present, h.entries, ?_, h.held, ?_, h.acked⟩
  · intro u w hu
    by_cases hut : u = t
    · subst hut
      exact hl w ((Function.update_self u p s.phase).symm.trans hu)
    · exact h.writes u w ((Function.update_of_ne hut p s.phase).symm.trans hu)
  · intro u w hu
    by_cases hut : u = t
    · subst hut
      exact ha w ((Function.update_self u p s.phase).symm.trans hu)
    · exact h.applied u w ((Function.update_of_ne hut p s.phase).symm.trans hu)

/-- **One step of one thread.** -/
theorem step {s' : Threads ι} (h : LogCovers.Inv s) {a : Act ι} (hok : ActOk s a)
    (hs : s.step a = some s') : LogCovers.Inv s' := by
  cases a with
  | log t txid line =>
    cases hp : s.phase t with
    | idle =>
      cases hq : (command line).write with
      | some q =>
        simp only [Threads.step, hp, hq, Option.some.injEq] at hs
        subst hs
        refine (h.log txid line q).setPhase t ?_ (fun w hw => by cases hw)
        intro w hw
        cases hw
        exact writes_of_write hq
      | none => simp only [Threads.step, hp, hq] at hs; cases hs
    | logged w => simp only [Threads.step, hp] at hs; cases hs
    | applied w rc => simp only [Threads.step, hp] at hs; cases hs
  | apply t =>
    cases hp : s.phase t with
    | logged w =>
      simp only [Threads.step, hp] at hs
      obtain ⟨x, hx, hs⟩ := Option.bind_eq_some_iff.mp hs
      cases hs
      have hok' : ApplyOk s (.logged w) := by
        rw [← hp]
        exact hok
      obtain ⟨s1, hs1, hi, hkept⟩ := h.apply (h.writes t w hp) hok' hx
      rw [← hs1]
      refine hi.setPhase t (fun w' hw' => by cases hw') ?_
      intro w' hw'
      obtain ⟨rfl, hrc⟩ := Phase.applied.inj hw'
      exact hkept hrc
    | idle => simp only [Threads.step, hp] at hs; cases hs
    | applied w rc => simp only [Threads.step, hp] at hs; cases hs
  | reply t =>
    cases hp : s.phase t with
    | applied w rc =>
      simp only [Threads.step, hp, Option.some.injEq] at hs
      subst hs
      have hack : ∀ w' ∈ (if rc = exitSuccess then w :: s.acked else s.acked), Kept s w' := by
        intro w' hw'
        split_ifs at hw' with hrc
        · rcases List.mem_cons.mp hw' with rfl | hw'
          · exact h.applied t w' (by rw [hp, hrc])
          · exact h.acked w' hw'
        · exact h.acked w' hw'
      have h1 : LogCovers.Inv { s with
          acked := if rc = exitSuccess then w :: s.acked else s.acked } :=
        ⟨h.bst, h.readable, h.present, h.entries, h.writes, h.held, h.applied, hack⟩
      exact h1.setPhase t (fun w' hw' => by cases hw') (fun w' hw' => by cases hw')
    | idle => simp only [Threads.step, hp] at hs; cases hs
    | logged w => simp only [Threads.step, hp] at hs; cases hs
  | timer =>
    obtain ⟨x, hx, hs⟩ := Option.bind_eq_some_iff.mp hs
    cases hs
    exact h.timer hx

end LogCovers.Inv

variable [DecidableEq ι]

/-- **Log coverage.**  In every state that steps of `ActOk` reach, a batch that was written holds
an acknowledged write or `tx_log` still has its entry. -/
theorem log_covers (acts : List (Act ι)) (hg : Guarded Threads.step ActOk Threads.empty acts)
    (s : Threads ι) (hr : run Threads.step Threads.empty acts = some s) : LogCovers s :=
  (inv_of_guarded (fun _ _ _ h hok hs => LogCovers.Inv.step h hok hs) LogCovers.Inv.empty hg
    hr).logCovers

end invariant

/-- two threads; both writes are applied before the timer flushes -/
def timelyRun : List (Act Bool) :=
  [.log true 11 "PUT b 2".toList, .log false 12 "INSERT a 1".toList, .apply false, .apply true,
    .timer, .reply false, .reply true, .log true 13 "DELETE c".toList, .apply true, .reply true]

theorem log_covers_timelyRun :
    ∃ s, run Threads.step Threads.empty timelyRun = some s ∧ LogCovers s :=
  ⟨_, rfl, log_covers timelyRun (by decide) _ rfl⟩

/-- the timer flushes between the log entry of PUT b and its place in the tree -/
def lateRun : List (Act Bool) :=
  [.log true 11 "PUT b 2".toList, .log false 12 "PUT a 1".toList, .apply false, .timer,
    .reply false, .apply true, .reply true]

/-- An acknowledged write with no entry that no batch holds. -/
theorem late_write_uncovered : ∃ s w, run Threads.step Threads.empty lateRun = some s ∧
    w ∈ s.acked ∧ s.store.txLog = none ∧ ¬ Covers s w := by
  refine ⟨_, ⟨0, ⟨11, "PUT b 2".toList, 1, 1⟩, .put ['b'] ['2']⟩, rfl, List.mem_cons_self, rfl, ?_⟩
  rintro (h | ⟨b, hb, before, after, hws, -⟩)
  · cases h
  · rw [List.mem_singleton.mp hb] at hws
    have hmem : (⟨0, ⟨11, "PUT b 2".toList, 1, 1⟩, .put ['b'] ['2']⟩ : Write) ∈
        [(⟨1, ⟨12, "PUT a 1".toList, 1, 1⟩, .put ['a'] ['1']⟩ : Write)] := by
      show _ ∈ _
      rw [show [(⟨1, ⟨12, "PUT a 1".toList, 1, 1⟩, .put ['a'] ['1']⟩ : Write)] = _ from hws]
      simp
    revert hmem
    decide

end LsmKv
