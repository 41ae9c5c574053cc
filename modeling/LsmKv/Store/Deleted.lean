import LsmKv.Lib.Run
import LsmKv.Store

/-!
# Deleted keys

What a GET returns is traced back to the requests: `Logged` runs the accepted mutating requests
beside the store.

* `storedFor hist k`      the values that were stored for `k`;
* `Origin`                the value was stored for the key, or is the placeholder of a deletion;
* `Deleted.Inv`           all that is cached, held by `_T` or written to c1 has an origin;
* `get_origin`            what a GET returns has an origin, and its return code is success;
* `get_deleted`           no GET of a deleted key reports it absent.
-/

namespace LsmKv

open KeySorted Run

/-- the request as a client sends it -/
def Req.line : Req → CStr
  | .put key value => "PUT ".toList ++ (key ++ ' ' :: value)
  | .insert key value => "INSERT ".toList ++ (key ++ ' ' :: value)
  | .delete key => "DELETE ".toList ++ key
  | .get key => "GET ".toList ++ key
  | .timer => []

/-- the store and the accepted mutating requests, oldest first -/
structure Logged where
  store : Store
  hist : List Req

namespace Logged

def empty : Logged := ⟨Store.empty, []⟩

def step (t : Logged) (r : Req) : Option Logged :=
  (serve t.store r).map fun reply =>
    ⟨reply.2.2, if reply.1 = exitSuccess ∧ r.writes ≠ none then t.hist ++ [r] else t.hist⟩

end Logged

/-- the values stored for a key -/
def storedFor (hist : List Req) (key : CStr) : List CStr :=
  hist.filterMap fun
    | .put k v => if k = key then some v else none
    | .insert k v => if k = key then some v else none
    | _ => none

/-- the latest accepted mutating request of the key -/
def lastWrite (hist : List Req) (key : CStr) : Option Req :=
  (hist.filter fun r => r.writes = some key).getLast?

/-- the latest accepted mutating request of the key is a DELETE -/
def IsDeleted (t : Logged) (key : CStr) : Prop := lastWrite t.hist key = some (.delete key)

/-- A GET of the key completes with something other than a value stored for it or the
placeholder, and says by its return code or by an empty response that there is nothing. -/
def ReportsAbsent (t : Logged) (key : CStr) : Prop :=
  ∃ rc ret s, serve t.store (.get key) = some (rc, ret, s) ∧ ret ∉ storedFor t.hist key ∧
    ret ≠ invalidDelete ∧ (rc ≠ exitSuccess ∨ ret = [])

/-- key and value are tokens of a request line that a handler reads whole -/
def Token (r : Req) : Prop :=
  (match r with
    | .put key value => Word key ∧ Word value
    | .insert key value => Word key ∧ Word value
    | .delete key => Word key
    | _ => True) ∧ r.line.length < maxEntrySize

/-! ## origins -/

/-- `tok` says whether all requests of the run are made of tokens: a value that is none can be
cut or scanned to something else, but not to nothing. -/
def Origin (tok : Prop) (hist : List Req) (key value : CStr) : Prop :=
  value ∈ storedFor hist key ∨ value = invalidDelete ∨ ¬ tok ∧ value ≠ []

/-- words that leave room for the flag in a record -/
structure Room (e : Entry) : Prop where
  key : Word e.key
  value : Word e.value.chars
  size : e.key.length + e.value.chars.length + 14 < lineSize
  flag : e.flag = 0 ∨ e.flag = 1

theorem Room.fits {e : Entry} (h : Room e) : Fits e := by
  refine ⟨h.key, h.value, isInt_flag h.flag, ?_⟩
  have hf : (fmtInt e.flag).length = 1 := by
    rcases h.flag with hf | hf <;> rw [hf] <;> rfl
  have := h.size
  simp only [record, List.length_append, List.length_cons, List.length_nil, hf]
  omega

structure Sourced (tok : Prop) (hist : List Req) (e : Entry) : Prop where
  origin : Origin tok hist e.key e.value.chars
  room : tok → Room e

/-- the record of an entry with an origin, or a blank one -/
def SourcedLine (tok : Prop) (hist : List Req) (l : Line) : Prop :=
  l = blank ∨ ∃ e, Sourced tok hist e ∧ keyval e = l

/-- Everything the store holds has an origin. -/
structure Deleted.Inv (tok : Prop) (s : Store) (hist : List Req) : Prop where
  wf : s.cache.Wf
  bst : s.T.Bst
  cache : ∀ n ∈ s.cache.nodes, Origin tok hist n.1 n.2
  tree : ∀ e ∈ s.T.entries, Sourced tok hist e
  file : ∀ l ∈ s.c1.current, SourcedLine tok hist l

section
variable {tok : Prop} {hist : List Req}

theorem storedFor_append (hist : List Req) (rs : List Req) (key : CStr) :
    storedFor (hist ++ rs) key = storedFor hist key ++ storedFor rs key :=
  List.filterMap_append ..

theorem Origin.append {key value : CStr} (h : Origin tok hist key value) (rs : List Req) :
    Origin tok (hist ++ rs) key value := by
  rcases h with h | h
  · left
    rw [storedFor_append]
    exact List.mem_append_left _ h
  · exact Or.inr h

theorem Sourced.append {e : Entry} (h : Sourced tok hist e) (rs : List Req) :
    Sourced tok (hist ++ rs) e := ⟨h.origin.append rs, h.room⟩

theorem SourcedLine.append {l : Line} (h : SourcedLine tok hist l) (rs : List Req) :
    SourcedLine tok (hist ++ rs) l := by
  rcases h with h | ⟨e, he, hl⟩
  · exact Or.inl h
  · exact Or.inr ⟨e, he.append rs, hl⟩

theorem Deleted.Inv.append {s : Store} (h : Deleted.Inv tok s hist) (rs : List Req) :
    Deleted.Inv tok s (hist ++ rs) :=
  ⟨h.wf, h.bst, fun n hn => (h.cache n hn).append rs, fun e he => (h.tree e he).append rs,
    fun l hl => (h.file l hl).append rs⟩

theorem Deleted.Inv.empty : Deleted.Inv tok Store.empty [] where
  wf := Cache.Wf.empty
  bst := C0Node.bst_null
  cache := by simp [Store.empty, Cache.empty]
  tree := by simp [Store.empty]
  file := by simp [Store.empty, C1.current, C1.empty]

theorem scanWord_ne_nil {s w r : CStr} (h : scanWord s = some (w, r)) : w ≠ [] := by
  unfold scanWord at h
  dsimp only at h
  split at h
  · cases h
  · rename_i hne
    cases h
    exact hne

/-- the value field of a record is not empty -/
theorem sscanf_value_ne_nil {l : Line} {v : CStr} (h : (sscanf l).2.1 = some v) : v ≠ [] := by
  unfold sscanf at h
  split at h
  · cases h
  · split at h
    · cases h
    · rename_i hv
      cases h
      exact scanWord_ne_nil hv

/-- **The fields of a record have the origin of its entry.** -/
theorem SourcedLine.origin {l : Line} (h : SourcedLine tok hist l) {k v : CStr}
    (hk : (sscanf l).1 = some k) (hv : (sscanf l).2.1 = some v) : Origin tok hist k v := by
  rcases h with rfl | ⟨e, he, rfl⟩
  · rw [sscanf_blank] at hk
    cases hk
  · by_cases ht : tok
    · rw [sscanf_keyval (he.room ht).fits] at hk hv
      cases hk
      cases hv
      exact he.origin
    · exact Or.inr (Or.inr ⟨ht, sscanf_value_ne_nil hv⟩)

/-! ## the steps -/

theorem c0Dump_file {T : C0Node} {s s' : Store} (hT : ∀ e ∈ T.entries, Sourced tok hist e)
    (hf : ∀ l ∈ s.c1.current, SourcedLine tok hist l) (h : c0Dump T s = some s') :
    ∀ l ∈ s'.c1.current, SourcedLine tok hist l := by
  by_cases hnull : T = .null
  · subst hnull
    rw [c0Dump_null] at h
    cases h
    exact hf
  · rw [c0Dump_eq hnull, Option.map_eq_some_iff] at h
    obtain ⟨⟨rc, c'⟩, hc, rfl⟩ := h
    intro l hl
    rcases c1BatchInsert_mem hc l hl with hl' | hl' | rfl
    · obtain ⟨e, he, rfl⟩ := List.mem_map.mp hl'
      exact Or.inr ⟨e, hT e he, rfl⟩
    · exact hf l hl'
    · exact Or.inl rfl

theorem insert_sourced {T : C0Node} (hb : T.Bst) (hT : ∀ e ∈ T.entries, Sourced tok hist e)
    {key value : CStr} {flag : Int} (hnew : Sourced tok hist ⟨key, ⟨value, false⟩, flag⟩) :
    ∀ e ∈ (T.insert key value flag).entries, Sourced tok hist e := by
  intro e he
  rw [C0Node.entries_insert hb] at he
  rcases mem_insertNew he with rfl | he'
  · exact hnew
  · exact hT e he'

theorem update_sourced {T : C0Node} (hb : T.Bst) (hT : ∀ e ∈ T.entries, Sourced tok hist e)
    {key : CStr} {e : Entry} (hg : T.get key = some e) {p : CPtr} {flag : Int}
    (hnew : Sourced tok hist ⟨key, p, flag⟩) :
    ∀ e ∈ (T.update key p flag).2.entries, Sourced tok hist e := by
  intro x hx
  rcases (C0Node.mem_update hb hg p flag x).mp hx with rfl | ⟨-, hx'⟩
  · exact hnew
  · exact hT x hx'

namespace Deleted.Inv
variable {s s' : Store}

theorem insertC0 (h : Deleted.Inv tok s hist) {key value : CStr}
    (hnew : Sourced tok hist ⟨key, ⟨value, false⟩, 0⟩) (hs : insertC0 s key value = some s') :
    Deleted.Inv tok s' hist := by
  have hT := insert_sourced h.bst h.tree hnew
  rcases insertC0_cases hs with ⟨-, rfl⟩ | ⟨-, hd⟩
  · exact ⟨h.wf, h.bst.insert _ _ _, h.cache, hT, h.file⟩
  · obtain ⟨hca, hnull⟩ := c0Dump_frame hd
    refine ⟨by rw [hca]; exact h.wf, by rw [hnull]; exact C0Node.bst_null,
      by rw [hca]; exact h.cache, by rw [hnull]; simp, ?_⟩
    exact c0Dump_file (s := { s with T := .null }) hT h.file hd

theorem putC0 (h : Deleted.Inv tok s hist) {key value : CStr}
    (hnew : ∀ lent, Sourced tok hist ⟨key, ⟨value, lent⟩, 0⟩) (hs : putC0 s key value = some s') :
    Deleted.Inv tok s' hist := by
  cases hg : s.T.get key with
  | none =>
    rw [putC0_insert hg] at hs
    exact h.insertC0 (hnew false) hs
  | some e =>
    rw [putC0_root hg] at hs
    cases hs
    exact ⟨h.wf, h.bst.update hg _ _, h.cache, update_sourced h.bst h.tree hg (hnew true), h.file⟩

/-- a pair with an origin is cached -/
theorem cachePut (h : Deleted.Inv tok s hist) {key value : CStr} {cache : Cache}
    (hp : cachePut s.cache key value = some cache) (hnew : Origin tok hist key value) :
    Deleted.Inv tok { s with cache := cache } hist := by
  obtain ⟨cache', hp', hwf, -, hmem⟩ := h.wf.put key value
  obtain rfl : cache = cache' := Option.some.inj (hp.symm.trans hp')
  refine ⟨hwf, h.bst, fun n hn => ?_, h.tree, h.file⟩
  rcases hmem n hn with rfl | ⟨-, hn'⟩
  · exact hnew
  · exact h.cache n hn'

theorem lookup (h : Deleted.Inv tok s hist) (key : CStr) :
    Deleted.Inv tok { s with cache := (cacheGet s.cache key).2 } hist :=
  ⟨h.wf.get key, h.bst, fun n hn => h.cache n ((h.wf.mem_get key n).mp hn), h.tree, h.file⟩

theorem delete (h : Deleted.Inv tok s hist) {key : CStr}
    (hnew : Sourced tok hist ⟨key, ⟨invalidDelete, false⟩, 1⟩) :
    Deleted.Inv tok { deleteC0 s key with cache := cacheInvalidate s.cache key } hist := by
  obtain ⟨hcwf, hmem⟩ := h.wf.invalidate key
  obtain ⟨-, hc1, -⟩ := deleteC0_frame s key
  have hT : (deleteC0 s key).T.Bst ∧ ∀ e ∈ (deleteC0 s key).T.entries, Sourced tok hist e := by
    unfold deleteC0
    cases hg : s.T.get key with
    | none => exact ⟨h.bst.insert _ _ _, insert_sourced h.bst h.tree hnew⟩
    | some e =>
      obtain ⟨a, b, -, heq, -⟩ := C0Node.update_root hg e.value 1
      obtain ⟨hmem, hk⟩ := C0Node.get_mem hg
      have he := h.tree e hmem
      simp only [hk, heq]
      refine ⟨h.bst.update hg _ _, update_sourced h.bst h.tree hg ⟨hk ▸ he.origin, fun ht => ?_⟩⟩
      obtain ⟨h1, h2, h3, -⟩ := he.room ht
      exact ⟨hk ▸ h1, h2, hk ▸ h3, Or.inr rfl⟩
  refine ⟨hcwf, hT.1, fun n hn => h.cache n ((hmem n).mp hn).1, hT.2, ?_⟩
  show ∀ l ∈ (deleteC0 s key).c1.current, _
  rw [hc1]
  exact h.file

end Deleted.Inv

/-- a request line that is read whole leaves room in the record of its key and value -/
theorem line_room {cmd key value : CStr}
    (h : (cmd ++ (key ++ ' ' :: value)).length < maxEntrySize) :
    key.length + value.length + 14 < lineSize := by
  rw [List.length_append, List.length_append, List.length_cons, maxEntrySize_eq] at h
  rw [lineSize_eq]
  omega

theorem sourced_put {key value : CStr} (ht : tok → Token (.put key value)) (lent : Bool) :
    Sourced tok (hist ++ [.put key value]) ⟨key, ⟨value, lent⟩, 0⟩ := by
  refine ⟨Or.inl ?_, fun htok => ?_⟩
  · rw [storedFor_append]
    simp [storedFor]
  · obtain ⟨⟨hk, hv⟩, hsize⟩ := ht htok
    exact ⟨hk, hv, line_room hsize, Or.inl rfl⟩

theorem sourced_insert {key value : CStr} (ht : tok → Token (.insert key value)) :
    Sourced tok (hist ++ [.insert key value]) ⟨key, ⟨value, false⟩, 0⟩ := by
  refine ⟨Or.inl ?_, fun htok => ?_⟩
  · rw [storedFor_append]
    simp [storedFor]
  · obtain ⟨⟨hk, hv⟩, hsize⟩ := ht htok
    exact ⟨hk, hv, line_room hsize, Or.inl rfl⟩

theorem sourced_delete {key : CStr} (ht : tok → Token (.delete key)) :
    Sourced tok hist ⟨key, ⟨invalidDelete, false⟩, 1⟩ := by
  refine ⟨Or.inr (Or.inl rfl), fun htok => ?_⟩
  obtain ⟨hk, hsize⟩ := ht htok
  have hword : Word invalidDelete := by decide
  have hlen : ("DELETE ".toList ++ key).length < maxEntrySize := hsize
  refine ⟨hk, hword, ?_, Or.inr rfl⟩
  show key.length + 14 + 14 < lineSize
  rw [List.length_append, maxEntrySize_eq, show "DELETE ".toList.length = 7 from rfl] at hlen
  rw [lineSize_eq]
  omega

/-- what a GET returns has an origin, and is cached -/
theorem get_origin {s : Store} (h : Deleted.Inv tok s hist) {key : CStr} {reply : Reply}
    (hs : server1GetRequest s key = some reply) :
    reply.1 = exitSuccess ∧ Origin tok hist key reply.2.1 ∧ Deleted.Inv tok reply.2.2 hist := by
  rcases get_eq hs with ⟨v, hv, rfl⟩ | ⟨-, v, cache, hp, rfl, hsrc⟩
  · exact ⟨rfl, h.cache _ hv, h.lookup key⟩
  · have hv : Origin tok hist key v := by
      rcases hsrc with ⟨e, hg, rfl⟩ | ⟨-, hc⟩
      · obtain ⟨hmem, hk⟩ := C0Node.get_mem hg
        exact hk ▸ (h.tree e hmem).origin
      · obtain ⟨file, line, hfile, hline, h1, h2⟩ := c1Get_mem hc
        exact (h.file line (current_eq hfile ▸ hline)).origin h1 h2
    exact ⟨rfl, hv, h.cachePut hp hv⟩

/-- **One step.** -/
theorem Deleted.Inv.step {t t' : Logged} (h : Deleted.Inv tok t.store t.hist) {r : Req}
    (ht : tok → Token r) (hs : t.step r = some t') : Deleted.Inv tok t'.store t'.hist := by
  obtain ⟨reply, hserve, rfl⟩ := Option.map_eq_some_iff.mp hs
  cases r with
  | put key value =>
    obtain ⟨s1, cache, h1, hp, rfl⟩ := put_eq hserve
    rw [← putC0_frame h1] at hp
    rw [if_pos ⟨rfl, by simp [Req.writes]⟩]
    exact ((h.append _).putC0 (sourced_put ht) h1).cachePut hp (sourced_put ht false).origin
  | insert key value =>
    rcases insert_eq hserve with ⟨-, rfl⟩ | ⟨-, -, s1, cache, h1, hp, rfl⟩
    · rw [if_neg fun hrc => exit_ne hrc.1]
      exact h.lookup key
    · rw [← insertC0_frame h1] at hp
      rw [if_pos ⟨rfl, by simp [Req.writes]⟩]
      exact ((h.append _).insertC0 (sourced_insert ht) h1).cachePut hp (sourced_insert ht).origin
  | delete key =>
    cases hserve
    rw [if_pos ⟨rfl, by simp [Req.writes]⟩]
    have := (h.append [.delete key]).delete (sourced_delete ht)
    rwa [← (deleteC0_frame t.store key).1] at this
  | get key =>
    rw [if_neg (by simp [Req.writes])]
    exact (get_origin h hserve).2.2
  | timer =>
    obtain ⟨s1, hd, rfl⟩ := Option.map_eq_some_iff.mp hserve
    rw [if_neg (by simp [Req.writes])]
    obtain ⟨hca, hnull⟩ := c0Dump_frame hd
    refine ⟨by rw [hca]; exact h.wf, by rw [hnull]; exact C0Node.bst_null,
      by rw [hca]; exact h.cache, by rw [hnull]; simp, ?_⟩
    exact c0Dump_file (s := { t.store with T := .null }) h.tree h.file hd

end

/-- everything in a reached store has an origin -/
theorem deleted_inv_of_run {rs : List Req} {t : Logged}
    (hr : run Logged.step Logged.empty rs = some t) :
    Deleted.Inv (∀ r ∈ rs, Token r) t.store t.hist := by
  refine inv_of_guarded (fun s r u (h : Deleted.Inv (∀ r ∈ rs, Token r) s.store s.hist)
    (hok : (∀ r ∈ rs, Token r) → Token r) hs => h.step hok hs) Deleted.Inv.empty ?_ hr
  exact guarded_of_forall fun r hr _ htok => htok r hr

/-- **What a GET returns**, after a run of requests made of tokens: a value that was stored for
its key, or the placeholder of a deletion; always with success. -/
theorem get_stored {rs : List Req} (hrs : ∀ r ∈ rs, Token r) {t : Logged}
    (hr : run Logged.step Logged.empty rs = some t) {k ret : CStr} {rc : Int} {s : Store}
    (hs : serve t.store (.get k) = some (rc, ret, s)) :
    rc = exitSuccess ∧ (ret ∈ storedFor t.hist k ∨ ret = invalidDelete) := by
  obtain ⟨hrc, horigin, -⟩ := get_origin (deleted_inv_of_run hr) hs
  refine ⟨hrc, ?_⟩
  rcases horigin with h | h | ⟨h, -⟩
  · exact Or.inl h
  · exact Or.inr h
  · exact absurd hrs h

/-- **No deleted key is reported absent**: GET has no return code for it, and where it does not
crash on the missing value it finds a value of the key or the placeholder. -/
theorem get_deleted (rs : List Req) (t : Logged)
    (hr : run Logged.step Logged.empty rs = some t) (k : CStr) (_hd : IsDeleted t k) :
    ¬ ReportsAbsent t k := by
  rintro ⟨rc, ret, s, hs, hno, hinv, habs⟩
  obtain ⟨hrc, horigin, -⟩ := get_origin (deleted_inv_of_run hr) hs
  have hne : ret = [] := habs.resolve_left fun h => h hrc
  rcases horigin with h | h | ⟨-, h⟩
  · exact hno h
  · exact hinv h
  · exact h hne

/-- a key put and deleted -/
def deletedRun : List Req := [.put ['a'] ['1'], .delete ['a']]

/-- the state after it -/
def deletedState : Logged := ⟨⟨Cache.empty,
  .node ['a'] ⟨['1'], false⟩ .null .null 0 1, C1.empty, none⟩, deletedRun⟩

theorem run_deletedRun : run Logged.step Logged.empty deletedRun = some deletedState := rfl

theorem get_deleted_deletedRun : ¬ ReportsAbsent deletedState ['a'] :=
  get_deleted deletedRun deletedState run_deletedRun ['a'] rfl

/-- The deleted value is read. -/
theorem get_deleted_value : ∃ s, run Logged.step Logged.empty deletedRun = some deletedState ∧
    IsDeleted deletedState ['a'] ∧ ['1'] ∈ storedFor deletedState.hist ['a'] ∧
    serve deletedState.store (.get ['a']) = some (exitSuccess, ['1'], s) :=
  ⟨_, run_deletedRun, rfl, by decide, rfl⟩

end LsmKv
