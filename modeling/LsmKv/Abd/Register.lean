import LsmKv.Lib.Run
import LsmKv.Lib.MaxRegister
import LsmKv.Abd

/-!
# One ABD server as a register

The requests of one key, which is stored with its tag and not flushed.

* `AbdReq`, `abdStep`        the requests; each comes with what `search_tag` held before;
* `Register`                 what the key should hold: the write with the greatest tag;
* `Stores s key g`           the node of `key`, and its cache entry, hold the register `g`;
* `AbdReqOk`                 the request does to the store what it does to the register;
* `abdStep_stores`           one request, and `stores_of_guarded` a run of them;
* `register_law`             after every prefix of such a run the store holds the register.
-/

namespace LsmKv

open KeySorted Run

inductive AbdReq where
  | put (value : CStr) (tag : AbdTag)
  | insert (value : CStr) (tag : AbdTag)
  | delete (tag : AbdTag)
  deriving DecidableEq, Repr

/-- the reply to one request of `key`; `searchTag` is the variable before it is set -/
def serveAbd (s : Store) (key : CStr) (searchTag : AbdTag) : AbdReq → Option Reply
  | .put value tag => server1PutRequestAbd s key value tag searchTag
  | .insert value tag => server1InsertRequestAbd s key value tag searchTag
  | .delete tag => server1DeleteRequestAbd s key tag searchTag

def abdStep (key : CStr) (s : Store) (r : AbdReq × AbdTag) : Option Store :=
  (serveAbd s key r.2 r.1).map fun reply => reply.2.2

/-- the register of one key; a deleted one keeps its value and its tag -/
structure Register where
  value : CStr
  tag : AbdTag
  deleted : Bool
  deriving DecidableEq, Repr

/-- a request takes effect exactly when its tag is greater -/
def Register.apply (g : Register) : AbdReq → Register
  | .put value tag => if g.tag < tag then ⟨value, tag, false⟩ else g
  | .insert value tag => if g.tag < tag then ⟨value, tag, false⟩ else g
  | .delete tag => if g.tag < tag then { g with deleted := true } else g

/-- The key is stored: its node, and its cache entry if it has one, hold the register. -/
structure Stores (s : Store) (key : CStr) (g : Register) : Prop where
  bst : s.T.Bst
  cache : s.cache.Wf
  node : ∃ e, s.T.find key = some e ∧ Tagged e.value.chars g.value g.tag ∧
    e.flag = if g.deleted then 1 else 0
  cached : ∀ v, (key, v) ∈ s.cache.nodes → Tagged v g.value g.tag

/-- value and tag of the node of `key` -/
def storedTag (s : Store) (key : CStr) : Option (CStr × AbdTag) :=
  (s.T.find key).map fun e => sscanfTag e.value.chars [] ⟨0, 0⟩

/-- what a request must find, next to the stored value and tag -/
def AbdReqFits (atRoot : Prop) (stored : CStr × AbdTag) (searchTag : AbdTag) : AbdReq → Prop
  | .put value tag => stored.2 < tag → atRoot ∧ value = stored.1 ∧ TagFits value tag
  | .insert _ tag => ¬ stored.2 < tag
  | .delete tag => atRoot ∧ (searchTag < tag ↔ stored.2 < tag) ∨ ¬ atRoot ∧ ¬ stored.2 < tag

/-- The key can be read.  A PUT with a greater tag finds it at the root with the value it puts, no
INSERT has a greater tag, and a DELETE compares with the variable as it would with the tag. -/
def AbdReqOk (key : CStr) (s : Store) (r : AbdReq × AbdTag) : Prop :=
  (s.cache.Has key ∨ s.T.get key ≠ none) ∧
    ∀ stored, storedTag s key = some stored → AbdReqFits (s.T.get key ≠ none) stored r.2 r.1

instance (p : Prop) [Decidable p] (stored : CStr × AbdTag) (searchTag : AbdTag) :
    (r : AbdReq) → Decidable (AbdReqFits p stored searchTag r)
  | .put _ _ => inferInstanceAs (Decidable (_ → _))
  | .insert _ _ => inferInstanceAs (Decidable (¬ _))
  | .delete _ => inferInstanceAs (Decidable (_ ∨ _))

instance (key : CStr) (s : Store) (r : AbdReq × AbdTag) : Decidable (AbdReqOk key s r) :=
  inferInstanceAs (Decidable (_ ∧ ∀ stored, storedTag s key = some stored → _))

/-! ## one request -/

section step
variable {s : Store} {key : CStr} {g : Register}

theorem Stores.storedTag (h : Stores s key g) :
    LsmKv.storedTag s key = some (g.value, g.tag) := by
  obtain ⟨e, he, ht, -⟩ := h.node
  rw [LsmKv.storedTag, he, Option.map_some, ht]

/-- **The search before a request** reads the register and leaves it. -/
theorem Stores.search (h : Stores s key g) (hread : s.cache.Has key ∨ s.T.get key ≠ none) :
    ∃ buffer cache,
      server1GetRequest s key = some (exitSuccess, buffer, { s with cache := cache }) ∧
      Tagged buffer g.value g.tag ∧ Stores { s with cache := cache } key g := by
  unfold server1GetRequest
  cases hc : (cacheGet s.cache key).1 with
  | some v =>
    obtain ⟨hv, -⟩ := cacheGet_hit hc
    have hmem := h.cache.mem_get key
    simp only [hc]
    exact ⟨v, _, rfl, h.cached v hv,
      ⟨h.bst, h.cache.get key, h.node, fun w hw => h.cached w ((hmem _).mp hw)⟩⟩
  | none =>
    obtain ⟨hno, hsame⟩ := cacheGet_miss hc
    obtain ⟨e, he⟩ := Option.ne_none_iff_exists'.mp (hread.resolve_left hno)
    obtain ⟨e', hfind, ht, hflag⟩ := h.node
    obtain rfl : e = e' := Option.some.inj ((C0Node.get_find h.bst he).symm.trans hfind)
    obtain ⟨cache, hput, hwf, -, hother⟩ := h.cache.put key e.value.chars
    simp only [hc, he, hsame, hput]
    refine ⟨e.value.chars, cache, rfl, ht, ⟨h.bst, hwf, ⟨e, hfind, ht, hflag⟩, ?_⟩⟩
    intro w hw
    rcases hother _ hw with heq | ⟨hne, -⟩
    · rw [(Prod.mk.inj heq).2]
      exact ht
    · exact absurd rfl hne

/-- a node at the root is given another string -/
theorem Stores.put (h : Stores s key g) (hroot : s.T.get key ≠ none) {str value : CStr}
    {tag : AbdTag} (ht : Tagged str value tag) : ∃ x, server1PutRequest s key str = some x ∧
      Stores x.2.2 key ⟨value, tag, false⟩ := by
  obtain ⟨e, he⟩ := Option.ne_none_iff_exists'.mp hroot
  obtain ⟨cache, hput, hwf, -, hother⟩ := h.cache.put key str
  have hx : server1PutRequest s key str = some (exitSuccess, success,
      { s with T := (s.T.update key ⟨str, true⟩ 0).2, cache := cache }) := by
    simp [server1PutRequest, putC0_root he, hput]
  refine ⟨_, hx, h.bst.update he _ _, hwf, ?_, ?_⟩
  · refine ⟨⟨key, ⟨str, true⟩, 0⟩, ?_, ht, rfl⟩
    show (s.T.update key ⟨str, true⟩ 0).2.find key = _
    rw [C0Node.find_update h.bst he, if_pos rfl]
  · intro w hw
    rcases hother _ hw with heq | ⟨hne, -⟩
    · rw [(Prod.mk.inj heq).2]
      exact ht
    · exact absurd rfl hne

/-- a node at the root is marked -/
theorem Stores.delete (h : Stores s key g) (hroot : s.T.get key ≠ none) :
    ∃ x, server1DeleteRequest s key = some x ∧
      Stores x.2.2 key { g with deleted := true } := by
  obtain ⟨e, he⟩ := Option.ne_none_iff_exists'.mp hroot
  obtain ⟨e', hfind, ht, -⟩ := h.node
  obtain rfl : e = e' := Option.some.inj ((C0Node.get_find h.bst he).symm.trans hfind)
  obtain ⟨hwf, hmem⟩ := h.cache.invalidate key
  obtain ⟨-, -, -, heq, -⟩ := C0Node.update_root he e.value 1
  have hT : (deleteC0 s key).T = (s.T.update key e.value 1).2 := by
    simp only [deleteC0, he, (C0Node.get_mem he).2, heq]
  have hcache : (deleteC0 s key).cache = s.cache := (deleteC0_frame s key).1
  refine ⟨_, rfl, ?_, ?_, ⟨⟨key, e.value, 1⟩, ?_, ht, rfl⟩, ?_⟩
  · show (deleteC0 s key).T.Bst
    rw [hT]
    exact h.bst.update he _ _
  · show (cacheInvalidate (deleteC0 s key).cache key).Wf
    rw [hcache]
    exact hwf
  · show (deleteC0 s key).T.find key = _
    rw [hT, C0Node.find_update h.bst he, if_pos rfl]
  · intro w hw
    rw [show Cache.nodes _ = (cacheInvalidate (deleteC0 s key).cache key).nodes from rfl,
      hcache] at hw
    exact absurd rfl ((hmem _).mp hw).2

/-- a key below the root keeps its node, whatever is deleted there -/
theorem Stores.delete_below (h : Stores s key g) (hbelow : s.T.get key = none) :
    ∃ x, server1DeleteRequest s key = some x ∧ Stores x.2.2 key g := by
  obtain ⟨e, hfind, ht, hflag⟩ := h.node
  obtain ⟨hwf, hmem⟩ := h.cache.invalidate key
  have hsame : deleteC0 s key = { s with T := s.T.insert key "invalid_delete".toList 1 } := by
    unfold deleteC0
    rw [hbelow]
  refine ⟨_, rfl, ?_⟩
  rw [hsame]
  refine ⟨h.bst.insert _ _ _, hwf, ⟨e, ?_, ht, hflag⟩, ?_⟩
  · show (s.T.insert key _ 1).find key = _
    rw [C0Node.find_insert h.bst, if_pos rfl, hfind]
    rfl
  · intro w hw
    exact absurd rfl ((hmem _).mp hw).2

/-- **One request** that is `AbdReqOk` does what it does to the register. -/
theorem abdStep_stores (h : Stores s key g) {r : AbdReq × AbdTag} (hok : AbdReqOk key s r) :
    ∃ s', abdStep key s r = some s' ∧ Stores s' key (g.apply r.1) := by
  obtain ⟨hread, hfits⟩ := hok
  have hfits' := hfits _ h.storedTag
  obtain ⟨buffer, cache, hget, ht, h1⟩ := h.search hread
  obtain ⟨r, searchTag⟩ := r
  have hval : g.value ≠ [] ∧ ∀ c ∈ g.value, isspace c = false := by
    obtain ⟨_, hw⟩ := ht.scanWord
    exact scanWord_mem hw
  cases r with
  | put value tag =>
    have hstep := putAbd_eq hget ht value tag searchTag
    by_cases hlt : g.tag < tag
    · obtain ⟨hroot, rfl, hfit⟩ := hfits' hlt
      obtain ⟨x, hx, hs⟩ := h1.put hroot (tagged_newValue hval.1 hval.2 hfit)
      rw [if_pos hlt, hx] at hstep
      exact ⟨x.2.2, congrArg (Option.map _) hstep, by rwa [Register.apply, if_pos hlt]⟩
    · rw [if_neg hlt] at hstep
      exact ⟨_, congrArg (Option.map _) hstep, by rwa [Register.apply, if_neg hlt]⟩
  | insert value tag =>
    have hstep := insertAbd_eq hget ht value tag searchTag
    rw [if_neg hfits'] at hstep
    exact ⟨_, congrArg (Option.map _) hstep, by rwa [Register.apply, if_neg hfits']⟩
  | delete tag =>
    have hstep := deleteAbd_eq hget tag searchTag
    by_cases hcmp : searchTag < tag
    · rw [if_pos hcmp] at hstep
      rcases hfits' with ⟨hroot, hiff⟩ | ⟨hbelow, hnlt⟩
      · obtain ⟨x, hx, hs⟩ := h1.delete hroot
        rw [hx] at hstep
        refine ⟨x.2.2, congrArg (Option.map _) hstep, ?_⟩
        rwa [Register.apply, if_pos (hiff.mp hcmp)]
      · obtain ⟨x, hx, hs⟩ := h1.delete_below (not_not.mp hbelow)
        rw [hx] at hstep
        refine ⟨x.2.2, congrArg (Option.map _) hstep, ?_⟩
        rwa [Register.apply, if_neg hnlt]
    · have hnlt : ¬ g.tag < tag := by
        rcases hfits' with ⟨-, hiff⟩ | ⟨-, hnlt⟩
        · exact fun hlt => hcmp (hiff.mpr hlt)
        · exact hnlt
      rw [if_neg hcmp] at hstep
      exact ⟨_, congrArg (Option.map _) hstep, by rwa [Register.apply, if_neg hnlt]⟩

end step

/-! ## runs -/

/-- the register after some requests -/
def Register.after (g : Register) (rs : List (AbdReq × AbdTag)) : Register :=
  rs.foldl (fun g r => g.apply r.1) g

theorem stores_of_guarded {s : Store} {key : CStr} {g : Register} (h : Stores s key g)
    (rs : List (AbdReq × AbdTag)) (hg : Guarded (abdStep key) (AbdReqOk key) s rs) :
    ∃ s', run (abdStep key) s rs = some s' ∧ Stores s' key (g.after rs) := by
  induction rs generalizing s g with
  | nil => exact ⟨s, rfl, h⟩
  | cons r rs ih =>
    obtain ⟨s1, h1, hs1⟩ := abdStep_stores h hg.1
    obtain ⟨s', h', hs'⟩ := ih hs1 (hg.2 s1 h1)
    exact ⟨s', by rw [run_cons, h1]; exact h', hs'⟩

/-- the pair a PUT brings -/
def AbdReq.putPair : AbdReq → Option (CStr × AbdTag)
  | .put value tag => some (value, tag)
  | _ => none

/-- PUTs are writes of the register with the greatest tag -/
theorem after_puts (g : Register) {rs : List (AbdReq × AbdTag)} {ps : List (CStr × AbdTag)}
    (hp : rs.map (fun r => r.1.putPair) = ps.map some) :
    ((g.after rs).value, (g.after rs).tag) = ps.foldl MaxRegister.write (g.value, g.tag) := by
  induction rs generalizing g ps with
  | nil =>
    cases ps with
    | nil => rfl
    | cons p ps => cases hp
  | cons r rs ih =>
    cases ps with
    | nil => cases hp
    | cons p ps =>
      obtain ⟨hr, hrs⟩ := List.cons.inj hp
      obtain ⟨q, searchTag⟩ := r
      cases q with
      | put value tag =>
        obtain rfl : (value, tag) = p := Option.some.inj hr
        rw [List.foldl_cons, show (g.after _) = (g.apply (.put value tag)).after rs from rfl,
          ih _ hrs]
        congr 1
        by_cases hlt : g.tag < tag
        · rw [MaxRegister.write_of_lt hlt, Register.apply, if_pos hlt]
        · rw [MaxRegister.write_of_not_lt hlt, Register.apply, if_neg hlt]
      | insert value tag => cases hr
      | delete tag => cases hr

/-- **The register law.**  After every prefix of a run of requests that are `AbdReqOk` the store
holds the register; and after PUTs alone the stored pair is one with the greatest tag. -/
theorem register_law (key : CStr) (s : Store) (g : Register) (h : Stores s key g)
    (rs : List (AbdReq × AbdTag)) (hg : Guarded (abdStep key) (AbdReqOk key) s rs) :
    (∀ p, p <+: rs → ∃ s', run (abdStep key) s p = some s' ∧ Stores s' key (g.after p)) ∧
    ∀ ps : List (CStr × AbdTag), rs.map (fun r => r.1.putPair) = ps.map some →
      let stored := ((g.after rs).value, (g.after rs).tag)
      (stored = (g.value, g.tag) ∨ stored ∈ ps) ∧ g.tag ≤ stored.2 ∧ ∀ p ∈ ps, p.2 ≤ stored.2 := by
  constructor
  · rintro p ⟨q, rfl⟩
    exact stores_of_guarded h p ((guarded_append (abdStep key) (AbdReqOk key) s p q).mp hg).1
  · intro ps hp
    rw [after_puts g hp]
    exact ⟨MaxRegister.foldl_write_mem _ ps, MaxRegister.le_foldl_write (g.value, g.tag) ps⟩

/-- one key, stored with its tag -/
def taggedStore : Store :=
  { Store.empty with T := .node ['k'] ⟨"old 1 1".toList, false⟩ .null .null 1 0 }

def oldRegister : Register := ⟨"old".toList, ⟨1, 1⟩, false⟩

theorem stores_taggedStore : Stores taggedStore ['k'] oldRegister where
  bst := List.pairwise_singleton _ _
  cache := Cache.Wf.empty
  node := ⟨_, rfl, fun _ _ => rfl, rfl⟩
  cached := by
    intro v hv
    cases hv

/-- a PUT of the value that is there, two requests that are too late, and a DELETE -/
def registerRun : List (AbdReq × AbdTag) :=
  [(.put "old".toList ⟨2, 1⟩, ⟨0, 0⟩), (.put "new".toList ⟨1, 5⟩, ⟨0, 0⟩),
    (.insert "new".toList ⟨2, 1⟩, ⟨0, 0⟩), (.delete ⟨3, 0⟩, ⟨2, 7⟩)]

theorem register_law_registerRun :
    (∀ p, p <+: registerRun → ∃ s', run (abdStep ['k']) taggedStore p = some s' ∧
      Stores s' ['k'] (oldRegister.after p)) ∧
    ∀ ps : List (CStr × AbdTag), registerRun.map (fun r => r.1.putPair) = ps.map some →
      let stored := ((oldRegister.after registerRun).value, (oldRegister.after registerRun).tag)
      (stored = (oldRegister.value, oldRegister.tag) ∨ stored ∈ ps) ∧
        oldRegister.tag ≤ stored.2 ∧ ∀ p ∈ ps, p.2 ≤ stored.2 :=
  register_law ['k'] taggedStore oldRegister stores_taggedStore registerRun (by decide)

/-- A PUT with a greater tag leaves the old value under the new tag. -/
theorem put_keeps_old_value : Stores taggedStore ['k'] oldRegister ∧
    ∃ s', abdStep ['k'] taggedStore (.put "new".toList ⟨2, 2⟩, ⟨0, 0⟩) = some s' ∧
      Stores s' ['k'] ⟨"old".toList, ⟨2, 2⟩, false⟩ ∧
      ¬ Stores s' ['k'] (oldRegister.apply (.put "new".toList ⟨2, 2⟩)) := by
  obtain ⟨buffer, cache, hget, ht, h1⟩ :=
    stores_taggedStore.search (Or.inr (by decide))
  have hfit : TagFits "old".toList ⟨2, 2⟩ := by decide
  have hroot : taggedStore.T.get ['k'] ≠ none := by decide
  obtain ⟨_, hw⟩ := ht.scanWord
  obtain ⟨hne, hspace⟩ := scanWord_mem hw
  obtain ⟨x, hx, hs⟩ := h1.put hroot (tagged_newValue hne hspace hfit)
  have hstep := putAbd_eq hget ht "new".toList ⟨2, 2⟩ ⟨0, 0⟩
  rw [if_pos (by decide)] at hstep
  refine ⟨stores_taggedStore, x.2.2, congrArg (Option.map _) (hstep.trans hx), hs, fun h => ?_⟩
  obtain ⟨e, he, htag, -⟩ := hs.node
  obtain ⟨e', he', htag', -⟩ := h.node
  obtain rfl : e = e' := Option.some.inj (he.symm.trans he')
  have hvalue := (htag.unique htag').1
  revert hvalue
  decide

end LsmKv
