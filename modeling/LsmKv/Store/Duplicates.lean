import LsmKv.C0.Lookup
import LsmKv.Store.Deleted
import LsmKv.Store.Reads

/-!
# Duplicates

What `server_1_insert_request` should find and what it looks at: the history of the key on one
side, the cache and the root of `_T` on the other.

* `IsLive`            the latest accepted write of the key is a PUT or an INSERT;
* `StoredPair`            the pair is cached, and in `_T` or, behind a dump, in the current file;
* `InsertExact`       live keys are refused and nothing changes, others are stored;
* `DumpStores`        the dump that the insertion brings about ends with the pair in the file;
* `DumpRight`         what that takes of the state before it;
* `dumpStores_iff`    and no more, if the batch and the file are well formed;
* `insertExact_iff`   when INSERT is exact, by where the key stands.
-/

namespace LsmKv

open KeySorted Run

/-- the key is stored and not deleted since -/
def IsLive (t : Logged) (key : CStr) : Prop :=
  ∃ value, lastWrite t.hist key = some (.put key value) ∨
    lastWrite t.hist key = some (.insert key value)

/-- a valid record of the pair in the current file -/
def InFile (c : C1) (key value : CStr) : Prop :=
  ∃ l ∈ c.current, sscanf l = (some key, some value, some 0)

/-- the pair is what the store holds for its key; a value that is lent is read, as the callers keep
the strings they pass -/
def StoredPair (s : Store) (key value : CStr) : Prop :=
  (key, value) ∈ s.cache.nodes ∧
    ((∃ lent, ⟨key, ⟨value, lent⟩, 0⟩ ∈ s.T.entries) ∨
      s.T.find key = none ∧ InFile s.c1 key value)

/-- `INSERT key value` refuses a live key and changes no contents, and stores any other. -/
structure InsertExact (t : Logged) (key value : CStr) : Prop where
  live : IsLive t key → ∃ s, serve t.store (.insert key value) = some (exitFailure, duplicate, s) ∧
    s.cache.nodes.Perm t.store.cache.nodes ∧ s.T = t.store.T ∧ s.c1 = t.store.c1
  other : ¬ IsLive t key → ∃ s, serve t.store (.insert key value)
    = some (exitSuccess, success, s) ∧ StoredPair s key value

/-- the batch with the new entry is flushed, and the pair is in the file behind it -/
def DumpStores (s : Store) (key value : CStr) : Prop :=
  ∃ rc c, c1BatchInsert s.c1 (s.T.insert key value 0).entries = some (rc, c) ∧ InFile c key value

/-- the insertion brings the table to its limit -/
def InsertFills (s : Store) (key value : CStr) : Prop :=
  (s.T.insert key value 0).c0Size = maxC0Size

instance (s : Store) (key value : CStr) : Decidable (InsertFills s key value) :=
  inferInstanceAs (Decidable (_ = _))

/-- the file is well formed, and so are the entries of the batch -/
structure WellFormed (s : Store) (key value : CStr) : Prop where
  file : s.c1.Wf
  batch : ∀ e ∈ (s.T.insert key value 0).entries, Storable e

/-- The state in front of an insertion that fills the table: no key is above all keys of the data
file; an old record of the key is the pair, valid; and if there is none, the insertion lands. -/
structure DumpRight (s : Store) (key value : CStr) : Prop where
  inside : ¬ Spills s.c1 (s.T.insert key value 0).entries
  old : ∀ l ∈ s.c1.current, lineKey l = key → lineVal l = value ∧ lineFlag l = 0
  new : (∀ l ∈ s.c1.current, lineKey l ≠ key) → Lands s.T key value

/-- the entry behind an insertion that does not dump -/
theorem mem_insert_iff {T : C0Node} (hb : T.Bst) {key value : CStr} (hg : T.get key = none) :
    (∃ lent, ⟨key, ⟨value, lent⟩, 0⟩ ∈ (T.insert key value 0).entries) ↔ Lands T key value := by
  constructor
  · rintro ⟨lent, hmem⟩ -
    by_cases hf : T.find key = none
    · exact Or.inl hf
    · right
      obtain ⟨e, hfe⟩ := Option.ne_none_iff_exists'.mp hf
      obtain ⟨hm, hk⟩ := lookup_some hfe
      rw [C0Node.entries_insert_of_mem hb (C0Node.mem_keys.mpr ⟨e, hm, hk⟩)] at hmem
      exact ⟨lent, hmem⟩
  · intro hl
    rw [C0Node.entries_insert hb]
    rcases hl hg with hno | ⟨lent, hmem⟩
    · exact ⟨false, self_mem_insertNew (lookup_none.mp hno)⟩
    · exact ⟨lent, mem_insertNew_of_mem hmem⟩

theorem find_insert_ne_none {T : C0Node} (hb : T.Bst) (key value : CStr) :
    (T.insert key value 0).find key ≠ none := by
  rw [C0Node.find_insert hb, if_pos rfl]
  cases T.find key <;> simp

/-- **The dump stores the pair** in the file exactly from such states: of the records of the key the
merge keeps what the old one decides, and without an old one the record of the batch. -/
theorem dumpStores_iff {s : Store} (hb : s.T.Bst) {key value : CStr} (hg : s.T.get key = none)
    (hwell : WellFormed s key value) : DumpStores s key value ↔ DumpRight s key value := by
  obtain ⟨hw, hst⟩ := hwell
  have hs : Sorted Entry.key (s.T.insert key value 0).entries := hb.insert key value 0
  obtain ⟨e, hfe⟩ := Option.ne_none_iff_exists'.mp (find_insert_ne_none hb key value)
  obtain ⟨he, hkey⟩ := lookup_some hfe
  by_cases hsp : Spills s.c1 (s.T.insert key value 0).entries
  · refine iff_of_false ?_ fun h => h.inside hsp
    rintro ⟨rc, c, hc, -⟩
    rw [c1BatchInsert_spill hw hs hst hsp] at hc
    cases hc
  · obtain ⟨c, hc, -, -, hcur⟩ := c1BatchInsert_eq hw (List.ne_nil_of_mem he) hs hst hsp
    have hiff : DumpStores s key value ↔ ∃ l ∈ mergedLines (s.T.insert key value 0).entries s.c1,
        sscanf l = (some key, some value, some 0) := by
      constructor
      · rintro ⟨rc, c', hc', l, hl, hscan⟩
        obtain ⟨-, rfl⟩ := Prod.mk.inj (Option.some.inj (hc.symm.trans hc'))
        exact ⟨l, hcur ▸ hl, hscan⟩
      · rintro ⟨l, hl, hscan⟩
        exact ⟨0, c, hc, l, hcur ▸ hl, hscan⟩
    rw [hiff]
    constructor
    · rintro ⟨l', hl', hscan⟩
      have hkey' : lineKey l' = key := by rw [lineKey, hscan]; rfl
      refine ⟨hsp, fun l hl hk => ?_, fun hno => ?_⟩
      · have hkeep := filter_mergeWith_both keeps key (fun z => decide (lineKey z = key))
          (fun z => by simp) _ _ (sorted_batchLines hs hst) hw.sorted _ (List.mem_map_of_mem he) l
          hl ((lineKey_keyval (hst _ he).fits).trans hkey) hk
        have hmem : l' ∈ keepAlone l := by
          have hm : l' ∈ (mergedLines (s.T.insert key value 0).entries s.c1).filter
              fun z => decide (lineKey z = key) := List.mem_filter.mpr ⟨hl', by simpa using hkey'⟩
          unfold mergedLines at hm
          rw [hkeep] at hm
          exact hm
        unfold keepAlone at hmem
        split_ifs at hmem with hflag
        · obtain rfl := List.mem_singleton.mp hmem
          exact ⟨by rw [lineVal, hscan]; rfl, hflag⟩
        · cases hmem
      · -- the record is one of the batch
        rw [← mem_insert_iff hb hg]
        rcases c1BatchInsert_mem hc l' (hcur ▸ hl') with hbatch | hold | rfl
        · obtain ⟨e', he', rfl⟩ := List.mem_map.mp hbatch
          rw [sscanf_keyval (hst _ he').fits] at hscan
          obtain ⟨k', ⟨v', lent⟩, f'⟩ := e'
          cases hscan
          exact ⟨lent, he'⟩
        · exact absurd hkey' (hno l' hold)
        · rw [sscanf_blank] at hscan
          cases hscan
    · intro h
      by_cases hin : ∃ l ∈ s.c1.current, lineKey l = key
      · obtain ⟨l, hl, hk⟩ := hin
        obtain ⟨hv, hf⟩ := h.old l hl hk
        refine ⟨l, old_mem_current hl hf, ?_⟩
        rw [hw.wfLine l hl, hk, hv, hf]
      · have hno : ∀ l ∈ s.c1.current, lineKey l ≠ key := fun l hl hk => hin ⟨l, hl, hk⟩
        obtain ⟨lent, hmem⟩ := (mem_insert_iff hb hg).mpr (h.new hno)
        have hfit := (hst _ hmem).fits
        exact ⟨_, batch_mem_current hmem hfit rfl fun l hl hk => absurd hk (hno l hl),
          sscanf_keyval hfit⟩

theorem insert_ne_null {s : Store} {key value : CStr} (h : InsertFills s key value) :
    s.T.insert key value 0 ≠ .null := by
  intro hnull
  have hsize : (s.T.insert key value 0).c0Size = maxC0Size := h
  rw [c0Size_eq_zero.mpr hnull] at hsize
  exact absurd hsize (by decide)

/-- **The section of an insertion stores the pair** exactly if it lands, or, where the table is
dumped, if the dump stores it. -/
theorem insertC0_stored {s : Store} (hb : s.T.Bst) {key value : CStr} (hg : s.T.get key = none) :
    (∃ s1, insertC0 s key value = some s1 ∧
      ((∃ lent, ⟨key, ⟨value, lent⟩, 0⟩ ∈ s1.T.entries) ∨
        s1.T.find key = none ∧ InFile s1.c1 key value)) ↔
      if InsertFills s key value then DumpStores s key value else Lands s.T key value := by
  by_cases hfill : InsertFills s key value
  · rw [if_pos hfill]
    have hins : insertC0 s key value
        = (c1BatchInsert s.c1 (s.T.insert key value 0).entries).map fun r =>
          { s with T := .null, c1 := r.2, txLog := if r.1 = 0 then none else s.txLog } := by
      have hsize : (s.T.insert key value 0).c0Size = maxC0Size := hfill
      unfold insertC0
      dsimp only
      rw [if_pos hsize, c0Dump_eq (insert_ne_null hfill)]
    constructor
    · rintro ⟨s1, h1, hst⟩
      rw [hins] at h1
      obtain ⟨⟨rc, c⟩, hc, rfl⟩ := Option.map_eq_some_iff.mp h1
      rcases hst with ⟨lent, hmem⟩ | ⟨-, hfile⟩
      · cases hmem
      · exact ⟨rc, c, hc, hfile⟩
    · rintro ⟨rc, c, hc, hfile⟩
      exact ⟨_, by rw [hins, hc]; rfl, Or.inr ⟨rfl, hfile⟩⟩
  · rw [if_neg hfill, ← mem_insert_iff hb hg]
    constructor
    · rintro ⟨s1, h1, hst⟩
      rw [insertC0_small hfill] at h1
      cases h1
      rcases hst with hmem | ⟨hno, -⟩
      · exact hmem
      · exact absurd hno (find_insert_ne_none hb key value)
    · intro hmem
      exact ⟨_, insertC0_small hfill, Or.inl hmem⟩

/-- Where the key stands: a live key is cached or at the root; any other is neither, it is in no
node below the root but one that holds the pair already, and if its insertion brings about a dump
this is one of well-formed records that keeps the pair. -/
structure InsertRight (t : Logged) (key value : CStr) : Prop where
  live : IsLive t key → Duplicate t.store key
  other : ¬ IsLive t key → ¬ Duplicate t.store key ∧
    if InsertFills t.store key value then
      WellFormed t.store key value ∧ DumpRight t.store key value
    else Lands t.store.T key value

theorem insertExact_of_right {t : Logged} (hw : t.store.cache.Wf) (hb : t.store.T.Bst)
    {key value : CStr} (h : InsertRight t key value) : InsertExact t key value := by
  constructor
  · intro hl
    exact ⟨_, insert_duplicate (h.live hl) value, hw.get_perm key, rfl, rfl⟩
  · intro hl
    obtain ⟨hno, hstore⟩ := h.other hl
    have hmiss : ¬ t.store.cache.Has key := fun hh => hno (Or.inl hh)
    have hg : t.store.T.get key = none := not_not.mp fun hh => hno (Or.inr hh)
    have hstore' : if InsertFills t.store key value then DumpStores t.store key value
        else Lands t.store.T key value := by
      split_ifs at hstore ⊢
      · exact (dumpStores_iff hb hg hstore.1).mpr hstore.2
      · exact hstore
    have hc := cacheGet_none_iff.mpr hmiss
    have hsame := (cacheGet_miss hc).2
    obtain ⟨s1, h1, hst⟩ := (insertC0_stored hb hg).mpr hstore'
    obtain ⟨cache, hp, -, hmem, -⟩ := hw.put key value
    refine ⟨{ s1 with cache := cache }, ?_, hmem, hst⟩
    rw [← insertC0_frame h1] at hp
    simp [serve, server1InsertRequest, hc, hsame, hg, h1, hp]

theorem insertRight_of_exact {t : Logged} (hb : t.store.T.Bst) {key value : CStr}
    (hwell : InsertFills t.store key value → WellFormed t.store key value)
    (h : InsertExact t key value) : InsertRight t key value := by
  constructor
  · intro hl
    obtain ⟨s, hs, -⟩ := h.live hl
    exact (insert_code hs).mpr rfl
  · intro hl
    obtain ⟨s, hs, -, hst⟩ := h.other hl
    have hno : ¬ Duplicate t.store key := by
      rw [insert_code hs]
      exact exit_ne.symm
    refine ⟨hno, ?_⟩
    rcases insert_eq hs with ⟨hdup, -⟩ | ⟨-, hg, s1, cache, h1, -, he⟩
    · exact absurd hdup hno
    · obtain rfl := congrArg (fun r : Reply => r.2.2) he
      have hstored := (insertC0_stored hb hg).mp ⟨s1, h1, hst⟩
      split_ifs at hstored ⊢ with hfill
      · exact ⟨hwell hfill, (dumpStores_iff hb hg (hwell hfill)).mp hstored⟩
      · exact hstored

def twoWrites : List Req := [.put ['b'] ['1'], .insert ['c'] ['2']]

/-- the state after them -/
def twoState : Logged := ⟨⟨⟨[(['c'], ['2']), (['b'], ['1'])], 2⟩,
  .node ['b'] ⟨['1'], false⟩ .null (.node ['c'] ⟨['2'], false⟩ .null .null 0 0) 1 0,
  C1.empty, none⟩, twoWrites⟩

theorem run_twoWrites : run Logged.step Logged.empty twoWrites = some twoState := rfl

end LsmKv
