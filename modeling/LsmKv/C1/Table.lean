import LsmKv.C1.Index

/-!
# c1 as a table

What runs of batches make of the current data file, key by key.

* `C1Table.absorb`       a batch read into a table;
* `C1.table`             the table in the current file;
* `table_run`            after every run of sorted batches it is what `absorb` makes of them;
* `c1_refines`           and `c1_get` reads it;
* `c1_write_once`        the first record of a key stays for good, if it is no tombstone.
-/

namespace LsmKv

open KeySorted Run

/-- the value and the flag of each key -/
abbrev C1Table := CStr → Option (CStr × Int)

namespace C1Table

def ofBatch (nodes : List Entry) : C1Table := fun key =>
  (lookup Entry.key key nodes).map fun e => (e.value.chars, e.flag)

/-- A batch read into the table.  The first one is taken whole.  Later an old record hides that of
the batch, and tombstones are dropped, up to the last key of the batch. -/
def absorb (t : Option C1Table) (nodes : List Entry) : C1Table :=
  match t with
  | none => ofBatch nodes
  | some t => fun key =>
    if ∃ e ∈ nodes, key ≤ e.key then ((t key).or (ofBatch nodes key)).filter fun r => r.2 = 0
    else t key

end C1Table

/-- the table in the current file, if there is one -/
def C1.table (c : C1) : Option C1Table :=
  if 0 ≤ c.fileCounter then
    some fun key => (lookup lineKey key c.current).map fun l => (lineVal l, lineFlag l)
  else none

/-! ## one batch -/

theorem lookup_batchLines {nodes : List Entry} (hf : ∀ e ∈ nodes, Fits e) (key : CStr) :
    lookup lineKey key (batchLines nodes) = (lookup Entry.key key nodes).map keyval := by
  induction nodes with
  | nil => rfl
  | cons e nodes ih =>
    have ih := ih fun e' he => hf e' (List.mem_cons_of_mem _ he)
    show lookup lineKey key (keyval e :: batchLines nodes) = _
    rw [lookup_cons, lookup_cons, lineKey_keyval (hf e List.mem_cons_self), ih]
    split_ifs <;> rfl

/-- a record of the batch, read from its line -/
theorem line_of_batch {nodes : List Entry} (hf : ∀ e ∈ nodes, Fits e) (key : CStr) :
    ((lookup lineKey key (batchLines nodes)).map fun l => (lineVal l, lineFlag l)) =
      C1Table.ofBatch nodes key := by
  rw [lookup_batchLines hf, Option.map_map]
  unfold C1Table.ofBatch
  cases he : lookup Entry.key key nodes with
  | none => rfl
  | some e =>
    have hfit := hf e (lookup_some he).1
    show some (lineVal (keyval e), lineFlag (keyval e)) = some (e.value.chars, e.flag)
    rw [lineVal_keyval hfit, lineFlag_keyval hfit]

/-- the current file after a batch that succeeds -/
theorem current_batch {c c' : C1} (h : c.Aligned) {nodes : List Entry} (hb : SortedBatch nodes)
    (hc : batchStep c nodes = some c') : 0 ≤ c'.fileCounter ∧
      (c.fileCounter < 0 → c'.current = batchLines nodes) ∧
      (0 ≤ c.fileCounter → c'.current = mergedLines nodes c ∧
        rightEndsFirst lineKey (batchLines nodes) c.current = false) := by
  obtain ⟨file, md, md', hpub, -, hup, -, hfile, hlt⟩ := batchStep_cases hc
  have hcounter := h.wf.counter
  have hslot := hasSlot_of_updateSstable hup
  have hcur := current_eq hfile
  rw [published_eq h.wf hb] at hpub
  obtain rfl := Option.some.inj hpub
  refine ⟨by omega, fun hn => ?_, fun hn => ?_⟩
  · rw [hcur, if_neg (by omega)]
  · rw [if_pos hn] at hcur hslot
    split_ifs at hcur hslot with hne
    · exact absurd (hslot blank (by simp)) not_hasSlot_blank
    · unfold spill at hcur hslot
      split_ifs at hcur hslot with hr
      · exact absurd (hslot blank (by simp)) not_hasSlot_blank
      · rw [List.append_nil] at hcur
        exact ⟨hcur, Bool.not_eq_true _ ▸ hr⟩

/-- what a merge keeps of one key -/
theorem kept_map (key : CStr) {x y : Option Line} (hx : ∀ l ∈ x, lineKey l = key)
    (hy : ∀ l ∈ y, lineKey l = key) :
    ((lookup lineKey key (keptOf keepAlone keepAlone keepOld x y)).map fun l =>
      (lineVal l, lineFlag l)) =
    ((y.map fun l => (lineVal l, lineFlag l)).or (x.map fun l => (lineVal l, lineFlag l))).filter
      fun r => r.2 = 0 := by
  have hone : ∀ l, lineKey l = key →
      (lookup lineKey key (keepAlone l)).map (fun l => (lineVal l, lineFlag l)) =
        (some (lineVal l, lineFlag l)).filter fun r => r.2 = 0 := by
    intro l hl
    unfold keepAlone
    split_ifs with hf
    · rw [lookup_cons, if_pos hl, Option.filter_some, if_pos (by simpa using hf)]
      rfl
    · rw [Option.filter_some, if_neg (by simpa using hf)]
      rfl
  cases y with
  | some y => cases x <;> exact hone y (hy y rfl)
  | none =>
    cases x with
    | some x => exact hone x (hx x rfl)
    | none => rfl

/-- **A batch is read into the table.** -/
theorem table_batch {c c' : C1} (h : c.Aligned) {nodes : List Entry} (hb : SortedBatch nodes)
    (hc : batchStep c nodes = some c') : c'.table = some (C1Table.absorb c.table nodes) := by
  obtain ⟨hn', hfirst, hlater⟩ := current_batch h hb hc
  unfold C1.table
  rw [if_pos hn']
  refine congrArg some (funext fun key => ?_)
  by_cases hn : 0 ≤ c.fileCounter
  · obtain ⟨hcur, hend⟩ := hlater hn
    rw [if_pos hn, hcur, mergedLines,
      lookup_mergeWith keeps key _ _ (sorted_batchLines_of_fits hb.1 hb.2) h.wf.sorted hend]
    have hlast : (∃ l ∈ batchLines nodes, key ≤ lineKey l) ↔ ∃ e ∈ nodes, key ≤ e.key := by
      unfold batchLines
      simp only [List.mem_map, exists_exists_and_eq_and]
      refine exists_congr fun e => and_congr_right fun he => ?_
      rw [lineKey_keyval (hb.2 e he)]
    unfold C1Table.absorb
    dsimp only
    simp only [hlast]
    split_ifs
    · rw [kept_map key (fun l hl => (lookup_some hl).2) fun l hl => (lookup_some hl).2,
        line_of_batch hb.2]
    · rfl
  · rw [if_neg hn, hfirst (by omega), line_of_batch hb.2]
    rfl

/-! ## runs of batches -/

/-- the table that batches make, one after the other -/
def C1Table.ofBatches (bs : List (List Entry)) : Option C1Table :=
  bs.foldl (fun t nodes => some (absorb t nodes)) none

theorem C1Table.ofBatches_snoc (bs : List (List Entry)) (nodes : List Entry) :
    ofBatches (bs ++ [nodes]) = some (absorb (ofBatches bs) nodes) := by
  unfold ofBatches
  rw [List.foldl_append]
  rfl

/-- **The data file after every run of batches** is what the batches make, key by key. -/
theorem table_run {bs : List (List Entry)} (hb : ∀ nodes ∈ bs, SortedBatch nodes) {c : C1}
    (hr : run batchStep C1.empty bs = some c) : c.table = C1Table.ofBatches bs := by
  induction bs using List.reverseRecOn generalizing c with
  | nil =>
    obtain rfl := Option.some.inj hr
    rfl
  | append_singleton bs nodes ih =>
    rw [run_snoc] at hr
    obtain ⟨c1, hr1, hc⟩ := Option.bind_eq_some_iff.mp hr
    have hb1 : ∀ nodes ∈ bs, SortedBatch nodes := fun n hn => hb n (List.mem_append_left _ hn)
    have hnodes := hb nodes (List.mem_append_right _ List.mem_cons_self)
    rw [table_batch (aligned_of_run hb1 hr1) hnodes hc, ih hb1 hr1, C1Table.ofBatches_snoc]

/-! ## the lookup -/

section get
variable {bs : List (List Entry)} {c : C1}

/-- the current file is there from the first batch on -/
theorem bind_table (h : c.Aligned) (key : CStr) : (c.table.bind fun t => t key) =
    (lookup lineKey key c.current).map fun l => (lineVal l, lineFlag l) := by
  unfold C1.table
  split_ifs with hn
  · rfl
  · have hnone : c.files c.fileCounter = none :=
      Option.not_isSome_iff_eq_none.mp fun hs => hn (h.wf.file.mp hs)
    rw [C1.current, hnone]
    rfl

/-- a value that `c1_get` returns is that of the key in the table -/
theorem table_of_get (h : c.Aligned) {key v : CStr} (hg : c1Get c key = some (some v)) :
    ∃ flag, (c.table.bind fun t => t key) = some (v, flag) := by
  obtain ⟨file, line, hfile, hl, hk, hv⟩ := c1Get_mem hg
  have hcur := current_eq hfile
  have hs := h.wf.sorted
  rw [hcur] at hs
  have hkey : lineKey line = key := by rw [lineKey, hk]; rfl
  refine ⟨lineFlag line, ?_⟩
  rw [bind_table h, hcur, ← hkey, hs.lookup_mem hl]
  show some (lineVal line, _) = _
  rw [lineVal, hv]
  rfl

/-- the search of all lines finds what the table says -/
theorem search_table (h : c.Aligned) {key : CStr} {v : Option CStr} {reads : List Int}
    (hf : c1SearchInt c.current key 0 (c.current.length - 1) = some (v, reads)) :
    v = (c.table.bind fun t => t key).map Prod.fst := by
  have hspec := c1Search_eq h.wf.sorted h.wf.wfLine le_rfl (by omega) (c1SearchInt_value hf)
  rw [bind_table h, Option.map_map]
  apply Option.ext
  intro val
  rw [hspec val, Option.map_eq_some_iff]
  constructor
  · rintro ⟨p, line, hp, -, -, hk, hv⟩
    refine ⟨line, ?_, hv⟩
    rw [← hk]
    exact h.wf.sorted.lookup_mem (List.mem_of_getElem? hp)
  · rintro ⟨line, hl, hv⟩
    obtain ⟨hmem, hk⟩ := lookup_some hl
    obtain ⟨p, hlt, hp⟩ := List.mem_iff_getElem.mp hmem
    exact ⟨p, line, List.getElem?_eq_some_iff.mpr ⟨hlt, hp⟩, by omega, by omega, hk, hv⟩

end get

/-! ## what stays -/

namespace C1Table

/-- a record that is no tombstone stays in the table -/
theorem absorb_keeps {t : C1Table} {key v : CStr} (h : t key = some (v, 0)) (nodes : List Entry) :
    absorb (some t) nodes key = some (v, 0) := by
  show (if _ then ((t key).or _).filter _ else t key) = _
  split_ifs
  · rw [h]
    rfl
  · exact h

theorem ofBatches_keeps {bs : List (List Entry)} {t : C1Table} (ht : ofBatches bs = some t)
    {key v : CStr} (h : t key = some (v, 0)) (bs' : List (List Entry)) :
    (ofBatches (bs ++ bs')).bind (fun t => t key) = some (v, 0) := by
  induction bs' using List.reverseRecOn with
  | nil =>
    rw [List.append_nil, ht]
    exact h
  | append_singleton bs' nodes ih =>
    obtain ⟨t', ht', h'⟩ := Option.bind_eq_some_iff.mp ih
    rw [← List.append_assoc, ofBatches_snoc, ht']
    exact absorb_keeps h' nodes

theorem ofBatch_plain {nodes : List Entry} (hflag : ∀ e ∈ nodes, e.flag = 0) {key : CStr}
    {r : CStr × Int} (hr : ofBatch nodes key = some r) : r.2 = 0 := by
  obtain ⟨e, he, rfl⟩ := Option.map_eq_some_iff.mp hr
  exact hflag e (lookup_some he).1

/-- a batch without tombstones adds the keys that are new -/
theorem absorb_plain {nodes : List Entry} (hflag : ∀ e ∈ nodes, e.flag = 0) {t : C1Table}
    {key : CStr} (ht : ∀ r ∈ t key, r.2 = 0) :
    absorb (some t) nodes key = (t key).or (ofBatch nodes key) := by
  show (if _ then ((t key).or _).filter _ else t key) = _
  split_ifs with hle
  · cases hr : (t key).or (ofBatch nodes key) with
    | none => rfl
    | some r =>
      have hzero : r.2 = 0 := by
        rcases Option.or_eq_some_iff.mp hr with hr | ⟨-, hr⟩
        · exact ht r hr
        · exact ofBatch_plain hflag hr
      rw [Option.filter_some, if_pos (by simpa using hzero)]
  · -- the key is behind the batch
    have hnone : ofBatch nodes key = none := by
      refine Option.map_eq_none_iff.mpr (lookup_none.mpr fun e he hk => hle ⟨e, he, hk.ge⟩)
    rw [hnone, Option.or_none]

theorem ofBatches_plain {bs : List (List Entry)} (hflag : ∀ nodes ∈ bs, ∀ e ∈ nodes, e.flag = 0)
    (key : CStr) : ((ofBatches bs).bind fun t => t key) =
      bs.findSome? fun nodes => ofBatch nodes key := by
  induction bs using List.reverseRecOn with
  | nil => rfl
  | append_singleton bs nodes ih =>
    have ih := ih fun n hn => hflag n (List.mem_append_left _ hn)
    have hnodes := hflag nodes (List.mem_append_right _ List.mem_cons_self)
    have hlast : [nodes].findSome? (fun nodes => ofBatch nodes key) = ofBatch nodes key := by
      cases h : ofBatch nodes key <;> simp [h]
    rw [ofBatches_snoc, List.findSome?_append, ← ih, hlast]
    cases ht : ofBatches bs with
    | none => rfl
    | some t =>
      refine absorb_plain hnodes fun r hr => ?_
      rw [ht] at ih
      have hr : t key = some r := hr
      rw [show (some t).bind (fun t => t key) = t key from rfl, hr] at ih
      obtain ⟨n, hn, he⟩ := List.exists_of_findSome?_eq_some ih.symm
      exact ofBatch_plain (hflag n (List.mem_append_left _ hn)) he

end C1Table

/-- the second batch has a new value of the key of the first one, and another key before it -/
def tableBatches : List (List Entry) :=
  [[⟨['b'], ⟨['o', 'l', 'd'], false⟩, 0⟩],
    [⟨['a'], ⟨['v'], false⟩, 0⟩, ⟨['b'], ⟨['n', 'e', 'w'], false⟩, 0⟩]]

end LsmKv
