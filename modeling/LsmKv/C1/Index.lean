import LsmKv.C1.Batch
import LsmKv.C1.Probe
import LsmKv.Lib.Run

/-!
# The index of first letters along runs of batches

* `published`          the data file `update_sstable` reads in a batch that succeeds;
* `C1.Aligned`         what c1 keeps over every run of sorted batches of well-formed records;
* `sameLookup_iff`     when the range read from the index hides no record;
* `indexInRange`       when the subscripts of the index are in range.

`update_sstable` sets the slots of the letters it meets and leaves the others as they are, so the
slot of a letter that is gone still points into the file.
-/

namespace LsmKv

open KeySorted Run

/-- the file `update_sstable` reads -/
def published (c : C1) (nodes : List Entry) : Option (List Line) :=
  if c.fileCounter + 1 > 0 then (c.files c.fileCounter).bind fun old => merge (batchLines nodes) old
  else some (batchLines nodes)

theorem c1Publish_cases {c c' : C1} {rc : Int} (h : c1Publish c = some (rc, c')) :
    ∃ file md md', c.files c.fileCounter = some file ∧ c.metadata = some md ∧
      updateSstable file c.fileCounter md = some md' ∧ c'.metadata = some md' ∧
      c'.files = c.files ∧ c'.fileCounter = c.fileCounter := by
  unfold c1Publish at h
  split at h
  · cases h
  · rename_i file hfile
    simp only [Option.bind_eq_bind, Option.bind_eq_some_iff] at h
    obtain ⟨md, hmd, md', hup, h⟩ := h
    cases h
    exact ⟨file, md, md', hfile, hmd, hup, rfl, rfl, rfl⟩

/-- what a batch does that succeeds -/
theorem batchStep_cases {c c' : C1} {nodes : List Entry} (h : batchStep c nodes = some c') :
    ∃ file md md', published c nodes = some file ∧ c.metadata = some md ∧
      updateSstable file c'.fileCounter md = some md' ∧ c'.metadata = some md' ∧
      c'.files c'.fileCounter = some file ∧ c.fileCounter < c'.fileCounter := by
  have hins := batchStep_eq h
  unfold c1BatchInsert at hins
  unfold published
  dsimp only at hins
  split_ifs at hins with hn
  · rw [if_pos hn]
    have hprev : Function.update c.files (c.fileCounter + 1) (some (nodes.map keyval))
        (c.fileCounter + 1 - 1) = c.files c.fileCounter := by
      rw [Function.update_of_ne (by omega), add_sub_cancel_right]
    rw [hprev] at hins
    split at hins
    · cases hins
    · rename_i old hold
      simp only [Option.bind_eq_bind, Option.bind_eq_some_iff] at hins
      obtain ⟨out, hout, hpub⟩ := hins
      obtain ⟨file, md, md', hfile, hmd, hup, hmd', hfiles, hcount⟩ := c1Publish_cases hpub
      obtain rfl : out = file := by simpa using hfile
      rw [hold]
      refine ⟨out, md, md', hout, hmd, ?_, hmd', ?_, ?_⟩
      · rw [hcount]
        exact hup
      · rw [hfiles, hcount]
        exact hfile
      · rw [hcount]
        show c.fileCounter < c.fileCounter + 1 + 1
        omega
  · rw [if_neg hn]
    obtain ⟨file, md, md', hfile, hmd, hup, hmd', hfiles, hcount⟩ := c1Publish_cases hins
    obtain rfl : batchLines nodes = file := by simpa [batchLines] using hfile
    refine ⟨_, md, md', rfl, hmd, ?_, hmd', ?_, ?_⟩
    · rw [hcount]
      exact hup
    · rw [hfiles, hcount]
      exact hfile
    · rw [hcount]
      show c.fileCounter < c.fileCounter + 1
      omega

/-- every record of a file that is indexed has a slot -/
theorem hasSlot_of_updateSstable {file : List Line} {n : Int} {md md' : C1Metadata}
    (h : updateSstable file n md = some md') : ∀ l ∈ file, HasSlot l := by
  intro l hl
  by_contra hno
  rw [updateSstable, indexLoop_none hno file 0 _ _ hl] at h
  cases h

theorem indexLoop_range (file : List Line) : ∀ (p : Nat) (s : Nat → Int) (m : Nat → Bool)
    {s' : Nat → Int}, indexLoop file p s m = some s' → (∀ i, -1 ≤ s i) → ∀ i, -1 ≤ s' i := by
  induction file with
  | nil =>
    intro p s m s' h hs
    exact Option.some.inj h ▸ hs
  | cons line file ih =>
    intro p s m s' h hs
    unfold indexLoop at h
    split at h
    · cases h
    · rename_i idx _
      split_ifs at h
      · exact ih _ _ _ h hs
      · refine ih _ _ _ h fun i => ?_
        rcases eq_or_ne i idx with rfl | hne
        · rw [Function.update_self]
          exact le_trans (by omega) (mul_nonneg (Int.natCast_nonneg p) lineSize_pos.le)
        · rw [Function.update_of_ne hne]
          exact hs i

theorem updateSstable_range {file : List Line} {n : Int} {md md' : C1Metadata}
    (h : updateSstable file n md = some md') (hs : ∀ i, -1 ≤ md.ssindex i) :
    ∀ i, -1 ≤ md'.ssindex i := by
  obtain ⟨s', hs', rfl⟩ := Option.map_eq_some_iff.mp h
  intro i
  have := indexLoop_range file _ _ _ hs' hs i
  dsimp only
  split_ifs <;> omega

/-! ## sorted batches -/

/-- a sorted batch of well-formed records -/
def SortedBatch (nodes : List Entry) : Prop := Sorted Entry.key nodes ∧ ∀ e ∈ nodes, Fits e

instance (nodes : List Entry) : Decidable (SortedBatch nodes) :=
  inferInstanceAs (Decidable (List.Pairwise _ _ ∧ _))

theorem merge_nil (old : List Line) : merge [] old = some (blank :: old) := rfl

/-- the file published of a sorted batch -/
theorem published_eq {c : C1} (h : c.Wf) {nodes : List Entry} (hb : SortedBatch nodes) :
    published c nodes = some (if 0 ≤ c.fileCounter then
      if nodes = [] then blank :: c.current
      else mergedLines nodes c ++ spill (batchLines nodes) c.current else batchLines nodes) := by
  have hcounter := h.counter
  unfold published
  by_cases hn : 0 ≤ c.fileCounter
  · obtain ⟨old, hold⟩ := Option.isSome_iff_exists.mp (h.file.mpr hn)
    have hcur := current_eq hold
    rw [if_pos (by omega), if_pos hn, hold, Option.bind_some, mergedLines, hcur]
    split_ifs with hne
    · subst hne
      exact merge_nil old
    · have hbatch : batchLines nodes ≠ [] := by simpa [batchLines] using hne
      exact merge_eq hbatch (wf_batchLines_of_fits hb.2) (hcur ▸ h.wfLine)
  · rw [if_neg (by omega), if_neg hn]

/-- what c1 keeps over every run of sorted batches -/
structure C1.Aligned (c : C1) : Prop where
  wf : c.Wf
  offsets : ∀ md ∈ c.metadata, ∀ i, -1 ≤ md.ssindex i

theorem C1.Aligned.empty : C1.empty.Aligned where
  wf := C1.Wf.empty
  offsets := by
    intro md hmd i
    obtain rfl := Option.some.inj hmd
    show (-1 : Int) ≤ 0
    omega

/-- the blank record has no slot -/
theorem not_hasSlot_blank : ¬ HasSlot blank := by decide

/-- **A sorted batch keeps c1 well formed.** -/
theorem C1.Aligned.batch {c c' : C1} (h : c.Aligned) {nodes : List Entry}
    (hb : SortedBatch nodes) (hc : batchStep c nodes = some c') : c'.Aligned := by
  obtain ⟨file, md, md', hpub, hmd, hup, hmd', hfile, hlt⟩ := batchStep_cases hc
  have hcounter := h.wf.counter
  have hslot := hasSlot_of_updateSstable hup
  have hstb : ∀ l ∈ batchLines nodes, HasSlot l → ∃ e, Storable e ∧ keyval e = l := by
    intro l hl hs
    obtain ⟨e, he, rfl⟩ := List.mem_map.mp hl
    refine ⟨e, ⟨hb.2 e he, ?_⟩, rfl⟩
    unfold HasSlot at hs ⊢
    rwa [first_keyval (hb.2 e he)] at hs
  have hsb := sorted_batchLines_of_fits hb.1 hb.2
  have hgood : Sorted lineKey file ∧ ∀ l ∈ file, ∃ e, Storable e ∧ keyval e = l := by
    rw [published_eq h.wf hb] at hpub
    obtain rfl := Option.some.inj hpub
    split_ifs at hslot ⊢ with hn hne
    · exact absurd (hslot blank (by simp)) not_hasSlot_blank
    · have hspill : spill (batchLines nodes) c.current = [] := by
        unfold spill at hslot ⊢
        split_ifs at hslot ⊢ with hr
        · exact absurd (hslot blank (by simp)) not_hasSlot_blank
        · rfl
      rw [hspill, List.append_nil] at hslot ⊢
      refine ⟨sorted_mergeWith keeps _ _ hsb h.wf.sorted, fun l hl => ?_⟩
      rcases mem_mergeWith keeps _ _ l hl with hl' | hl'
      · exact hstb l hl' (hslot l hl)
      · exact h.wf.stored l hl'
    · exact ⟨hsb, fun l hl => hstb l hl (hslot l hl)⟩
  have hcur := current_eq hfile
  obtain ⟨md'', hup', -, hidx⟩ := updateSstable_eq hslot c'.fileCounter md
  obtain rfl : md' = md'' := Option.some.inj (hup.symm.trans hup')
  refine ⟨⟨by omega, ?_, ?_, ?_, md', hmd', ?_⟩, ?_⟩
  · rw [hfile]
    exact iff_of_true rfl (by omega)
  · rw [hcur]
    exact hgood.1
  · rw [hcur]
    exact hgood.2
  · rw [hcur]
    exact hidx
  · intro m hm
    rw [hmd'] at hm
    obtain rfl := Option.some.inj hm
    exact updateSstable_range hup (h.offsets md hmd)

/-- **The invariant after every run of sorted batches.** -/
theorem aligned_of_run {bs : List (List Entry)} (hb : ∀ nodes ∈ bs, SortedBatch nodes) {c : C1}
    (hr : run batchStep C1.empty bs = some c) : c.Aligned := by
  have hg : Guarded batchStep (fun _ nodes => SortedBatch nodes) C1.empty bs :=
    guarded_of_forall fun nodes hn _ => hb nodes hn
  exact inv_of_guarded (fun _ _ _ hi ho hs => hi.batch ho hs) C1.Aligned.empty hg hr

/-! ## the range of lines -/

/-- `startline` and `endline - 1` in `c1_get` -/
def lineRange (md : C1Metadata) (numlines : Int) (key : CStr) : Option (Int × Int) := do
  let i ← slot (charToIdx (first key))
  let j ← slot (charToIdx (first key) + 1)
  let startline := if md.ssindex i = -1 then 0 else (md.ssindex i).tdiv lineSize
  let endline := if md.ssindex j = -1 then numlines else (md.ssindex j).tdiv lineSize
  let endline := if endline > numlines then numlines else endline
  some (startline, endline - 1)

/-- `c1_get` over the search with int offsets -/
def c1GetInt (c : C1) (key : CStr) : Option (Option CStr) :=
  match c.files c.fileCounter with
  | none => some none
  | some file => do
    let md ← c.metadata
    let (startline, endline) ← lineRange md file.length key
    let (val, _) ← c1SearchInt file key startline endline
    some val

/-- within the bound `c1GetInt` is `c1Get` -/
theorem c1GetInt_value {c : C1} {key : CStr} {v : Option CStr} (h : c1GetInt c key = some v) :
    c1Get c key = some v := by
  unfold c1GetInt at h
  unfold c1Get
  cases hfile : c.files c.fileCounter with
  | none =>
    rw [hfile] at h
    exact h
  | some file =>
    rw [hfile] at h
    simp only [Option.bind_eq_bind, Option.bind_eq_some_iff, lineRange] at h ⊢
    obtain ⟨md, hmd, ⟨s, e⟩, ⟨i, hi, j, hj, hr⟩, ⟨w, reads⟩, hs, hv⟩ := h
    obtain rfl := Option.some.inj hv
    refine ⟨md, hmd, i, hi, j, hj, ?_⟩
    cases hr
    exact c1SearchInt_value hs

/-- the letters that have a slot with another one behind it -/
theorem slot_of_mem_charset : ∀ a ∈ charset.dropLast,
    (slot (charToIdx a)).isSome ∧ (slot (charToIdx a + 1)).isSome := by
  have hall : (charset.dropLast.all fun a =>
      (slot (charToIdx a)).isSome && (slot (charToIdx a + 1)).isSome) = true := by decide +kernel
  intro a ha
  rw [← Bool.and_eq_true]
  exact List.all_eq_true.mp hall a ha

/-- `c1_get` and the search of all lines return the same -/
def SameLookup (c : C1) (key : CStr) : Prop :=
  ∃ v reads, c1GetInt c key = some v ∧
    c1SearchInt c.current key 0 (c.current.length - 1) = some (v, reads)

/-- no record of the current file has the key -/
def Absent (c : C1) (key : CStr) : Prop := ∀ l ∈ c.current, lineKey l ≠ key

/-- the offsets of both searches are ints -/
def BothFit (c : C1) (key : CStr) : Prop :=
  OffsetsFit c.current key 0 (c.current.length - 1) ∧
    ∀ md ∈ c.metadata, ∀ r ∈ lineRange md c.current.length key,
      OffsetsFit c.current key r.1 r.2

/-- the range of `c1_get` against the place of the key -/
theorem mem_lineRange {c : C1} (h : c.Aligned) {md : C1Metadata} (hmd : c.metadata = some md)
    {key : CStr} {s e : Int} (hr : lineRange md c.current.length key = some (s, e)) :
    0 ≤ s ∧ e < c.current.length ∧
      ∀ (p : Nat) (line : Line), c.current[p]? = some line → lineKey line = key →
        s ≤ p ∧ ∃ j, slot (charToIdx (first key) + 1) = some j ∧
          (p ≤ e ↔ md.ssindex j = -1 ∨ (p : Int) < (md.ssindex j).tdiv lineSize) := by
  simp only [lineRange, Option.bind_eq_bind, Option.bind_eq_some_iff] at hr
  obtain ⟨i, hi, j, hj, hr⟩ := hr
  obtain ⟨rfl, rfl⟩ := Prod.mk.inj (Option.some.inj hr)
  have hoff := h.offsets md hmd i
  refine ⟨?_, ?_, fun p line hp hk => ⟨?_, j, hj, ?_⟩⟩
  · split_ifs
    · exact le_rfl
    · exact Int.tdiv_nonneg (by omega) lineSize_pos.le
  · split_ifs <;> omega
  · obtain ⟨md', hmd', hidx⟩ := h.wf.metadata
    obtain rfl : md = md' := Option.some.inj (hmd.symm.trans hmd')
    obtain ⟨a, ha, rfl⟩ := h.wf.stored line (List.mem_of_getElem? hp)
    have hfirst : first (keyval a) = first key := by
      rw [first_keyval ha.fits, ← hk, lineKey_keyval ha.fits]
    rcases hidx p _ i hp (by rw [hfirst]; exact hi) with hm | ⟨h0, hle⟩
    · rw [if_pos hm]
      exact Int.natCast_nonneg p
    · rw [if_neg (by omega), Int.tdiv_eq_ediv_of_nonneg h0]
      exact Int.ediv_le_of_le_mul lineSize_pos hle
  · have hlen : p < c.current.length := (List.getElem?_eq_some_iff.mp hp).1
    split_ifs <;> omega

/-- a record is covered exactly if its place lies before the end of the range -/
theorem covered_iff {c : C1} (h : c.Aligned) {md : C1Metadata} (hmd : c.metadata = some md)
    {key : CStr} {s e : Int} (hr : lineRange md c.current.length key = some (s, e)) {p : Nat}
    {line : Line} (hp : c.current[p]? = some line) (hk : lineKey line = key) :
    Covered c key ↔ p ≤ e := by
  obtain ⟨-, -, hplace⟩ := mem_lineRange h hmd hr
  obtain ⟨-, j', hj', hiff⟩ := hplace p line hp hk
  obtain ⟨file, hfile⟩ : ∃ file, c.files c.fileCounter = some file := by
    rw [← Option.isSome_iff_exists]
    by_contra hno
    rw [C1.current, Option.not_isSome_iff_eq_none.mp hno] at hp
    simp at hp
  have hcur := current_eq hfile
  have hs := h.wf.sorted
  rw [hiff]
  constructor
  · rintro ⟨file', hf', md', hm', j'', hj'', x, hx, hxk, hc⟩
    obtain rfl := Option.some.inj (hfile.symm.trans hf')
    obtain rfl := Option.some.inj (hmd.symm.trans hm')
    obtain rfl := Option.some.inj (hj'.symm.trans hj'')
    have hxp : file[x.2]? = some x.1 := List.mem_zipIdx_iff_getElem?.mp hx
    rw [hcur] at hp hs
    have hpos : x.2 = p := hs.index_eq_of_key hxp hp (hxk.trans hk.symm)
    rwa [hpos] at hc
  · intro hc
    refine ⟨file, hfile, md, hmd, j', hj', (line, p), ?_, hk, hc⟩
    rw [List.mem_zipIdx_iff_getElem?, ← hcur]
    exact hp

/-- what `c1_get` returns is what the search of its range returns -/
theorem c1GetInt_eq {c : C1} (h : c.Aligned) {md : C1Metadata} (hmd : c.metadata = some md)
    {key : CStr} {s e : Int} (hr : lineRange md c.current.length key = some (s, e)) :
    c1GetInt c key = (c1SearchInt c.current key s e).map Prod.fst := by
  obtain ⟨h0, h1, -⟩ := mem_lineRange h hmd hr
  unfold c1GetInt
  cases hfile : c.files c.fileCounter with
  | none =>
    have hnil : c.current = [] := by rw [C1.current, hfile]; rfl
    rw [hnil] at h1 ⊢
    have hlt : ¬ e ≥ s := by
      simp only [List.length_nil] at h1
      omega
    rw [c1SearchInt, c1SearchIntFuel, if_neg hlt]
    rfl
  | some file =>
    rw [current_eq hfile] at hr ⊢
    simp only [hmd, hr, Option.bind_eq_bind, Option.bind_some]
    cases c1SearchInt file key s e <;> rfl

/-- **Two searches** of a sorted file return the same if the record of the key, if there is one,
lies in both ranges. -/
theorem c1SearchInt_congr {file : List Line} (hs : Sorted lineKey file)
    (hwf : ∀ l ∈ file, WfLine l) {key : CStr} {s e s' e' : Int} {v v' : Option CStr}
    {reads reads' : List Int} (hs0 : 0 ≤ s) (he : e < file.length) (hs0' : 0 ≤ s')
    (he' : e' < file.length) (hv : c1SearchInt file key s e = some (v, reads))
    (hv' : c1SearchInt file key s' e' = some (v', reads'))
    (hplace : ∀ (p : Nat) (line : Line), file[p]? = some line → lineKey line = key →
      (s ≤ p ∧ p ≤ e ↔ s' ≤ p ∧ p ≤ e')) : v = v' := by
  apply Option.ext
  intro val
  rw [c1Search_eq hs hwf hs0 he (c1SearchInt_value hv) val,
    c1Search_eq hs hwf hs0' he' (c1SearchInt_value hv') val]
  constructor
  · rintro ⟨p, line, hp, hsp, hpe, hk, hval⟩
    obtain ⟨hsp', hpe'⟩ := (hplace p line hp hk).mp ⟨hsp, hpe⟩
    exact ⟨p, line, hp, hsp', hpe', hk, hval⟩
  · rintro ⟨p, line, hp, hsp, hpe, hk, hval⟩
    obtain ⟨hsp', hpe'⟩ := (hplace p line hp hk).mpr ⟨hsp, hpe⟩
    exact ⟨p, line, hp, hsp', hpe', hk, hval⟩

/-- **When the index hides no record**: exactly when the slot of the next letter does not point
before the record of the key. -/
theorem sameLookup_iff (bs : List (List Entry)) (hb : ∀ nodes ∈ bs, SortedBatch nodes) (c : C1)
    (hr : run batchStep C1.empty bs = some c) (key : CStr) (hkey : first key ∈ charset.dropLast) :
    SameLookup c key ↔ (Absent c key ∨ Covered c key) ∧ BothFit c key := by
  have h := aligned_of_run hb hr
  obtain ⟨md, hmd, -⟩ := h.wf.metadata
  obtain ⟨hi, hj⟩ := slot_of_mem_charset _ hkey
  obtain ⟨i, hi⟩ := Option.isSome_iff_exists.mp hi
  obtain ⟨j, hj⟩ := Option.isSome_iff_exists.mp hj
  obtain ⟨⟨s, e⟩, hrange⟩ : ∃ r, lineRange md c.current.length key = some r := by
    rw [lineRange, hi, hj]
    exact ⟨_, rfl⟩
  obtain ⟨h0, h1, hplace⟩ := mem_lineRange h hmd hrange
  have hwf := h.wf.wfLine
  have hs := h.wf.sorted
  have hfit : BothFit c key ↔ OffsetsFit c.current key 0 (c.current.length - 1) ∧
      OffsetsFit c.current key s e := by
    refine and_congr_right fun _ => ⟨fun hall => hall md hmd _ hrange, ?_⟩
    intro hfit md' hmd' r hr'
    obtain rfl : md = md' := Option.some.inj (hmd.symm.trans hmd')
    obtain rfl := Option.some.inj (hrange.symm.trans hr')
    exact hfit
  have hfull : ((c.current.length : Int) - 1) < c.current.length := by omega
  rw [hfit, ← c1SearchInt_isSome_iff hwf key le_rfl hfull, ← c1SearchInt_isSome_iff hwf key h0 h1,
    SameLookup, c1GetInt_eq h hmd hrange]
  constructor
  · rintro ⟨v, reads, hg, hf⟩
    obtain ⟨⟨v', reads'⟩, hpart, rfl⟩ := Option.map_eq_some_iff.mp hg
    refine ⟨?_, ⟨_, hf⟩, ⟨_, hpart⟩⟩
    by_cases habs : Absent c key
    · exact Or.inl habs
    · -- what the search of all lines finds lies in the range
      unfold Absent at habs
      push Not at habs
      obtain ⟨l, hl, hk⟩ := habs
      obtain ⟨p, hlt, hp⟩ := List.mem_iff_getElem.mp hl
      have hp' : c.current[p]? = some l := List.getElem?_eq_some_iff.mpr ⟨hlt, hp⟩
      have hv := (c1Search_eq hs hwf le_rfl hfull (c1SearchInt_value hf) (lineVal l)).mpr
        ⟨p, l, hp', by omega, by omega, hk, rfl⟩
      obtain ⟨q, line, hq, -, hqe, hqk, -⟩ :=
        (c1Search_eq hs hwf h0 h1 (c1SearchInt_value hpart) (lineVal l)).mp hv
      exact Or.inr ((covered_iff h hmd hrange hq hqk).mpr hqe)
  · rintro ⟨hcase, ⟨⟨v, reads⟩, hf⟩, ⟨⟨v', reads'⟩, hpart⟩⟩
    refine ⟨v, reads, ?_, hf⟩
    rw [hpart, Option.map_some]
    congr 1
    refine c1SearchInt_congr hs hwf h0 h1 le_rfl hfull hpart hf fun p line hp hk => ?_
    have hc : Covered c key := hcase.resolve_left fun habs =>
      habs line (List.mem_of_getElem? hp) hk
    have hlt := (List.getElem?_eq_some_iff.mp hp).1
    refine iff_of_true ⟨(hplace p line hp hk).1, (covered_iff h hmd hrange hp hk).mp hc⟩ ?_
    omega

instance (c : C1) (key : CStr) : Decidable (Absent c key) :=
  inferInstanceAs (Decidable (∀ l ∈ c.current, lineKey l ≠ key))

instance (file : List Line) (key : CStr) (s e : Int) : Decidable (OffsetsFit file key s e) :=
  inferInstanceAs (Decidable (_ ∨ _ ∨ _))

instance (c : C1) (key : CStr) : Decidable (BothFit c key) :=
  inferInstanceAs (Decidable (_ ∧ ∀ md ∈ c.metadata, ∀ r ∈ lineRange md c.current.length key, _))

/-- The second batch adds a record with the letter `a` and one with `c`. -/
def twoBatches : List (List Entry) :=
  [[⟨['a', '1'], ⟨['v'], false⟩, 0⟩, ⟨['b', '1'], ⟨['v'], false⟩, 0⟩,
      ⟨['c', '1'], ⟨['v'], false⟩, 0⟩],
    [⟨['a', '2'], ⟨['v'], false⟩, 0⟩, ⟨['c', '0'], ⟨['v'], false⟩, 0⟩]]

theorem sortedBatch_twoBatches : ∀ nodes ∈ twoBatches, SortedBatch nodes := by decide

/-- The new record is not hidden. -/
theorem sameLookup_twoBatches :
    ∃ c, run batchStep C1.empty twoBatches = some c ∧ SameLookup c ['a', '2'] := by
  have hview : ((run batchStep C1.empty twoBatches).map fun c =>
      decide ((Absent c ['a', '2'] ∨ Covered c ['a', '2']) ∧ BothFit c ['a', '2']))
        = some true := by
    decide +kernel
  obtain ⟨c, hr, hc⟩ := Option.map_eq_some_iff.mp hview
  exact ⟨c, hr, (sameLookup_iff twoBatches sortedBatch_twoBatches c hr ['a', '2']
    (by decide)).mpr (of_decide_eq_true hc)⟩

/-- The second batch takes the only key with the letter `b` away and adds one with `a`. -/
def gapBatches : List (List Entry) :=
  [[⟨['a', '1'], ⟨['v'], false⟩, 0⟩, ⟨['b', '1'], ⟨['v'], false⟩, 1⟩,
      ⟨['c', '1'], ⟨['v'], false⟩, 0⟩],
    [⟨['a', '2'], ⟨['v'], false⟩, 0⟩, ⟨['c', '0'], ⟨['v'], false⟩, 0⟩]]

/-- The slot of `b` hides the new record. -/
theorem index_hides : (∀ nodes ∈ gapBatches, SortedBatch nodes) ∧
    first ['a', '2'] ∈ charset.dropLast ∧
    ∃ c, run batchStep C1.empty gapBatches = some c ∧ c1Get c ['a', '2'] = some none ∧
      c1Search c.current ['a', '2'] 0 (c.current.length - 1) = some (some ['v']) ∧
      ¬ SameLookup c ['a', '2'] := by
  have hview : ((run batchStep C1.empty gapBatches).map fun c => (c1Get c ['a', '2'],
      c1Search c.current ['a', '2'] 0 (c.current.length - 1)))
        = some (some none, some (some ['v'])) := by
    decide +kernel
  obtain ⟨c, hr, hc⟩ := Option.map_eq_some_iff.mp hview
  obtain ⟨hg, hs⟩ := Prod.mk.inj hc
  refine ⟨by decide +kernel, by decide, c, hr, hg, hs, ?_⟩
  rintro ⟨v, reads, hv, hf⟩
  have h1 : v = none := Option.some.inj ((c1GetInt_value hv).symm.trans hg)
  have h2 : v = some ['v'] := Option.some.inj ((c1SearchInt_value hf).symm.trans hs)
  rw [h1] at h2
  cases h2

/-! ## the subscripts -/

/-- a subscript of `ssindex` and of `boolmask` -/
def InRange (i : Int) : Prop := 0 ≤ i ∧ i < indexSize

instance (i : Int) : Decidable (InRange i) := inferInstanceAs (Decidable (_ ∧ _))

theorem hasSlot_iff (line : Line) : HasSlot line ↔ InRange (charToIdx (first line)) := by
  unfold HasSlot slot InRange
  split_ifs with h <;> simp [h]

/-- the letters with a slot -/
theorem inRange_charToIdx (a : Char) : InRange (charToIdx a) ↔ a ∈ charset := by
  have hall : (charset.all fun a => decide (InRange (charToIdx a))) = true := by decide +kernel
  have hmem : ∀ a ∈ charset, InRange (charToIdx a) := fun a ha =>
    of_decide_eq_true (List.all_eq_true.mp hall a ha)
  refine ⟨fun h => ?_, hmem a⟩
  by_contra hno
  have hfind : charset.findIdx? (· = a) = none := by
    rw [List.findIdx?_eq_none_iff]
    intro b hb
    simpa using ne_of_mem_of_not_mem hb hno
  unfold charToIdx at h
  rw [hfind] at h
  revert h
  split_ifs <;> decide

/-- the letters with a slot and another one behind it -/
theorem inRange_charToIdx_next (a : Char) :
    (InRange (charToIdx a) ∧ InRange (charToIdx a + 1)) ↔ a ∈ charset.dropLast := by
  have hall : (charset.all fun a =>
      decide (InRange (charToIdx a + 1) ↔ a ∈ charset.dropLast)) = true := by decide +kernel
  have hmem : ∀ a ∈ charset, InRange (charToIdx a + 1) ↔ a ∈ charset.dropLast := fun a ha =>
    of_decide_eq_true (List.all_eq_true.mp hall a ha)
  rw [inRange_charToIdx]
  constructor
  · rintro ⟨h, hnext⟩
    exact (hmem a h).mp hnext
  · intro h
    have ha : a ∈ charset := List.dropLast_subset charset h
    exact ⟨ha, (hmem a ha).mpr h⟩

/-- every subscript that `update_sstable` computes in this batch -/
def UpdateInRange (c : C1) (nodes : List Entry) : Prop :=
  ∀ file ∈ published c nodes, ∀ l ∈ file, InRange (charToIdx (first l))

/-- both subscripts of `c1_get`, which computes none without a data file -/
def GetInRange (c : C1) (key : CStr) : Prop :=
  (c.files c.fileCounter).isSome →
    InRange (charToIdx (first key)) ∧ InRange (charToIdx (first key) + 1)

/-- every subscript computed in a run of batches and in a lookup of `key` behind it -/
def IndexInRange (bs : List (List Entry)) (key : CStr) : Prop :=
  Guarded batchStep UpdateInRange C1.empty bs ∧
    ∀ c, run batchStep C1.empty bs = some c → GetInRange c key

/-- The first batch has letters only.  A later one is not empty, it ends before the old file, and
what else it has than letters are tombstones. -/
def Indexable (c : C1) (nodes : List Entry) : Prop :=
  match c.files c.fileCounter with
  | none => ∀ e ∈ nodes, first e.key ∈ charset
  | some old => nodes ≠ [] ∧ rightEndsFirst lineKey (batchLines nodes) old = false ∧
      ∀ e ∈ nodes, first e.key ∈ charset ∨ Tombstone (keyval e)

/-- the first byte of a record, whatever the entry -/
theorem first_keyval_of_ne_nil {e : Entry} (h : e.key ≠ []) : first (keyval e) = first e.key := by
  obtain ⟨a, s, hk⟩ := List.exists_cons_of_ne_nil h
  have hsize : lineSize - 1 = 429 + 1 := rfl
  unfold keyval record
  rw [hk, hsize]
  rfl

/-- a data file is there as soon as it has a number, and its records have slots -/
structure C1.Published (c : C1) : Prop where
  counter : -1 ≤ c.fileCounter
  file : (c.files c.fileCounter).isSome ↔ 0 ≤ c.fileCounter
  slots : ∀ file ∈ c.files c.fileCounter, ∀ l ∈ file, HasSlot l

theorem C1.Published.empty : C1.empty.Published where
  counter := le_rfl
  file := by simp [C1.empty]
  slots := by simp [C1.empty]

theorem C1.Published.batch {c c' : C1} (h : c.Published) {nodes : List Entry}
    (hc : batchStep c nodes = some c') : c'.Published ∧ (c'.files c'.fileCounter).isSome := by
  obtain ⟨file, md, md', -, -, hup, -, hfile, hlt⟩ := batchStep_cases hc
  have hcounter := h.counter
  refine ⟨⟨by omega, ?_, ?_⟩, ?_⟩
  · rw [hfile]
    exact iff_of_true rfl (by omega)
  · intro f hf
    rw [hfile] at hf
    obtain rfl := Option.some.inj hf
    exact hasSlot_of_updateSstable hup
  · rw [hfile]
    rfl

/-- **A batch that can be indexed is indexed in range.** -/
theorem C1.Published.updateInRange {c : C1} (h : c.Published) {nodes : List Entry}
    (hk : ∀ e ∈ nodes, e.key ≠ []) (ho : Indexable c nodes) : UpdateInRange c nodes := by
  have hletter : ∀ e ∈ nodes, first e.key ∈ charset → InRange (charToIdx (first (keyval e))) := by
    intro e he hc
    rw [first_keyval_of_ne_nil (hk e he)]
    exact (inRange_charToIdx _).mpr hc
  have hcounter := h.counter
  intro file hfile l hl
  unfold published at hfile
  unfold Indexable at ho
  cases hold : c.files c.fileCounter with
  | none =>
    have hn : ¬ c.fileCounter + 1 > 0 := by
      intro hn
      have := h.file.mpr (by omega)
      rw [hold] at this
      cases this
    rw [hold] at ho
    rw [if_neg hn] at hfile
    obtain rfl := Option.some.inj hfile
    obtain ⟨e, he, rfl⟩ := List.mem_map.mp hl
    exact hletter e he (ho e he)
  | some old =>
    have hn : c.fileCounter + 1 > 0 := by
      have := h.file.mp (by rw [hold]; rfl)
      omega
    rw [hold] at ho hfile
    obtain ⟨hne, hr, hall⟩ := ho
    rw [if_pos hn] at hfile
    have hbatch : batchLines nodes ≠ [] := by simpa [batchLines] using hne
    rcases merge_mem_of_endsFirst hbatch hr hfile l hl with hl' | ⟨hl', ht⟩
    · exact (hasSlot_iff l).mp (h.slots old hold l hl')
    · obtain ⟨e, he, rfl⟩ := List.mem_map.mp hl'
      exact hletter e he ((hall e he).resolve_right ht)

/-- **and only such a batch**, where batches are sorted and well formed. -/
theorem C1.Aligned.indexable {c : C1} (h : c.Aligned) {nodes : List Entry}
    (hb : SortedBatch nodes) (hu : UpdateInRange c nodes) : Indexable c nodes := by
  have hslot : ∀ l ∈ c.current, InRange (charToIdx (first l)) := by
    intro l hl
    obtain ⟨e, he, rfl⟩ := h.wf.stored l hl
    exact (hasSlot_iff _).mp (hasSlot_keyval he)
  have hletter : ∀ e ∈ nodes, InRange (charToIdx (first (keyval e))) → first e.key ∈ charset := by
    intro e he hr
    rw [first_keyval (hb.2 e he)] at hr
    exact (inRange_charToIdx _).mp hr
  have hblank : ¬ InRange (charToIdx (first blank)) := by decide
  have hpub := hu _ (published_eq h.wf hb)
  unfold Indexable
  cases hold : c.files c.fileCounter with
  | none =>
    have hn : ¬ 0 ≤ c.fileCounter := by
      intro hn
      have := h.wf.file.mpr hn
      rw [hold] at this
      cases this
    rw [if_neg hn] at hpub
    exact fun e he => hletter e he (hpub _ (List.mem_map_of_mem he))
  | some old =>
    have hn : 0 ≤ c.fileCounter := h.wf.file.mp (by rw [hold]; rfl)
    have hcur := current_eq hold
    rw [if_pos hn] at hpub
    have hne : nodes ≠ [] := by
      rintro rfl
      exact hblank (hpub blank (by simp))
    rw [if_neg hne, mergedLines, hcur] at hpub
    rw [hcur] at hslot
    refine ⟨hne, ?_, fun e he => ?_⟩
    · apply Bool.eq_false_of_not_eq_true
      intro hr
      refine hblank (hpub blank (List.mem_append_right _ ?_))
      rw [spill, if_pos hr]
      exact List.mem_singleton_self blank
    · have hfit := hb.2 e he
      by_cases hflag : e.flag = 0
      · -- the put is written, or the old file has a record with its key
        left
        by_cases hpart : ∃ y ∈ old, lineKey y = e.key
        · obtain ⟨y, hy, hyk⟩ := hpart
          obtain ⟨e', he', rfl⟩ := h.wf.stored y (by rw [hcur]; exact hy)
          have := (inRange_charToIdx _).mp (hslot _ hy)
          rwa [first_keyval he'.fits, ← lineKey_keyval he'.fits, hyk] at this
        · have hkeep : keyval e ∈ keepAlone (keyval e) := by
            simp [keepAlone, lineFlag_keyval hfit, hflag]
          apply hletter e he
          refine hpub _ (List.mem_append_left _ ?_)
          refine mem_mergeWith_left hkeep _ _ (List.mem_map_of_mem he) fun y hy hyk => hpart ?_
          rw [lineKey_keyval hfit] at hyk
          exact ⟨y, hy, hyk⟩
      · exact Or.inr ⟨e.flag, by rw [sscanf_keyval hfit]; rfl, hflag⟩

/-- a batch is carried out when the subscripts are in range -/
theorem C1.Aligned.batchStep_defined {c : C1} (h : c.Aligned) {nodes : List Entry}
    (hb : SortedBatch nodes) (hu : UpdateInRange c nodes) : ∃ c', batchStep c nodes = some c' := by
  have hcounter := h.wf.counter
  obtain ⟨md, hmd, -⟩ := h.wf.metadata
  obtain ⟨file, hpub⟩ : ∃ file, published c nodes = some file := ⟨_, published_eq h.wf hb⟩
  have hslot : ∀ l ∈ file, HasSlot l := fun l hl => (hasSlot_iff l).mpr (hu file hpub l hl)
  have hins : ∃ c', c1BatchInsert c nodes = some (0, c') := by
    unfold published at hpub
    unfold c1BatchInsert
    dsimp only
    split_ifs at hpub ⊢ with hn
    · obtain ⟨old, hold, hm⟩ := Option.bind_eq_some_iff.mp hpub
      obtain ⟨md', hup, -⟩ := updateSstable_eq hslot (c.fileCounter + 1 + 1) md
      have hprev : Function.update c.files (c.fileCounter + 1) (some (nodes.map keyval))
          (c.fileCounter + 1 - 1) = some old := by
        rw [Function.update_of_ne (by omega), add_sub_cancel_right]
        exact hold
      rw [hprev]
      simp only [show merge (nodes.map keyval) old = some file from hm, Option.bind_eq_bind,
        Option.bind_some, c1Publish, Function.update_self, hmd, hup]
      exact ⟨_, rfl⟩
    · obtain rfl := Option.some.inj hpub
      obtain ⟨md', hup, -⟩ := updateSstable_eq hslot (c.fileCounter + 1) md
      rw [batchLines] at hup
      simp only [c1Publish, Function.update_self, hmd, Option.bind_eq_bind, Option.bind_some, hup]
      exact ⟨_, rfl⟩
  obtain ⟨c', hins⟩ := hins
  exact ⟨c', by simp only [batchStep, hins]⟩

/-- what the batches and the key have to be like -/
def IndexFits (bs : List (List Entry)) (key : CStr) : Prop :=
  Guarded batchStep Indexable C1.empty bs ∧ (bs = [] ∨ first key ∈ charset.dropLast)

theorem inRange_of_fits {bs : List (List Entry)} (hk : ∀ nodes ∈ bs, ∀ e ∈ nodes, e.key ≠ [])
    {key : CStr} (h : IndexFits bs key) : IndexInRange bs key := by
  obtain ⟨hg, hkey⟩ := h
  have hg' : Guarded batchStep (fun _ nodes => ∀ e ∈ nodes, e.key ≠ []) C1.empty bs :=
    guarded_of_forall fun nodes hn _ => hk nodes hn
  refine ⟨Guarded.of_inv (fun _ _ _ hi _ hs => (hi.batch hs).1)
    (fun _ _ hi ho => hi.updateInRange ho.2 ho.1) C1.Published.empty (hg.and hg'), ?_⟩
  intro c hr hfile
  rcases hkey with rfl | hkey
  · obtain rfl := Option.some.inj hr
    cases hfile
  · exact (inRange_charToIdx_next _).mpr hkey

theorem fits_of_inRange {bs : List (List Entry)} (hb : ∀ nodes ∈ bs, SortedBatch nodes)
    {key : CStr} (h : IndexInRange bs key) : IndexFits bs key := by
  obtain ⟨hu, hget⟩ := h
  have hs : Guarded batchStep (fun _ nodes => SortedBatch nodes) C1.empty bs :=
    guarded_of_forall fun nodes hn _ => hb nodes hn
  have hg := hu.and hs
  refine ⟨Guarded.of_inv (fun _ _ _ hi ho ht => hi.batch ho.2 ht)
    (fun _ _ hi ho => hi.indexable ho.2 ho.1) C1.Aligned.empty hg, ?_⟩
  induction bs using List.reverseRecOn with
  | nil => exact Or.inl rfl
  | append_singleton bs nodes _ =>
    right
    have hstep : ∀ c nodes, C1.Aligned c → UpdateInRange c nodes ∧ SortedBatch nodes →
        ∃ t, batchStep c nodes = some t ∧ t.Aligned := by
      intro c nodes hi ho
      obtain ⟨t, ht⟩ := hi.batchStep_defined ho.2 ho.1
      exact ⟨t, ht, hi.batch ho.2 ht⟩
    obtain ⟨c, hr, -⟩ := run_of_guarded hstep C1.Aligned.empty hg
    rw [run_snoc] at hr
    obtain ⟨d, hd, hlast⟩ := Option.bind_eq_some_iff.mp hr
    obtain ⟨file, -, -, -, -, -, -, hfile, -⟩ := batchStep_cases hlast
    apply (inRange_charToIdx_next _).mp
    apply hget c
    · rw [run_snoc, hd]
      exact hlast
    · rw [hfile]
      rfl

/-- **When every subscript of the index is in range**: if no later batch is empty or outlasts the
old file, no key that stays begins with another byte than a letter, and the key looked up begins
with a letter that has another one behind it; for sorted batches of well-formed records only
then. -/
theorem indexInRange (bs : List (List Entry)) (hk : ∀ nodes ∈ bs, ∀ e ∈ nodes, e.key ≠ [])
    (key : CStr) : (IndexFits bs key → IndexInRange bs key) ∧
      ((∀ nodes ∈ bs, SortedBatch nodes) → (IndexInRange bs key ↔ IndexFits bs key)) :=
  ⟨inRange_of_fits hk, fun hb => ⟨fits_of_inRange hb, inRange_of_fits hk⟩⟩

instance (c : C1) (nodes : List Entry) : Decidable (Indexable c nodes) :=
  match h : c.files c.fileCounter with
  | none => decidable_of_iff (∀ e ∈ nodes, first e.key ∈ charset) (by rw [Indexable, h])
  | some old => decidable_of_iff (nodes ≠ [] ∧
      rightEndsFirst lineKey (batchLines nodes) old = false ∧
      ∀ e ∈ nodes, first e.key ∈ charset ∨ Tombstone (keyval e)) (by rw [Indexable, h])

/-- Two batches of puts. -/
theorem indexInRange_twoBatches : IndexInRange twoBatches ['b', '1'] :=
  (indexInRange twoBatches (by decide) ['b', '1']).1 ⟨by decide +kernel, Or.inr (by decide)⟩

/-- a put of a key that begins with no letter -/
def bang : Entry := ⟨['!'], ⟨['v'], false⟩, 0⟩

/-- Out of range are a key that begins with no letter, the blank record of a merge and the slot
behind the last letter. -/
theorem index_leaves_range : ¬ IndexInRange [[bang]] ['a'] ∧ ¬ IndexInRange [[oldA], [newB]] ['a'] ∧
    ¬ IndexInRange [[oldA]] ['z'] := by
  refine ⟨?_, ?_, ?_⟩
  · rintro ⟨⟨hu, -⟩, -⟩
    exact absurd (hu _ rfl (keyval bang) (by simp [batchLines])) (by decide)
  · have hview : ((batchStep C1.empty [oldA]).bind fun c => published c [newB])
        = some [keyval oldA, keyval newB, blank] := by
      decide +kernel
    obtain ⟨c, hc, hfile⟩ := Option.bind_eq_some_iff.mp hview
    rintro ⟨⟨-, hu⟩, -⟩
    exact absurd ((hu c hc).1 _ hfile blank (by simp)) (by decide)
  · have hview : ((batchStep C1.empty [oldA]).map fun c => (c.files c.fileCounter).isSome)
        = some true := by
      decide +kernel
    obtain ⟨c, hc, hfile⟩ := Option.map_eq_some_iff.mp hview
    rintro ⟨-, hget⟩
    have hrun : run batchStep C1.empty [[oldA]] = some c := by rw [run_cons, hc]; rfl
    exact absurd (hget c hrun hfile).2 (by decide)

end LsmKv
