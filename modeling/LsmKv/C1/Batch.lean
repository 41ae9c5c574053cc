import LsmKv.C1.Search

/-!
# A batch written, merged and indexed

* `C1.current`            the records of the current data file;
* `Storable e`            `e` is written as a record that is read back and has a slot in the index;
* `C1.Wf`                 the current file is a sorted file of such records, and it is indexed;
* `c1BatchInsert_eq`      a batch that leaves no blank record: the new current file is the merge;
* `c1BatchInsert_spill`   a batch that does leaves the index array;
* `c1BatchInsert_mem`     in any case the records come from the batch and the old file;
* `batch_mem_current`, `old_mem_current`   the records that stay;
* `batchStep`             a batch that succeeds.
-/

namespace LsmKv

open KeySorted

/-- the records of the current file -/
def C1.current (c : C1) : List Line := (c.files c.fileCounter).getD []

/-- the entry can be written, read back and indexed -/
structure Storable (e : Entry) : Prop where
  fits : Fits e
  slot : HasSlot e.key

theorem storable_iff (e : Entry) : Storable e ↔ Fits e ∧ HasSlot e.key :=
  ⟨fun h => ⟨h.fits, h.slot⟩, fun h => ⟨h.1, h.2⟩⟩

instance (e : Entry) : Decidable (Storable e) := decidable_of_iff _ (storable_iff e).symm

/-- The invariant of c1 after `c1_init` on an empty directory. -/
structure C1.Wf (c : C1) : Prop where
  counter : -1 ≤ c.fileCounter
  file : (c.files c.fileCounter).isSome ↔ 0 ≤ c.fileCounter
  sorted : Sorted lineKey c.current
  stored : ∀ l ∈ c.current, ∃ e, Storable e ∧ keyval e = l
  metadata : ∃ md, c.metadata = some md ∧ Indexed c.current md.ssindex

theorem C1.Wf.empty : C1.empty.Wf where
  counter := le_rfl
  file := by simp [C1.empty]
  sorted := sorted_nil
  stored := by simp [C1.current, C1.empty]
  metadata := ⟨_, rfl, by simp [Indexed, C1.current, C1.empty]⟩

theorem current_eq {c : C1} {file : List Line} (h : c.files c.fileCounter = some file) :
    c.current = file := by
  rw [C1.current, h]
  rfl

theorem hasSlot_keyval {e : Entry} (h : Storable e) : HasSlot (keyval e) := by
  have := h.slot
  unfold HasSlot at this ⊢
  rwa [first_keyval h.fits]

/-- a file of storable records is published -/
theorem c1Publish_eq {c : C1} {file : List Line} {md : C1Metadata}
    (hn : 0 ≤ c.fileCounter) (hfile : c.files c.fileCounter = some file)
    (hmd : c.metadata = some md) (hs : Sorted lineKey file)
    (hst : ∀ l ∈ file, ∃ e, Storable e ∧ keyval e = l) :
    ∃ c', c1Publish c = some (0, c') ∧ c'.Wf ∧ 0 ≤ c'.fileCounter ∧ c'.current = file := by
  have hslot : ∀ l ∈ file, HasSlot l := by
    intro l hl
    obtain ⟨e, he, rfl⟩ := hst l hl
    exact hasSlot_keyval he
  obtain ⟨md', hup, -, hidx⟩ := updateSstable_eq hslot c.fileCounter md
  refine ⟨{ c with metadata := some md', sstable := some md' }, ?_, ?_, hn, current_eq hfile⟩
  · unfold c1Publish
    rw [hfile]
    simp [hmd, hup]
  · have hcur : C1.current { c with metadata := some md', sstable := some md' } = file :=
      current_eq hfile
    exact ⟨by simp only; omega, by simp [hfile, hn], by rwa [hcur], by rwa [hcur],
      ⟨md', rfl, by rwa [hcur]⟩⟩

/-- a file with a record that has no slot is not -/
theorem c1Publish_none {c : C1} {file : List Line} (hfile : c.files c.fileCounter = some file)
    {l : Line} (hl : l ∈ file) (hslot : ¬ HasSlot l) : c1Publish c = none := by
  unfold c1Publish
  rw [hfile]
  simp only [updateSstable, indexLoop_none hslot file 0 _ _ hl, Option.map_none,
    Option.bind_eq_bind, Option.bind_none, Option.bind_fun_none]

/-- the records of a batch -/
def batchLines (nodes : List Entry) : List Line := nodes.map keyval

/-- the batch has a key above all keys of an existing data file -/
def Spills (c : C1) (nodes : List Entry) : Prop :=
  0 ≤ c.fileCounter ∧ ∃ e ∈ nodes, ∀ l ∈ c.current, lineKey l < e.key

instance (c : C1) (nodes : List Entry) : Decidable (Spills c nodes) :=
  inferInstanceAs (Decidable (_ ∧ _))

theorem sorted_batchLines_of_fits {nodes : List Entry} (hs : Sorted Entry.key nodes)
    (hf : ∀ e ∈ nodes, Fits e) : Sorted lineKey (batchLines nodes) := sorted_keyvals hs hf

theorem wf_batchLines_of_fits {nodes : List Entry} (hf : ∀ e ∈ nodes, Fits e) :
    ∀ l ∈ batchLines nodes, WfLine l := wf_keyvals hf

theorem sorted_batchLines {nodes : List Entry} (hs : Sorted Entry.key nodes)
    (hf : ∀ e ∈ nodes, Storable e) : Sorted lineKey (batchLines nodes) :=
  sorted_batchLines_of_fits hs fun e he => (hf e he).fits

theorem wf_batchLines {nodes : List Entry} (hf : ∀ e ∈ nodes, Storable e) :
    ∀ l ∈ batchLines nodes, WfLine l :=
  wf_batchLines_of_fits fun e he => (hf e he).fits

theorem C1.Wf.wfLine {c : C1} (h : c.Wf) : ∀ l ∈ c.current, WfLine l := by
  intro l hl
  obtain ⟨e, he, rfl⟩ := h.stored l hl
  exact wfLine_keyval he.fits

theorem spills_iff {c : C1} (h : c.Wf) {nodes : List Entry} (hs : Sorted Entry.key nodes)
    (hf : ∀ e ∈ nodes, Storable e) : Spills c nodes ↔
      0 ≤ c.fileCounter ∧ rightEndsFirst lineKey (batchLines nodes) c.current = true := by
  rw [rightEndsFirst_iff _ _ (sorted_batchLines hs hf) h.sorted]
  unfold Spills batchLines
  constructor
  · rintro ⟨hn, e, he, hall⟩
    refine ⟨hn, keyval e, List.mem_map_of_mem he, fun l hl => ?_⟩
    rw [lineKey_keyval (hf e he).fits]
    exact hall l hl
  · rintro ⟨hn, x, hx, hall⟩
    obtain ⟨e, he, rfl⟩ := List.mem_map.mp hx
    refine ⟨hn, e, he, fun l hl => ?_⟩
    have := hall l hl
    rwa [lineKey_keyval (hf e he).fits] at this

/-- the merge of a batch into the current file -/
def mergedLines (nodes : List Entry) (c : C1) : List Line :=
  mergeWith lineKey keepAlone keepAlone keepOld (batchLines nodes) c.current

/-- **A batch that leaves no blank record.** -/
theorem c1BatchInsert_eq {c : C1} (h : c.Wf) {nodes : List Entry} (hne : nodes ≠ [])
    (hs : Sorted Entry.key nodes) (hf : ∀ e ∈ nodes, Storable e) (hno : ¬ Spills c nodes) :
    ∃ c', c1BatchInsert c nodes = some (0, c') ∧ c'.Wf ∧ 0 ≤ c'.fileCounter ∧
      c'.current = mergedLines nodes c := by
  have hsb := sorted_batchLines hs hf
  have hstb : ∀ l ∈ batchLines nodes, ∃ e, Storable e ∧ keyval e = l := by
    intro l hl
    obtain ⟨e, he, rfl⟩ := List.mem_map.mp hl
    exact ⟨e, hf e he, rfl⟩
  have hcounter := h.counter
  obtain ⟨md, hmd, -⟩ := h.metadata
  unfold c1BatchInsert
  by_cases hn : 0 ≤ c.fileCounter
  · obtain ⟨old, hold⟩ := Option.isSome_iff_exists.mp (h.file.mpr hn)
    have hcur := current_eq hold
    have hspill : spill (batchLines nodes) old = [] := by
      unfold spill
      rw [if_neg]
      intro hr
      exact hno ((spills_iff h hs hf).mpr ⟨hn, by rwa [hcur]⟩)
    have hm : merge (nodes.map keyval) old = some (mergedLines nodes c) := by
      have hbatch : batchLines nodes ≠ [] := by simpa [batchLines] using hne
      have hm := merge_eq hbatch (wf_batchLines hf) (hcur ▸ h.wfLine)
      rw [hspill, List.append_nil] at hm
      rw [mergedLines, hcur]
      exact hm
    have hprev : Function.update c.files (c.fileCounter + 1) (some (nodes.map keyval))
        (c.fileCounter + 1 - 1) = some old := by
      rw [Function.update_of_ne (by omega), add_sub_cancel_right]
      exact hold
    simp only
    rw [if_pos (by omega), hprev]
    simp only [hm, Option.bind_eq_bind, Option.bind_some]
    refine c1Publish_eq (by simp only; omega) (by simp) hmd
      (sorted_mergeWith keeps _ _ hsb h.sorted) fun l hl => ?_
    rcases mem_mergeWith keeps _ _ l hl with hl' | hl'
    · exact hstb l hl'
    · exact h.stored l hl'
  · have hm1 : c.fileCounter = -1 := by omega
    have hnone : c.files c.fileCounter = none := by
      rw [← Option.not_isSome_iff_eq_none, h.file]
      exact hn
    have hcur : c.current = [] := by rw [C1.current, hnone]; rfl
    simp only
    rw [if_neg (by omega), mergedLines, hcur, mergeWith_nil_right]
    exact c1Publish_eq (by simp only; omega) (by simp [batchLines]) hmd hsb hstb

/-- A batch with a key above all keys of the old file leaves a blank record, which the index has
no slot for. -/
theorem c1BatchInsert_spill {c : C1} (h : c.Wf) {nodes : List Entry}
    (hs : Sorted Entry.key nodes) (hf : ∀ e ∈ nodes, Storable e) (hsp : Spills c nodes) :
    c1BatchInsert c nodes = none := by
  have hn := hsp.1
  obtain ⟨old, hold⟩ := Option.isSome_iff_exists.mp (h.file.mpr hn)
  have hcur := current_eq hold
  have hspill : spill (batchLines nodes) old = [blank] := by
    unfold spill
    rw [if_pos]
    rw [← hcur]
    exact ((spills_iff h hs hf).mp hsp).2
  have hne : nodes ≠ [] := by
    obtain ⟨-, e, he, -⟩ := hsp
    exact List.ne_nil_of_mem he
  have hbatch : batchLines nodes ≠ [] := by simpa [batchLines] using hne
  have hm := merge_eq hbatch (wf_batchLines hf) (hcur ▸ h.wfLine)
  have hprev : Function.update c.files (c.fileCounter + 1) (some (nodes.map keyval))
      (c.fileCounter + 1 - 1) = some old := by
    rw [Function.update_of_ne (by omega), add_sub_cancel_right]
    exact hold
  unfold c1BatchInsert
  simp only
  rw [if_pos (by omega), hprev]
  simp only [Option.bind_eq_bind]
  rw [show merge (nodes.map keyval) old = _ from hm, Option.bind_some]
  refine c1Publish_none (l := blank) (by simp; rfl) (by simp [hspill]) (by decide)

/-- **Where the records of the current file come from**, whatever c1 and the batch are. -/
theorem c1BatchInsert_mem {c c' : C1} {nodes : List Entry} {rc : Int}
    (h : c1BatchInsert c nodes = some (rc, c')) :
    ∀ l ∈ c'.current, l ∈ batchLines nodes ∨ l ∈ c.current ∨ l = blank := by
  have hpub : ∀ {d d' : C1} {rc : Int}, c1Publish d = some (rc, d') → d'.current = d.current := by
    intro d d' rc hd
    unfold c1Publish at hd
    split at hd
    · cases hd
    · simp only [Option.bind_eq_bind, Option.bind_eq_some_iff] at hd
      obtain ⟨md, -, md', -, hd⟩ := hd
      cases hd
      rfl
  have hnew : ∀ (d : C1) (n : Int) (f : List Line),
      C1.current { d with fileCounter := n, files := Function.update d.files n (some f) } = f :=
    fun d n f => current_eq (by simp)
  unfold c1BatchInsert at h
  dsimp only at h
  split_ifs at h with hn
  · split at h
    · cases h
      rw [hnew]
      exact fun l hl => Or.inl hl
    · rename_i old hold
      rw [Function.update_of_ne (by omega), add_sub_cancel_right] at hold
      simp only [Option.bind_eq_bind, Option.bind_eq_some_iff] at h
      obtain ⟨out, hout, h⟩ := h
      rw [hpub h, C1.current]
      simp only [Function.update_self, Option.getD_some]
      rw [current_eq hold]
      exact merge_mem hout
  · rw [hpub h, hnew]
    exact fun l hl => Or.inl hl

/-- **A record of the old file that is no tombstone stays.** -/
theorem old_mem_current {nodes : List Entry} {c : C1} {l : Line} (hl : l ∈ c.current)
    (hflag : lineFlag l = 0) : l ∈ mergedLines nodes c := by
  have hk : l ∈ keepAlone l := by simp [keepAlone, hflag]
  exact mem_mergeWith_right hk (fun _ => hk) _ _ hl

/-- **A record of the batch that is no tombstone stays** unless the old file has another record
with its key. -/
theorem batch_mem_current {nodes : List Entry} {c : C1} {e : Entry} (he : e ∈ nodes)
    (hfit : Fits e) (hflag : e.flag = 0)
    (hsame : ∀ l ∈ c.current, lineKey l = e.key → l = keyval e) :
    keyval e ∈ mergedLines nodes c := by
  have hf0 : lineFlag (keyval e) = 0 := by rw [lineFlag_keyval hfit, hflag]
  by_cases hold : keyval e ∈ c.current
  · exact old_mem_current hold hf0
  · refine mem_mergeWith_left (by simp [keepAlone, hf0]) _ _ (List.mem_map_of_mem he) ?_
    intro l hl hk
    rw [lineKey_keyval hfit] at hk
    exact hold (hsame l hl hk ▸ hl)

/-! ## batches that succeed -/

def batchStep (c : C1) (nodes : List Entry) : Option C1 :=
  match c1BatchInsert c nodes with
  | some (0, c') => some c'
  | _ => none

theorem batchStep_eq {c c' : C1} {nodes : List Entry} (h : batchStep c nodes = some c') :
    c1BatchInsert c nodes = some (0, c') := by
  unfold batchStep at h
  split at h
  · rename_i c1 e
    rw [e, Option.some.inj h]
  · cases h

end LsmKv
