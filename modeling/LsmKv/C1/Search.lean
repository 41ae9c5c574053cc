import LsmKv.C1.Merge

/-!
# The index and the lookup

* `Indexed file ssindex`   no slot of a first letter points behind a record with that letter;
* `updateSstable_eq`       the index is built when every first byte has a slot, and it is `Indexed`;
* `c1SearchFuel_found`     on a sorted file the search finds the record at any place of its range;
* `c1SearchFuel_absent`    without a record of the key in its range it ends with NULL;
* `c1Get_found`            the lookup of a record that the range read from the index covers;
* `c1Get_mem`              what a lookup returns is the value field of some record.
-/

namespace LsmKv

open KeySorted

/-! ## the index -/

/-- the first byte of the record has a slot in the index -/
def HasSlot (line : Line) : Prop := slot (charToIdx (first line)) ≠ none

instance (line : Line) : Decidable (HasSlot line) := inferInstanceAs (Decidable (_ ≠ _))

/-- the slot of a record's first letter holds -1 or an offset not behind the record -/
def Indexed (file : List Line) (ssindex : Nat → Int) : Prop :=
  ∀ (p : Nat) line i, file[p]? = some line → slot (charToIdx (first line)) = some i →
    ssindex i = -1 ∨ 0 ≤ ssindex i ∧ ssindex i ≤ p * lineSize

theorem indexLoop_eq (file : List Line) : ∀ (p : Nat) (ssindex : Nat → Int) (mask : Nat → Bool),
    (∀ line ∈ file, HasSlot line) → ∃ ssindex', indexLoop file p ssindex mask = some ssindex' ∧
      (∀ i, mask i = true → ssindex' i = ssindex i) ∧
      ∀ q line i, file[q]? = some line → slot (charToIdx (first line)) = some i → mask i = false →
        0 ≤ ssindex' i ∧ ssindex' i ≤ (p + q : Nat) * lineSize := by
  induction file with
  | nil => exact fun p ssindex mask _ => ⟨ssindex, rfl, fun _ _ => rfl, by simp⟩
  | cons line file ih =>
    intro p ssindex mask hslot
    have htail : ∀ l ∈ file, HasSlot l := fun l hl => hslot l (List.mem_cons_of_mem _ hl)
    obtain ⟨idx, hidx⟩ := Option.ne_none_iff_exists'.mp (hslot line (by simp))
    unfold indexLoop
    rw [hidx]
    by_cases hm : mask idx = true
    · obtain ⟨s', hs', hkeep, hnew⟩ := ih (p + 1) ssindex mask htail
      refine ⟨s', by simpa [hm] using hs', hkeep, fun q l i hq hi hmi => ?_⟩
      cases q with
      | zero =>
        obtain rfl : line = l := by simpa using hq
        obtain rfl : idx = i := Option.some.inj (hidx.symm.trans hi)
        rw [hm] at hmi
        cases hmi
      | succ q =>
        have := hnew q l i (by simpa using hq) hi hmi
        rwa [show p + (q + 1) = p + 1 + q by omega]
    · obtain ⟨s', hs', hkeep, hnew⟩ := ih (p + 1) (Function.update ssindex idx (p * lineSize))
        (Function.update mask idx true) htail
      have hset : s' idx = p * lineSize := by
        rw [hkeep idx (by simp)]
        simp
      refine ⟨s', by simpa [hm] using hs', fun i hi => ?_, fun q l i hq hi hmi => ?_⟩
      · have hne : i ≠ idx := by rintro rfl; exact hm hi
        rw [hkeep i (by simpa [hne] using hi)]
        simp [hne]
      · by_cases hii : i = idx
        · subst hii
          rw [hset]
          exact ⟨by positivity, by push_cast; gcongr; omega⟩
        · cases q with
          | zero =>
            obtain rfl : line = l := by simpa using hq
            exact absurd (Option.some.inj (hidx.symm.trans hi)).symm hii
          | succ q =>
            have := hnew q l i (by simpa using hq) hi (by simpa [hii] using hmi)
            rwa [show p + (q + 1) = p + 1 + q by omega]

/-- a record that has no slot ends the loop -/
theorem indexLoop_none {l : Line} (hslot : ¬ HasSlot l) : ∀ (file : List Line) p s m, l ∈ file →
    indexLoop file p s m = none := by
  intro file
  induction file with
  | nil => intro _ _ _ h; simp at h
  | cons a file ih =>
    intro p s m h
    unfold indexLoop
    rcases List.mem_cons.mp h with rfl | h'
    · rw [not_not.mp hslot]
    · split
      · rfl
      · split_ifs
        · exact ih _ _ _ h'
        · exact ih _ _ _ h'

/-- **The index is built** when every first byte has a slot. -/
theorem updateSstable_eq {file : List Line} (h : ∀ line ∈ file, HasSlot line) (n : Int)
    (md : C1Metadata) : ∃ md', updateSstable file n md = some md' ∧ md'.counterValue = n ∧
      Indexed file md'.ssindex := by
  obtain ⟨s', hs', -, hnew⟩ := indexLoop_eq file 0 md.ssindex (fun _ => false) h
  refine ⟨⟨n, fun i => if s' i = 0 then -1 else s' i⟩, by simp [updateSstable, hs'], rfl,
    fun p line i hp hi => ?_⟩
  have := hnew p line i hp hi rfl
  dsimp only
  split_ifs
  · exact Or.inl rfl
  · exact Or.inr (by simpa using this)

/-! ## the search -/

/-- **The binary search finds its key** wherever in its range it is. -/
theorem c1SearchFuel_found {file : List Line} (hs : Sorted lineKey file)
    (hwf : ∀ l ∈ file, WfLine l) {line : Line} {p : Nat} (hp : file[p]? = some line) :
    ∀ (fuel : Nat) (startline endline : Int), 0 ≤ startline → startline ≤ p → p ≤ endline →
      endline < file.length → (endline - startline + 1).toNat < fuel →
      c1SearchFuel file (lineKey line) fuel startline endline = some (some (lineVal line)) := by
  obtain ⟨hlt, rfl⟩ := List.getElem?_eq_some_iff.mp hp
  have hord := List.pairwise_iff_getElem.mp hs
  intro fuel
  induction fuel with
  | zero => intro s e _ _ _ _ hf; omega
  | succ fuel ih =>
    intro s e h0 h1 h2 h3 hf
    obtain ⟨m, hm⟩ : ∃ m : Nat, (e - s) / 2 + s = m := ⟨((e - s) / 2 + s).toNat, by omega⟩
    have hml : m < file.length := by omega
    have hwm : WfLine file[m] := hwf _ (List.getElem_mem hml)
    have hget : (if (0 : Int) ≤ (m : Int) then file[(m : Int).toNat]? else none)
        = some file[m] := by
      rw [if_pos (by omega), Int.toNat_natCast, List.getElem?_eq_getElem hml]
    unfold c1SearchFuel
    rw [if_pos (by omega), hm]
    simp only [hget]
    rw [hwm]
    simp only [strcmp_zero, gt_iff_lt, strcmp_pos]
    rcases lt_trichotomy m p with h | h | h
    · have hk := hord m p hml hlt h
      rw [if_neg hk.ne, if_neg (not_lt.mpr hk.le)]
      exact ih (m + 1) e (by omega) (by omega) h2 h3 (by omega)
    · subst h
      rw [if_pos rfl]
    · have hk := hord p m hlt hml h
      rw [if_neg hk.ne', if_pos hk]
      exact ih s (m - 1) h0 h1 (by omega) (by omega) (by omega)

/-- **The binary search of an absent key ends with NULL.** -/
theorem c1SearchFuel_absent {file : List Line} (hwf : ∀ l ∈ file, WfLine l) {key : CStr} :
    ∀ (fuel : Nat) (startline endline : Int), 0 ≤ startline → endline < file.length →
      (∀ (p : Nat) line, file[p]? = some line → startline ≤ p → p ≤ endline →
        lineKey line ≠ key) →
      (endline - startline + 1).toNat < fuel →
      c1SearchFuel file key fuel startline endline = some none := by
  intro fuel
  induction fuel with
  | zero => intro s e _ _ _ hf; omega
  | succ fuel ih =>
    intro s e h0 h1 hno hf
    unfold c1SearchFuel
    by_cases hse : s ≤ e
    · obtain ⟨m, hm⟩ : ∃ m : Nat, (e - s) / 2 + s = m := ⟨((e - s) / 2 + s).toNat, by omega⟩
      have hml : m < file.length := by omega
      have hget : (if (0 : Int) ≤ (m : Int) then file[(m : Int).toNat]? else none)
          = some file[m] := by
        rw [if_pos (by omega), Int.toNat_natCast, List.getElem?_eq_getElem hml]
      have hne := hno m file[m] (List.getElem?_eq_getElem hml) (by omega) (by omega)
      rw [if_pos hse, hm]
      simp only [hget]
      rw [hwf _ (List.getElem_mem hml)]
      simp only [strcmp_zero, gt_iff_lt, strcmp_pos]
      rw [if_neg hne]
      split_ifs
      · exact ih s (m - 1) h0 (by omega)
          (fun p l hp hsp hpe => hno p l hp hsp (by omega)) (by omega)
      · exact ih (m + 1) e (by omega) h1
          (fun p l hp hsp hpe => hno p l hp (by omega) hpe) (by omega)
    · rw [if_neg (by omega)]

/-- what the search returns is the value field of some record -/
theorem c1SearchFuel_mem {file : List Line} {key v : CStr} : ∀ (fuel : Nat) (s e : Int),
    c1SearchFuel file key fuel s e = some (some v) →
      ∃ line ∈ file, (sscanf line).1 = some key ∧ (sscanf line).2.1 = some v := by
  intro fuel
  induction fuel with
  | zero => intro s e h; cases h
  | succ fuel ih =>
    intro s e h
    unfold c1SearchFuel at h
    split_ifs at h with hse
    · simp only at h
      split at h
      · cases h
      · rename_i line hl
        split at h
        · rename_i rKey val d hsc
          split_ifs at h with hz hgt
          · have hmem : line ∈ file := by
              split_ifs at hl
              exact List.mem_of_getElem? hl
            refine ⟨line, hmem, ?_, ?_⟩
            · rw [hsc, (strcmp_zero rKey key).mp hz]
            · rw [hsc]
              exact Option.some.inj h
          · exact ih _ _ h
          · exact ih _ _ h
        · cases h
    · cases h

/-! ## the lookup -/

/-- the range read from the index reaches behind the record of `key` -/
def Covered (c : C1) (key : CStr) : Prop :=
  ∃ file ∈ c.files c.fileCounter, ∃ md ∈ c.metadata, ∃ j ∈ slot (charToIdx (first key) + 1),
    ∃ x ∈ file.zipIdx, lineKey x.1 = key ∧
      (md.ssindex j = -1 ∨ (x.2 : Int) < (md.ssindex j).tdiv lineSize)

instance (c : C1) (key : CStr) : Decidable (Covered c key) :=
  inferInstanceAs (Decidable (∃ file ∈ c.files c.fileCounter, ∃ md ∈ c.metadata,
    ∃ j ∈ slot (charToIdx (first key) + 1), ∃ x ∈ file.zipIdx, _ ∧ _))

theorem lineSize_pos : (0 : Int) < lineSize := by decide

/-- **A record that the range covers is found.** -/
theorem c1Get_found {c : C1} {file : List Line} {md : C1Metadata} {p i j : Nat} {line : Line}
    (hfile : c.files c.fileCounter = some file) (hmd : c.metadata = some md)
    (hs : Sorted lineKey file) (hwf : ∀ l ∈ file, WfLine l) (hidx : Indexed file md.ssindex)
    (hp : file[p]? = some line) (hfirst : first line = first (lineKey line))
    (hi : slot (charToIdx (first (lineKey line))) = some i)
    (hj : slot (charToIdx (first (lineKey line)) + 1) = some j)
    (hcov : md.ssindex j = -1 ∨ (p : Int) < (md.ssindex j).tdiv lineSize) :
    c1Get c (lineKey line) = some (some (lineVal line)) := by
  have hlt : p < file.length := (List.getElem?_eq_some_iff.mp hp).1
  have hlow := hidx p line i hp (hfirst ▸ hi)
  have hstart : 0 ≤ (md.ssindex i).tdiv lineSize ∨ md.ssindex i = -1 := by
    rcases hlow with h | h
    · exact Or.inr h
    · exact Or.inl (Int.tdiv_nonneg h.1 lineSize_pos.le)
  have hstart' : (md.ssindex i).tdiv lineSize ≤ p ∨ md.ssindex i = -1 := by
    rcases hlow with h | ⟨h0, h⟩
    · exact Or.inr h
    · left
      rw [Int.tdiv_eq_ediv_of_nonneg h0]
      exact Int.ediv_le_of_le_mul lineSize_pos h
  unfold c1Get
  rw [hfile]
  simp only [hmd, hi, hj, Option.bind_eq_bind, Option.bind_some]
  refine c1SearchFuel_found hs hwf hp _ _ _ ?_ ?_ ?_ ?_ (by omega)
  · split_ifs <;> omega
  · split_ifs <;> omega
  · split_ifs <;> omega
  · split_ifs <;> omega

theorem c1Get_mem {c : C1} {key v : CStr} (h : c1Get c key = some (some v)) :
    ∃ file line, c.files c.fileCounter = some file ∧ line ∈ file ∧
      (sscanf line).1 = some key ∧ (sscanf line).2.1 = some v := by
  unfold c1Get at h
  split at h
  · cases h
  · rename_i file hfile
    simp only [Option.bind_eq_bind, Option.bind_eq_some_iff] at h
    obtain ⟨md, -, i, -, j, -, h⟩ := h
    obtain ⟨line, hl, h1, h2⟩ := c1SearchFuel_mem _ _ _ h
    exact ⟨file, line, hfile, hl, h1, h2⟩

end LsmKv
