import LsmKv.C1.Record

/-!
# What `merge` writes

A record is well formed if the scan assigns all three fields (`WfLine`).  On sorted files of such
records `merge` is a merge of sorted lists (`merge_eq`):

* a record met alone in the main loop is kept if its flag is 0 (`keepAlone`);
* of two records with one key it is the record of the old file that is kept, if its flag is 0
  (`keepOld`);
* the rest of the longer file is copied whole, and where that is the new file a blank record
  follows it.

`merge_mem` holds of all files: nothing is written but their records and blank ones.
`collision_resolved_iff` says when a collision is nevertheless resolved in favour of the new file,
`mergeOutput_iff` when the written file can be an input of the next merge.  A record without partner
is written once (`merge_keeps_alone`).
-/

namespace LsmKv

open KeySorted

def lineKey (line : Line) : CStr := (sscanf line).1.getD []
def lineVal (line : Line) : CStr := (sscanf line).2.1.getD []
def lineFlag (line : Line) : Int := (sscanf line).2.2.getD 0

/-- a record `key value flag` -/
def WfLine (line : Line) : Prop :=
  sscanf line = (some (lineKey line), some (lineVal line), some (lineFlag line))

instance (line : Line) : Decidable (WfLine line) := inferInstanceAs (Decidable (_ = _))

theorem lineKey_keyval {e : Entry} (h : Fits e) : lineKey (keyval e) = e.key := by
  rw [lineKey, sscanf_keyval h]; rfl

theorem lineVal_keyval {e : Entry} (h : Fits e) : lineVal (keyval e) = e.value.chars := by
  rw [lineVal, sscanf_keyval h]; rfl

theorem lineFlag_keyval {e : Entry} (h : Fits e) : lineFlag (keyval e) = e.flag := by
  rw [lineFlag, sscanf_keyval h]; rfl

theorem wfLine_keyval {e : Entry} (h : Fits e) : WfLine (keyval e) := by
  rw [WfLine, lineKey_keyval h, lineVal_keyval h, lineFlag_keyval h, sscanf_keyval h]

/-- what the main loop writes of a record without partner -/
def keepAlone (line : Line) : List Line := if lineFlag line = 0 then [line] else []

/-- what the main loop writes of two records with one key -/
def keepOld (_ old : Line) : List Line := keepAlone old

theorem keeps : Keeps keepAlone keepAlone keepOld where
  left x := by unfold keepAlone; split <;> simp
  right x := by unfold keepAlone; split <;> simp
  both x y := by unfold keepOld keepAlone; split <;> simp

/-- the zeroed record behind a rest of `file1` -/
def spill (file1 file2 : List Line) : List Line :=
  if rightEndsFirst lineKey file1 file2 then [blank] else []

theorem writeUnless_eq (line : Line) (out : List Line) :
    writeUnless (lineFlag line) line out = out ++ keepAlone line := by
  unfold writeUnless keepAlone
  split <;> simp

/-- the comparison of two well-formed records -/
theorem mergeCompare_eq {s : MergeState} {x y : Line} (h1 : s.line1 = some x)
    (h2 : s.line2 = some y) (hx : WfLine x) (hy : WfLine y) :
    ∃ v1 v2, mergeCompare s = some
      (if lineKey x < lineKey y then
        { s with line1 := none, valid1 := v1, valid2 := v2, out := s.out ++ keepAlone x }
      else if lineKey y < lineKey x then
        { s with line2 := none, valid1 := v1, valid2 := v2, out := s.out ++ keepAlone y }
      else { s with line1 := none, line2 := none, valid1 := v1, valid2 := v2,
                    out := s.out ++ keepAlone y }) := by
  refine ⟨some (lineFlag x), some (lineFlag y), ?_⟩
  unfold mergeCompare
  rw [h1, h2]
  simp only
  rw [hx, hy]
  simp only [Option.some_or, Option.map_some, writeUnless_eq, gt_iff_lt, strcmp_neg, strcmp_pos]
  split_ifs <;> rfl

/-- the refill leaves the first line that is still to be merged in `line1` -/
theorem refill1_cons {s : MergeState} {x : Line} {xs : List Line}
    (h : s.line1.toList ++ s.file1 = x :: xs) :
    ∃ n, refill1 s = (false, { s with line1 := some x, file1 := xs, size1 := n }) := by
  obtain ⟨line1, line2, file1, file2, size1, size2, valid1, valid2, out⟩ := s
  cases line1 with
  | some l =>
    obtain ⟨rfl, rfl⟩ := List.cons_eq_cons.mp h
    exact ⟨size1, rfl⟩
  | none =>
    have h' : file1 = x :: xs := h
    subst h'
    exact ⟨1, rfl⟩

/-- and in `line2` -/
theorem refill2_cons {s : MergeState} {y : Line} {ys : List Line}
    (h : s.line2.toList ++ s.file2 = y :: ys) (hs : s.size2 = 1 ∨ s.line2 = none) :
    refill2 s = (false, { s with line2 := some y, file2 := ys, size2 := 1 }) := by
  obtain ⟨line1, line2, file1, file2, size1, size2, valid1, valid2, out⟩ := s
  cases line2 with
  | some l =>
    obtain ⟨rfl, rfl⟩ := List.cons_eq_cons.mp h
    have h2 : size2 = 1 := by simpa using hs
    subst h2
    rfl
  | none =>
    have h' : file2 = y :: ys := h
    subst h'
    rfl

/-- **The loop and the tail copies**, from any point of the loop at which `xs` and `ys` are
still to be merged. -/
theorem mergeLoop_eq (xs ys : List Line) : ∀ (fuel : Nat) (s : MergeState),
    s.line1.toList ++ s.file1 = xs → s.line2.toList ++ s.file2 = ys →
    xs.length + ys.length < fuel → (s.size2 = 1 ∨ s.line2 = none) → (s.size2 = 1 ∨ xs ≠ []) →
    (∀ l ∈ xs, WfLine l) → (∀ l ∈ ys, WfLine l) →
    (mergeLoop fuel s).bind mergeTail
      = some (s.out ++ (mergeWith lineKey keepAlone keepAlone keepOld xs ys ++ spill xs ys)) := by
  induction xs, ys using merge_induction lineKey with
  | nil_left ys =>
    intro fuel s hx hy hf hl hs hwx hwy
    obtain ⟨fuel, rfl⟩ : ∃ f, fuel = f + 1 := ⟨fuel - 1, by omega⟩
    have h2 : s.size2 = 1 := by simpa using hs
    obtain ⟨h1, hf1⟩ : s.line1 = none ∧ s.file1 = [] := by simpa using hx
    simp only [mergeLoop, refill1, h1, hf1, fread, beq_self_eq_true, Option.bind_some]
    simp [mergeTail, h2, hy, spill]
  | nil_right x xs =>
    intro fuel s hx hy hf hl hs hwx hwy
    obtain ⟨fuel, rfl⟩ : ∃ f, fuel = f + 1 := ⟨fuel - 1, by omega⟩
    obtain ⟨n, hn⟩ := refill1_cons hx
    obtain ⟨h2, hf2⟩ : s.line2 = none ∧ s.file2 = [] := by simpa using hy
    simp only [mergeLoop, hn, refill2, h2, hf2, fread, beq_self_eq_true, Option.bind_some]
    simp [mergeTail, spill]
  | lt x xs y ys h ih =>
    intro fuel s hx hy hf hl hs hwx hwy
    obtain ⟨fuel, rfl⟩ : ∃ f, fuel = f + 1 := ⟨fuel - 1, by omega⟩
    obtain ⟨n, hn⟩ := refill1_cons hx
    obtain ⟨v1, v2, hc⟩ := mergeCompare_eq
      (s := { s with line1 := some x, file1 := xs, size1 := n, line2 := some y, file2 := ys,
                     size2 := 1 }) rfl rfl (hwx x (by simp)) (hwy y (by simp))
    rw [if_pos h] at hc
    simp only [mergeLoop, hn]
    rw [refill2_cons (by exact hy) (by exact hl)]
    simp only [hc, Option.bind_some]
    rw [ih fuel _ rfl rfl (by simp only [List.length_cons] at hf ⊢; omega) (Or.inl rfl)
      (Or.inl rfl) (fun l hl' => hwx l (List.mem_cons_of_mem _ hl')) hwy]
    simp [mergeWith_lt h, spill, rightEndsFirst_lt h]
  | gt x xs y ys h ih =>
    intro fuel s hx hy hf hl hs hwx hwy
    obtain ⟨fuel, rfl⟩ : ∃ f, fuel = f + 1 := ⟨fuel - 1, by omega⟩
    obtain ⟨n, hn⟩ := refill1_cons hx
    obtain ⟨v1, v2, hc⟩ := mergeCompare_eq
      (s := { s with line1 := some x, file1 := xs, size1 := n, line2 := some y, file2 := ys,
                     size2 := 1 }) rfl rfl (hwx x (by simp)) (hwy y (by simp))
    rw [if_neg (not_lt.mpr h.le), if_pos h] at hc
    simp only [mergeLoop, hn]
    rw [refill2_cons (by exact hy) (by exact hl)]
    simp only [hc, Option.bind_some]
    rw [ih fuel _ rfl rfl (by simp only [List.length_cons] at hf ⊢; omega) (Or.inl rfl)
      (Or.inl rfl) hwx (fun l hl' => hwy l (List.mem_cons_of_mem _ hl'))]
    simp [mergeWith_gt h, spill, rightEndsFirst_gt h]
  | eq x xs y ys h ih =>
    intro fuel s hx hy hf hl hs hwx hwy
    obtain ⟨fuel, rfl⟩ : ∃ f, fuel = f + 1 := ⟨fuel - 1, by omega⟩
    obtain ⟨n, hn⟩ := refill1_cons hx
    obtain ⟨v1, v2, hc⟩ := mergeCompare_eq
      (s := { s with line1 := some x, file1 := xs, size1 := n, line2 := some y, file2 := ys,
                     size2 := 1 }) rfl rfl (hwx x (by simp)) (hwy y (by simp))
    rw [if_neg (by simp [h]), if_neg (by simp [h])] at hc
    simp only [mergeLoop, hn]
    rw [refill2_cons (by exact hy) (by exact hl)]
    simp only [hc, Option.bind_some]
    rw [ih fuel _ rfl rfl (by simp only [List.length_cons] at hf ⊢; omega) (Or.inl rfl)
      (Or.inl rfl) (fun l hl' => hwx l (List.mem_cons_of_mem _ hl'))
      (fun l hl' => hwy l (List.mem_cons_of_mem _ hl'))]
    simp [mergeWith_eq h, spill, rightEndsFirst_eq h, keepOld]

/-- **`merge` of well-formed files**: a merge of lists, and a blank record if the old file ends
first. -/
theorem merge_eq {file1 file2 : List Line} (hne : file1 ≠ []) (h1 : ∀ l ∈ file1, WfLine l)
    (h2 : ∀ l ∈ file2, WfLine l) :
    merge file1 file2
      = some (mergeWith lineKey keepAlone keepAlone keepOld file1 file2 ++ spill file1 file2) := by
  unfold merge
  rw [mergeLoop_eq file1 file2 _ _ (by simp) (by simp) (by omega) (Or.inr rfl) (Or.inr hne) h1 h2]
  simp

/-! ## where the records come from -/

/-- all lines held, to be read and written meet `A` -/
structure Within (A : Line → Prop) (s : MergeState) : Prop where
  line1 : ∀ l ∈ s.line1, A l
  line2 : ∀ l ∈ s.line2, A l
  file1 : ∀ l ∈ s.file1, A l
  file2 : ∀ l ∈ s.file2, A l
  out : ∀ l ∈ s.out, A l

namespace Within
variable {A : Line → Prop} {s : MergeState}

theorem fread (hb : A blank) {file : List Line} (hf : ∀ l ∈ file, A l) :
    A (fread file).1 ∧ ∀ l ∈ (fread file).2.2, A l := by
  cases file with
  | nil => exact ⟨hb, hf⟩
  | cons l file => exact ⟨hf l (by simp), fun l' hl => hf l' (List.mem_cons_of_mem _ hl)⟩

theorem refill1 (hb : A blank) (h : Within A s) : Within A (refill1 s).2 := by
  unfold LsmKv.refill1
  split
  · exact h
  · obtain ⟨h1, h2⟩ := fread hb h.file1
    exact ⟨by simpa using h1, h.line2, h2, h.file2, h.out⟩

theorem refill2 (hb : A blank) (h : Within A s) : Within A (refill2 s).2 := by
  unfold LsmKv.refill2
  split
  · exact h
  · obtain ⟨h1, h2⟩ := fread hb h.file2
    exact ⟨h.line1, by simpa using h1, h.file1, h2, h.out⟩

theorem writeUnless {v : Int} {line : Line} {out : List Line} (hl : A line)
    (ho : ∀ l ∈ out, A l) : ∀ l ∈ writeUnless v line out, A l := by
  unfold LsmKv.writeUnless
  split_ifs
  · intro l hm
    rcases List.mem_append.mp hm with hm' | hm'
    · exact ho l hm'
    · exact List.mem_singleton.mp hm' ▸ hl
  · exact ho

theorem mergeCompare (h : Within A s) {s' : MergeState} (hs : mergeCompare s = some s') :
    Within A s' := by
  unfold LsmKv.mergeCompare at hs
  split at hs
  · rename_i l1 l2 e1 e2
    have h1 : A l1 := h.line1 l1 e1
    have h2 : A l2 := h.line2 l2 e2
    split at hs
    · dsimp only at hs
      split_ifs at hs
      · obtain ⟨v, -, rfl⟩ := Option.map_eq_some_iff.mp hs
        exact ⟨by simp, h.line2, h.file1, h.file2, writeUnless h1 h.out⟩
      · obtain ⟨v, -, rfl⟩ := Option.map_eq_some_iff.mp hs
        exact ⟨h.line1, by simp, h.file1, h.file2, writeUnless h2 h.out⟩
      · obtain ⟨v, -, rfl⟩ := Option.map_eq_some_iff.mp hs
        exact ⟨by simp, by simp, h.file1, h.file2, writeUnless h2 h.out⟩
    · cases hs
  · cases hs

theorem mergeLoop (hb : A blank) : ∀ (fuel : Nat) {s s' : MergeState}, Within A s →
    mergeLoop fuel s = some s' → Within A s' := by
  intro fuel
  induction fuel with
  | zero => intro s s' _ h; cases h
  | succ fuel ih =>
    intro s s' hw h
    have h1 := hw.refill1 hb
    unfold LsmKv.mergeLoop at h
    split at h
    · rename_i s1 e
      rw [e] at h1
      exact Option.some.inj h ▸ h1
    · rename_i s1 e
      rw [e] at h1
      have h2 := h1.refill2 hb
      split at h
      · rename_i s2 e2
        rw [e2] at h2
        exact Option.some.inj h ▸ h2
      · rename_i s2 e2
        rw [e2] at h2
        obtain ⟨s3, h3, h4⟩ := Option.bind_eq_some_iff.mp h
        exact ih (h2.mergeCompare h3) h4

theorem mergeTail (hb : A blank) (h : Within A s) {out : List Line}
    (hs : mergeTail s = some out) : ∀ l ∈ out, A l := by
  have hcopy : ∀ s : MergeState, Within A s →
      ∀ l ∈ (if s.size1 = 0 then s.out ++ (s.line2.toList ++ s.file2) else s.out), A l := by
    intro s h l hl
    split_ifs at hl
    · simp only [List.mem_append, Option.mem_toList] at hl
      rcases hl with hl | hl | hl
      · exact h.out l hl
      · exact h.line2 l hl
      · exact h.file2 l hl
    · exact h.out l hl
  unfold LsmKv.mergeTail at hs
  obtain ⟨s1, h1, rfl⟩ := Option.map_eq_some_iff.mp hs
  refine hcopy s1 ?_
  split_ifs at h1
  · split at h1
    · cases h1
    · rename_i line1 e
      cases h1
      refine ⟨by simpa using hb, h.line2, by simp, h.file2, fun l hl => ?_⟩
      simp only [List.mem_append, List.mem_cons] at hl
      rcases hl with hl | rfl | hl
      · exact h.out l hl
      · exact h.line1 l e
      · exact h.file1 l hl
  · cases h1
    exact h

end Within

/-- **`merge` writes records of its files and blank ones**, whatever the files are. -/
theorem merge_mem {file1 file2 out : List Line} (h : merge file1 file2 = some out) :
    ∀ l ∈ out, l ∈ file1 ∨ l ∈ file2 ∨ l = blank := by
  obtain ⟨s, hs, ht⟩ := Option.bind_eq_some_iff.mp h
  have hw : Within (fun l => l ∈ file1 ∨ l ∈ file2 ∨ l = blank)
      ⟨none, none, file1, file2, 0, 0, none, none, []⟩ :=
    ⟨by simp, by simp, fun l hl => Or.inl hl, fun l hl => Or.inr (Or.inl hl), by simp⟩
  have hb : blank ∈ file1 ∨ blank ∈ file2 ∨ blank = blank := Or.inr (Or.inr rfl)
  exact (hw.mergeLoop hb _ hs).mergeTail hb ht

/-- the scan of the record assigns a flag that is not 0 -/
def Tombstone (line : Line) : Prop := ∃ d ∈ (sscanf line).2.2, d ≠ 0

instance (line : Line) : Decidable (Tombstone line) :=
  inferInstanceAs (Decidable (∃ d ∈ (sscanf line).2.2, d ≠ 0))

theorem lineKey_of_sscanf {line : Line} {key : CStr} {r : Option CStr × Option Int}
    (h : sscanf line = (some key, r)) : lineKey line = key := by
  rw [lineKey, h]
  rfl

theorem mem_writeUnless {v : Int} {line l : Line} {out : List Line}
    (h : l ∈ writeUnless v line out) : l ∈ out ∨ (l = line ∧ v = 0) := by
  unfold writeUnless at h
  split_ifs at h with hv
  · rcases List.mem_append.mp h with h' | h'
    · exact Or.inl h'
    · exact Or.inr ⟨List.mem_singleton.mp h', hv⟩
  · exact Or.inl h

/-- what a comparison writes and which lines it uses up -/
theorem mergeCompare_cases {s s' : MergeState} {x y : Line} (h1 : s.line1 = some x)
    (h2 : s.line2 = some y) (h : mergeCompare s = some s') :
    s'.file1 = s.file1 ∧ s'.file2 = s.file2 ∧ s'.size2 = s.size2 ∧
      ((lineKey x < lineKey y ∧ s'.line1 = none ∧ s'.line2 = some y ∧
          ∀ l ∈ s'.out, l ∈ s.out ∨ (l = x ∧ ¬ Tombstone x)) ∨
        (lineKey y < lineKey x ∧ s'.line1 = some x ∧ s'.line2 = none ∧
          ∀ l ∈ s'.out, l ∈ s.out ∨ l = y) ∨
        (lineKey x = lineKey y ∧ s'.line1 = none ∧ s'.line2 = none ∧
          ∀ l ∈ s'.out, l ∈ s.out ∨ l = y)) := by
  unfold mergeCompare at h
  rw [h1, h2] at h
  dsimp only at h
  split at h
  · rename_i key1 v1 d1 key2 v2 d2 e1 e2
    have hk1 := lineKey_of_sscanf e1
    have hk2 := lineKey_of_sscanf e2
    simp only [strcmp_neg, gt_iff_lt, strcmp_pos] at h
    rw [hk1, hk2]
    split_ifs at h with hlt hgt
    · obtain ⟨v, hv, rfl⟩ := Option.map_eq_some_iff.mp h
      refine ⟨rfl, rfl, rfl, Or.inl ⟨hlt, rfl, rfl, fun l hl => ?_⟩⟩
      rcases mem_writeUnless hl with hl | ⟨rfl, hv0⟩
      · exact Or.inl hl
      · refine Or.inr ⟨rfl, ?_⟩
        rintro ⟨d, hd, hne⟩
        rw [e1] at hd
        obtain rfl : d1 = some d := hd
        rw [Option.some_or] at hv
        exact hne ((Option.some.inj hv).trans hv0)
    · obtain ⟨v, -, rfl⟩ := Option.map_eq_some_iff.mp h
      refine ⟨rfl, rfl, rfl, Or.inr (Or.inl ⟨hgt, rfl, rfl, fun l hl => ?_⟩)⟩
      exact (mem_writeUnless hl).imp_right And.left
    · obtain ⟨v, -, rfl⟩ := Option.map_eq_some_iff.mp h
      have heq : key1 = key2 := le_antisymm (not_lt.mp hgt) (not_lt.mp hlt)
      refine ⟨rfl, rfl, rfl, Or.inr (Or.inr ⟨heq, rfl, rfl, fun l hl => ?_⟩)⟩
      exact (mem_writeUnless hl).imp_right And.left
  · cases h

/-- **The loop when the new file ends first**, from any point of it. -/
theorem mergeLoop_mem : ∀ (fuel : Nat) (s : MergeState) (xs ys : List Line),
    s.line1.toList ++ s.file1 = xs → s.line2.toList ++ s.file2 = ys →
    rightEndsFirst lineKey xs ys = false → (s.size2 = 1 ∨ s.line2 = none) →
    (s.size2 = 1 ∨ xs ≠ []) → ∀ {out : List Line}, (mergeLoop fuel s).bind mergeTail = some out →
    ∀ l ∈ out, l ∈ s.out ∨ l ∈ ys ∨ (l ∈ xs ∧ ¬ Tombstone l) := by
  intro fuel
  induction fuel with
  | zero => intro s xs ys _ _ _ _ _ out h; cases h
  | succ fuel ih =>
    intro s xs ys hx hy hr hl hs out h l hlo
    cases xs with
    | nil =>
      have h2 : s.size2 = 1 := by simpa using hs
      obtain ⟨h1, hf1⟩ : s.line1 = none ∧ s.file1 = [] := by simpa using hx
      simp only [mergeLoop, refill1, h1, hf1, fread, beq_self_eq_true, Option.bind_some] at h
      simp only [mergeTail, h2] at h
      obtain rfl : s.out ++ ys = out := by simpa [hy] using h
      rcases List.mem_append.mp hlo with hl' | hl'
      · exact Or.inl hl'
      · exact Or.inr (Or.inl hl')
    | cons x xs =>
      cases ys with
      | nil =>
        rw [rightEndsFirst_nil_right] at hr
        cases hr
      | cons y ys =>
        obtain ⟨n, hn⟩ := refill1_cons hx
        simp only [mergeLoop, hn] at h
        rw [refill2_cons (by exact hy) (by exact hl)] at h
        simp only [Option.bind_assoc] at h
        obtain ⟨s', hc, h⟩ := Option.bind_eq_some_iff.mp h
        obtain ⟨hf1, hf2, hsz, hcase⟩ := mergeCompare_cases rfl rfl hc
        dsimp only at hf1 hf2 hsz hcase
        rcases hcase with ⟨hlt, hl1, hl2, hout⟩ | ⟨hgt, hl1, hl2, hout⟩ | ⟨heq, hl1, hl2, hout⟩
        · rw [rightEndsFirst_lt hlt] at hr
          rcases ih s' xs (y :: ys) (by rw [hl1, hf1]; rfl) (by rw [hl2, hf2]; rfl) hr
            (Or.inl hsz) (Or.inl hsz) h l hlo with h' | h' | ⟨h', ht⟩
          · rcases hout l h' with h'' | ⟨rfl, ht⟩
            · exact Or.inl h''
            · exact Or.inr (Or.inr ⟨List.mem_cons_self, ht⟩)
          · exact Or.inr (Or.inl h')
          · exact Or.inr (Or.inr ⟨List.mem_cons_of_mem _ h', ht⟩)
        · rw [rightEndsFirst_gt hgt] at hr
          rcases ih s' (x :: xs) ys (by rw [hl1, hf1]; rfl) (by rw [hl2, hf2]; rfl) hr
            (Or.inl hsz) (Or.inl hsz) h l hlo with h' | h' | h'
          · rcases hout l h' with h'' | rfl
            · exact Or.inl h''
            · exact Or.inr (Or.inl List.mem_cons_self)
          · exact Or.inr (Or.inl (List.mem_cons_of_mem _ h'))
          · exact Or.inr (Or.inr h')
        · rw [rightEndsFirst_eq heq] at hr
          rcases ih s' xs ys (by rw [hl1, hf1]; rfl) (by rw [hl2, hf2]; rfl) hr
            (Or.inl hsz) (Or.inl hsz) h l hlo with h' | h' | ⟨h', ht⟩
          · rcases hout l h' with h'' | rfl
            · exact Or.inl h''
            · exact Or.inr (Or.inl List.mem_cons_self)
          · exact Or.inr (Or.inl (List.mem_cons_of_mem _ h'))
          · exact Or.inr (Or.inr ⟨List.mem_cons_of_mem _ h', ht⟩)

/-- **Without a blank record**: where the new file ends first, what is written are records of the
old file and records of the new one that are no tombstones, whatever the files are. -/
theorem merge_mem_of_endsFirst {file1 file2 out : List Line} (hne : file1 ≠ [])
    (hr : rightEndsFirst lineKey file1 file2 = false) (h : merge file1 file2 = some out) :
    ∀ l ∈ out, l ∈ file2 ∨ (l ∈ file1 ∧ ¬ Tombstone l) := by
  intro l hl
  have := mergeLoop_mem _ ⟨none, none, file1, file2, 0, 0, none, none, []⟩ file1 file2 rfl rfl hr
    (Or.inr rfl) (Or.inr hne) h l hl
  simpa using this

/-! ## collisions -/

/-- the blank record has no key -/
theorem sscanf_blank : sscanf blank = (none, none, none) := by
  have h : blank.takeWhile (· ≠ '\x00') = [] := by decide
  unfold sscanf
  rw [h]
  rfl

/-- the records of `out` with key `k` -/
def recordsOf (k : CStr) (out : List Line) : List Line :=
  out.filter fun l => (sscanf l).1 = some k

/-- The hypotheses on the two files of a merge. -/
structure MergeInput (file1 file2 : List Line) : Prop where
  wf1 : ∀ l ∈ file1, WfLine l
  wf2 : ∀ l ∈ file2, WfLine l
  sorted1 : Sorted lineKey file1
  sorted2 : Sorted lineKey file2

theorem wf_keyvals {es : List Entry} (hf : ∀ e ∈ es, Fits e) : ∀ l ∈ es.map keyval, WfLine l := by
  intro l hl
  obtain ⟨e, he, rfl⟩ := List.mem_map.mp hl
  exact wfLine_keyval (hf e he)

theorem sorted_keyvals {es : List Entry} (hs : Sorted Entry.key es) (hf : ∀ e ∈ es, Fits e) :
    Sorted lineKey (es.map keyval) := by
  unfold Sorted
  rw [List.pairwise_map]
  refine List.Pairwise.imp_of_mem (fun {a b} ha hb hab => ?_) hs
  rwa [lineKey_keyval (hf a ha), lineKey_keyval (hf b hb)]

/-- the files of two batches -/
theorem mergeInput_keyvals {es es' : List Entry} (hs : Sorted Entry.key es)
    (hs' : Sorted Entry.key es') (hf : ∀ e ∈ es, Fits e) (hf' : ∀ e ∈ es', Fits e) :
    MergeInput (es.map keyval) (es'.map keyval) :=
  ⟨wf_keyvals hf, wf_keyvals hf', sorted_keyvals hs hf, sorted_keyvals hs' hf'⟩

/-- the files of two batches of one entry each -/
theorem mergeInput_single {e e' : Entry} (h : Fits e) (h' : Fits e') :
    MergeInput [keyval e] [keyval e'] :=
  mergeInput_keyvals (List.pairwise_singleton _ _) (List.pairwise_singleton _ _)
    (List.forall_mem_singleton.mpr h) (List.forall_mem_singleton.mpr h')

/-- What the written file holds for a key of both files: what the old record alone decides. -/
theorem recordsOf_merge {file1 file2 : List Line} (h : MergeInput file1 file2) {new old : Line}
    (hnew : new ∈ file1) (hold : old ∈ file2) (hk : lineKey new = lineKey old) :
    ∃ out, merge file1 file2 = some out ∧ recordsOf (lineKey new) out = keepAlone old := by
  obtain ⟨h1, h2, hs1, hs2⟩ := h
  refine ⟨_, merge_eq (List.ne_nil_of_mem hnew) h1 h2, ?_⟩
  have hspill : recordsOf (lineKey new) (spill file1 file2) = [] := by
    unfold spill recordsOf
    split <;> simp [sscanf_blank]
  have hsame : recordsOf (lineKey new) (mergeWith lineKey keepAlone keepAlone keepOld file1 file2)
      = (mergeWith lineKey keepAlone keepAlone keepOld file1 file2).filter
          fun l => lineKey l = lineKey new := by
    refine List.filter_congr fun l hl => ?_
    have hw : WfLine l := by
      rcases mem_mergeWith keeps file1 file2 l hl with h | h
      · exact h1 l h
      · exact h2 l h
    rw [hw]
    simp
  unfold recordsOf at hspill hsame ⊢
  rw [List.filter_append, hspill, List.append_nil, hsame,
    filter_mergeWith_both keeps (lineKey new) _ (fun z => by simp) file1 file2 hs1 hs2 new hnew
      old hold rfl hk.symm]
  rfl

/-- The written file resolves the collision on the key of `new` in favour of `new`. -/
def NewWins (new : Line) (out : List Line) : Prop :=
  recordsOf (lineKey new) out = if lineFlag new = 0 then [new] else []

/-- **When a collision is resolved in favour of the new file**: both records are tombstones, or
neither is one and they are the same record. -/
theorem collision_resolved_iff (file1 file2 : List Line) (h : MergeInput file1 file2)
    (new old : Line) (hnew : new ∈ file1) (hold : old ∈ file2) (hk : lineKey new = lineKey old) :
    (∃ out, merge file1 file2 = some out ∧ NewWins new out) ↔
      (lineFlag new ≠ 0 ∧ lineFlag old ≠ 0) ∨
        (lineFlag new = 0 ∧ lineFlag old = 0 ∧ new = old) := by
  obtain ⟨out, hout, hrec⟩ := recordsOf_merge h hnew hold hk
  have hw : (∃ out, merge file1 file2 = some out ∧ NewWins new out)
      ↔ keepAlone old = if lineFlag new = 0 then [new] else [] := by
    constructor
    · rintro ⟨out', h, hwin⟩
      obtain rfl : out = out' := Option.some.inj (hout.symm.trans h)
      rw [← hrec]
      exact hwin
    · intro h
      exact ⟨out, hout, by rw [NewWins, hrec, h]⟩
  rw [hw]
  unfold keepAlone
  by_cases ho : lineFlag old = 0 <;> by_cases hn : lineFlag new = 0 <;>
    simp [ho, hn, eq_comm]

/-- two batches that put `a`, first with the value `old`, then with the value `new` -/
def oldA : Entry := ⟨['a'], ⟨['o', 'l', 'd'], false⟩, 0⟩
def newA : Entry := ⟨['a'], ⟨['n', 'e', 'w'], false⟩, 0⟩

theorem fits_oldA : Fits oldA := by decide
theorem fits_newA : Fits newA := by decide

/-- a deletion of `a`, a put of `b` and one of `c` -/
def mixedBatch : List Entry :=
  [{ oldA with flag := 1 }, ⟨['b'], ⟨['n', 'e', 'w'], false⟩, 0⟩, ⟨['c'], ⟨['v'], false⟩, 0⟩]

/-- `a` is deleted here as well, and `c` has the same value -/
def mixedFile : List Entry :=
  [{ oldA with flag := 1 }, ⟨['c'], ⟨['v'], false⟩, 0⟩, ⟨['d'], ⟨['w'], false⟩, 0⟩]

theorem mergeInput_mixed : MergeInput (mixedBatch.map keyval) (mixedFile.map keyval) :=
  mergeInput_keyvals (by unfold Sorted; decide) (by unfold Sorted; decide) (by decide) (by decide)

/-- A tombstone over a tombstone is resolved, and a record over the same one. -/
theorem collision_of_tombstones :
    ∃ out, merge (mixedBatch.map keyval) (mixedFile.map keyval) = some out ∧
      NewWins (keyval { oldA with flag := 1 }) out ∧
      NewWins (keyval ⟨['c'], ⟨['v'], false⟩, 0⟩) out := by
  have hfa : Fits { oldA with flag := 1 } := by decide
  have hfc : Fits ⟨['c'], ⟨['v'], false⟩, 0⟩ := by decide
  obtain ⟨out, hout, ha⟩ := (collision_resolved_iff _ _ mergeInput_mixed
    (keyval { oldA with flag := 1 }) _ (by simp [mixedBatch]) (by simp [mixedFile]) rfl).mpr
      (Or.inl (by rw [lineFlag_keyval hfa]; decide))
  obtain ⟨out', hout', hc⟩ := (collision_resolved_iff _ _ mergeInput_mixed
    (keyval ⟨['c'], ⟨['v'], false⟩, 0⟩) _ (by simp [mixedBatch]) (by simp [mixedFile]) rfl).mpr
      (Or.inr (by rw [lineFlag_keyval hfc]; simp))
  obtain rfl := Option.some.inj (hout.symm.trans hout')
  exact ⟨out, hout, ha, hc⟩

/-- The old value survives the merge with a batch that replaces it. -/
theorem collision_keeps_old : MergeInput [keyval newA] [keyval oldA] ∧
    lineKey (keyval newA) = lineKey (keyval oldA) ∧
    lineFlag (keyval newA) = 0 ∧
    merge [keyval newA] [keyval oldA] = some [keyval oldA] ∧ keyval newA ≠ keyval oldA ∧
    ¬ NewWins (keyval newA) [keyval oldA] := by
  have hk : lineKey (keyval newA) = lineKey (keyval oldA) := by
    rw [lineKey_keyval fits_newA, lineKey_keyval fits_oldA]; rfl
  have hne : keyval newA ≠ keyval oldA := fun h => by
    have := congrArg lineVal h
    rw [lineVal_keyval fits_newA, lineVal_keyval fits_oldA] at this
    exact absurd this (by decide)
  have hin := mergeInput_single fits_newA fits_oldA
  have hnf : lineFlag (keyval newA) = 0 := lineFlag_keyval fits_newA
  have hof : lineFlag (keyval oldA) = 0 := lineFlag_keyval fits_oldA
  have hold : keepAlone (keyval oldA) = [keyval oldA] := by rw [keepAlone, if_pos hof]
  obtain ⟨out, hout, hrec⟩ := recordsOf_merge hin (List.mem_singleton_self _)
    (List.mem_singleton_self _) hk
  have hm := merge_eq (List.cons_ne_nil (keyval newA) []) hin.wf1 hin.wf2
  rw [mergeWith_eq hk, spill, rightEndsFirst_eq hk, keepOld, hold] at hm
  refine ⟨hin, hk, hnf, by simpa using hm, hne, fun hwin => ?_⟩
  have e : out = [keyval oldA] := Option.some.inj (hout.symm.trans (by simpa using hm))
  rw [NewWins, if_pos hnf, ← e, hrec, hold] at hwin
  exact hne (List.cons.inj hwin).1.symm

/-! ## the written file as an input of the next merge -/

/-- What every later reader assumes of the file `merge` wrote. -/
structure MergeOutput (file1 file2 out : List Line) : Prop where
  records : ∀ l ∈ out, l ∈ file1 ∨ l ∈ file2
  sorted : Sorted lineKey out
  once : (out.map lineKey).Nodup

/-- what is left without the blank record -/
theorem mergeOutput_mergeWith {file1 file2 : List Line} (h : MergeInput file1 file2) :
    MergeOutput file1 file2 (mergeWith lineKey keepAlone keepAlone keepOld file1 file2) := by
  have hs := sorted_mergeWith keeps file1 file2 h.sorted1 h.sorted2
  refine ⟨mem_mergeWith keeps file1 file2, hs, ?_⟩
  exact List.pairwise_map.mpr (hs.imp fun hab => hab.ne)

/-- a blank record is no record of the two files -/
theorem MergeInput.blank_notMem {file1 file2 : List Line} (h : MergeInput file1 file2) :
    ¬ (blank ∈ file1 ∨ blank ∈ file2) := by
  have hb : ¬ WfLine blank := by
    rw [WfLine, sscanf_blank]
    intro hb
    cases congrArg Prod.fst hb
  rintro (h1 | h2)
  · exact hb (h.wf1 blank h1)
  · exact hb (h.wf2 blank h2)

/-- **When `merge` writes a well-formed data file**: exactly when no key of the new file is above
all keys of the old one. -/
theorem mergeOutput_iff (file1 file2 : List Line) (hne : file1 ≠ [])
    (h : MergeInput file1 file2) :
    (∃ out, merge file1 file2 = some out ∧ MergeOutput file1 file2 out) ↔
      ∀ x ∈ file1, ∃ y ∈ file2, lineKey x ≤ lineKey y := by
  have hm := merge_eq hne h.wf1 h.wf2
  have hends : rightEndsFirst lineKey file1 file2 = true ↔
      ∃ x ∈ file1, ∀ y ∈ file2, lineKey y < lineKey x :=
    rightEndsFirst_iff file1 file2 h.sorted1 h.sorted2
  constructor
  · rintro ⟨out, hout, hwell⟩ x hx
    obtain rfl := Option.some.inj (hm.symm.trans hout)
    by_contra hno
    push Not at hno
    have hspill : spill file1 file2 = [blank] := if_pos (hends.mpr ⟨x, hx, hno⟩)
    apply h.blank_notMem
    apply hwell.records
    rw [hspill]
    exact List.mem_append_right _ (List.mem_singleton_self blank)
  · intro hall
    have hspill : spill file1 file2 = [] := by
      apply if_neg
      intro hr
      obtain ⟨x, hx, hlt⟩ := hends.mp hr
      obtain ⟨y, hy, hle⟩ := hall x hx
      exact absurd (hlt y hy) (not_lt.mpr hle)
    rw [hspill, List.append_nil] at hm
    exact ⟨_, hm, mergeOutput_mergeWith h⟩

/-- A batch that the old file outlasts adds no blank record. -/
theorem mergeOutput_mixed :
    ∃ out, merge (mixedBatch.map keyval) (mixedFile.map keyval) = some out ∧
      MergeOutput (mixedBatch.map keyval) (mixedFile.map keyval) out :=
  (mergeOutput_iff _ _ (by simp [mixedBatch]) mergeInput_mixed).mpr (by decide +kernel)

/-- a batch that puts the key behind `a` -/
def newB : Entry := ⟨['b'], ⟨['n', 'e', 'w'], false⟩, 0⟩

theorem fits_newB : Fits newB := by decide

/-- A batch with a key behind the old ones leaves a blank record at the end. -/
theorem merge_spills : MergeInput [keyval newB] [keyval oldA] ∧
    merge [keyval newB] [keyval oldA] = some [keyval oldA, keyval newB, blank] ∧
    ¬ ∃ out, merge [keyval newB] [keyval oldA] = some out ∧
      MergeOutput [keyval newB] [keyval oldA] out := by
  have hin := mergeInput_single fits_newB fits_oldA
  have hlt : lineKey (keyval oldA) < lineKey (keyval newB) := by
    rw [lineKey_keyval fits_oldA, lineKey_keyval fits_newB]
    decide
  refine ⟨hin, ?_, ?_⟩
  · have hold : keepAlone (keyval oldA) = [keyval oldA] := if_pos (lineFlag_keyval fits_oldA)
    have hm := merge_eq (List.cons_ne_nil (keyval newB) []) hin.wf1 hin.wf2
    rw [mergeWith_gt hlt, hold, mergeWith_nil_right, spill, rightEndsFirst_gt hlt,
      rightEndsFirst_nil_right, if_pos rfl] at hm
    exact hm
  · rw [mergeOutput_iff _ _ (List.cons_ne_nil _ _) hin]
    intro hall
    obtain ⟨y, hy, hle⟩ := hall _ (List.mem_singleton_self _)
    obtain rfl := List.mem_singleton.mp hy
    exact absurd hlt (not_lt.mpr hle)

/-! ## records without partner -/

/-- a record of one file whose key is in no record of the other -/
def Alone (file1 file2 : List Line) (l : Line) : Prop :=
  (l ∈ file1 ∧ ∀ m ∈ file2, lineKey m ≠ lineKey l) ∨
    (l ∈ file2 ∧ ∀ m ∈ file1, lineKey m ≠ lineKey l)

/-- **`merge` loses no record whose key is in one file only**, and writes it once. -/
theorem merge_keeps_alone {file1 file2 : List Line} (hne : file1 ≠ [])
    (h : MergeInput file1 file2) :
    ∃ out, merge file1 file2 = some out ∧
      ∀ l, Alone file1 file2 l → lineFlag l = 0 → out.count l = 1 := by
  refine ⟨_, merge_eq hne h.wf1 h.wf2, ?_⟩
  intro l hl hflag
  have hkeep : l ∈ keepAlone l := by simp [keepAlone, hflag]
  have hmem : l ∈ mergeWith lineKey keepAlone keepAlone keepOld file1 file2 := by
    rcases hl with ⟨hl, hno⟩ | ⟨hl, hno⟩
    · exact mem_mergeWith_left hkeep file1 file2 hl hno
    · exact mem_mergeWith_right_alone hkeep file1 file2 hl hno
  have hone : (mergeWith lineKey keepAlone keepAlone keepOld file1 file2).count l = 1 :=
    List.count_eq_one_of_mem (mergeOutput_mergeWith h).once.of_map hmem
  have hspill : (spill file1 file2).count l = 0 := by
    apply List.count_eq_zero_of_not_mem
    intro hb
    have hblank : l = blank := by
      unfold spill at hb
      split_ifs at hb
      · exact List.mem_singleton.mp hb
      · simp at hb
    apply h.blank_notMem
    rw [← hblank]
    exact hl.imp And.left And.left
  rw [List.count_append, hone, hspill]

/-- Of a put behind the old keys and the put before it, each is in the written file once. -/
theorem merge_keeps_alone_pair : MergeInput [keyval newB] [keyval oldA] ∧
    ∃ out, merge [keyval newB] [keyval oldA] = some out ∧
      out.count (keyval newB) = 1 ∧ out.count (keyval oldA) = 1 := by
  have hin := mergeInput_single fits_newB fits_oldA
  have hne : lineKey (keyval oldA) ≠ lineKey (keyval newB) := by
    rw [lineKey_keyval fits_oldA, lineKey_keyval fits_newB]
    decide
  obtain ⟨out, hout, hone⟩ := merge_keeps_alone (List.cons_ne_nil (keyval newB) []) hin
  refine ⟨hin, out, hout, hone _ (Or.inl ⟨by simp, ?_⟩) (lineFlag_keyval fits_newB),
    hone _ (Or.inr ⟨by simp, ?_⟩) (lineFlag_keyval fits_oldA)⟩
  · exact List.forall_mem_singleton.mpr hne
  · exact List.forall_mem_singleton.mpr hne.symm

end LsmKv
