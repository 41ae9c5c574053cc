import LsmKv.C1.Search

/-!
# The lines `c1_search` reads

`c1_search` computes the offset `mid * LINE_SIZE` as an int, so it can read the lines up to a
bound only (`Seekable`).  `c1SearchInt` is the search with that offset, and it records the lines
it reads:

* `c1SearchInt_value`     within the bound it is `c1Search`;
* `c1SearchInt_reads`     it reads no line outside the range;
* `spine`                 the lines probed by a search that always turns to the right;
* `c1SearchInt_isSome_iff`   the searches that stay within the bound;
* `searchesRange_iff`     when the search does what it is for.
-/

namespace LsmKv

open KeySorted

/-- the largest int -/
def intMax : Int := 2147483647

/-- `mid * LINE_SIZE` does not overflow -/
def Seekable (mid : Int) : Prop := mid * lineSize ≤ intMax

instance (mid : Int) : Decidable (Seekable mid) := inferInstanceAs (Decidable (_ ≤ _))

theorem Seekable.mono {m n : Int} (h : Seekable n) (hm : m ≤ n) : Seekable m :=
  (mul_le_mul_of_nonneg_right hm lineSize_pos.le).trans h

/-- The value found and the lines read; `none` where the offset overflows. -/
def c1SearchIntFuel (file : List Line) (key : CStr) :
    Nat → Int → Int → Option (Option CStr × List Int)
  | 0, _, _ => none
  | fuel + 1, startline, endline =>
    if endline ≥ startline then
      let mid := (endline - startline) / 2 + startline
      if Seekable mid then
        match if 0 ≤ mid then file[mid.toNat]? else none with
        | none => none
        | some line =>
          match sscanf line with
          | (some rKey, some val, _) =>
            if strcmp rKey key = 0 then some (some val, [mid])
            else if strcmp rKey key > 0 then
              (c1SearchIntFuel file key fuel startline (mid - 1)).map fun r => (r.1, mid :: r.2)
            else (c1SearchIntFuel file key fuel (mid + 1) endline).map fun r => (r.1, mid :: r.2)
          | _ => none
      else none
    else some (none, [])

def c1SearchInt (file : List Line) (key : CStr) (startline endline : Int) :
    Option (Option CStr × List Int) :=
  c1SearchIntFuel file key ((endline - startline + 1).toNat + 1) startline endline

/-! ## what it returns and what it reads -/

/-- what one call does -/
theorem c1SearchIntFuel_cases {file : List Line} {key : CStr} {fuel : Nat} {s e : Int}
    {v : Option CStr} {reads : List Int}
    (h : c1SearchIntFuel file key (fuel + 1) s e = some (v, reads)) :
    (e < s ∧ v = none ∧ reads = []) ∨
      ∃ mid line rKey val d, mid = (e - s) / 2 + s ∧ s ≤ e ∧
        (if 0 ≤ mid then file[mid.toNat]? else none) = some line ∧
        sscanf line = (some rKey, some val, d) ∧
        ((rKey = key ∧ v = some val ∧ reads = [mid]) ∨
          (key < rKey ∧ ∃ rest, c1SearchIntFuel file key fuel s (mid - 1) = some (v, rest) ∧
            reads = mid :: rest) ∨
          (rKey < key ∧ ∃ rest, c1SearchIntFuel file key fuel (mid + 1) e = some (v, rest) ∧
            reads = mid :: rest)) := by
  unfold c1SearchIntFuel at h
  by_cases hse : e ≥ s
  · right
    rw [if_pos hse] at h
    dsimp only at h
    have hseek : Seekable ((e - s) / 2 + s) := by
      by_contra hno
      rw [if_neg hno] at h
      cases h
    rw [if_pos hseek] at h
    split at h
    · cases h
    · rename_i line hline
      split at h
      · rename_i rKey val d hsc
        refine ⟨_, line, rKey, val, d, rfl, hse, hline, hsc, ?_⟩
        rcases lt_trichotomy key rKey with hlt | heq | hgt
        · rw [if_neg (mt (strcmp_zero _ _).mp hlt.ne'), if_pos ((strcmp_pos _ _).mpr hlt)] at h
          obtain ⟨⟨w, rest⟩, hr, hv⟩ := Option.map_eq_some_iff.mp h
          cases hv
          exact Or.inr (Or.inl ⟨hlt, rest, hr, rfl⟩)
        · rw [if_pos ((strcmp_zero _ _).mpr heq.symm)] at h
          cases h
          exact Or.inl ⟨heq.symm, rfl, rfl⟩
        · rw [if_neg (mt (strcmp_zero _ _).mp hgt.ne),
            if_neg (mt (strcmp_pos _ _).mp (not_lt.mpr hgt.le))] at h
          obtain ⟨⟨w, rest⟩, hr, hv⟩ := Option.map_eq_some_iff.mp h
          cases hv
          exact Or.inr (Or.inr ⟨hgt, rest, hr, rfl⟩)
      · cases h
  · left
    rw [if_neg hse] at h
    cases h
    exact ⟨by omega, rfl, rfl⟩

/-- **Within the bound the offset makes no difference.** -/
theorem c1SearchIntFuel_value {file : List Line} {key : CStr} : ∀ (fuel : Nat) (s e : Int)
    {v : Option CStr} {reads : List Int}, c1SearchIntFuel file key fuel s e = some (v, reads) →
      c1SearchFuel file key fuel s e = some v := by
  intro fuel
  induction fuel with
  | zero => intro s e v reads h; cases h
  | succ fuel ih =>
    intro s e v reads h
    unfold c1SearchFuel
    rcases c1SearchIntFuel_cases h with
      ⟨hse, rfl, -⟩ | ⟨_, line, rKey, val, d, rfl, hse, hl, hsc, h⟩
    · rw [if_neg (by omega)]
    · rw [if_pos hse]
      simp only [hl, hsc, strcmp_zero, gt_iff_lt, strcmp_pos]
      rcases h with ⟨rfl, rfl, -⟩ | ⟨hlt, rest, hr, -⟩ | ⟨hgt, rest, hr, -⟩
      · rw [if_pos rfl]
      · rw [if_neg hlt.ne', if_pos hlt]
        exact ih _ _ hr
      · rw [if_neg hgt.ne, if_neg (not_lt.mpr hgt.le)]
        exact ih _ _ hr

theorem c1SearchInt_value {file : List Line} {key : CStr} {s e : Int} {v : Option CStr}
    {reads : List Int} (h : c1SearchInt file key s e = some (v, reads)) :
    c1Search file key s e = some v := c1SearchIntFuel_value _ _ _ h

/-- **Only lines of the range are read.** -/
theorem c1SearchIntFuel_reads {file : List Line} {key : CStr} : ∀ (fuel : Nat) (s e : Int)
    {v : Option CStr} {reads : List Int}, c1SearchIntFuel file key fuel s e = some (v, reads) →
      ∀ m ∈ reads, s ≤ m ∧ m ≤ e := by
  intro fuel
  induction fuel with
  | zero => intro s e v reads h; cases h
  | succ fuel ih =>
    intro s e v reads h m hm
    rcases c1SearchIntFuel_cases h with ⟨-, -, rfl⟩ | ⟨_, line, rKey, val, d, rfl, hse, -, -, h⟩
    · simp at hm
    · rcases h with ⟨-, -, rfl⟩ | ⟨-, rest, hr, rfl⟩ | ⟨-, rest, hr, rfl⟩
      · obtain rfl := List.mem_singleton.mp hm
        omega
      · rcases List.mem_cons.mp hm with rfl | hm
        · omega
        · have := ih _ _ hr m hm
          omega
      · rcases List.mem_cons.mp hm with rfl | hm
        · omega
        · have := ih _ _ hr m hm
          omega

theorem c1SearchInt_reads {file : List Line} {key : CStr} {s e : Int} {v : Option CStr}
    {reads : List Int} (h : c1SearchInt file key s e = some (v, reads)) :
    ∀ m ∈ reads, s ≤ m ∧ m ≤ e := c1SearchIntFuel_reads _ _ _ h

/-! ## the searches within the bound -/

/-- the lines probed while every comparison turns to the right -/
def spineFuel : Nat → Int → Int → List Int
  | 0, _, _ => []
  | fuel + 1, startline, endline =>
    if endline ≥ startline then
      let mid := (endline - startline) / 2 + startline
      mid :: spineFuel fuel (mid + 1) endline
    else []

def spine (startline endline : Int) : List Int :=
  spineFuel ((endline - startline + 1).toNat + 1) startline endline

theorem le_of_mem_spineFuel : ∀ (fuel : Nat) (s e : Int), ∀ m ∈ spineFuel fuel s e, s ≤ m := by
  intro fuel
  induction fuel with
  | zero => intro s e m hm; simp [spineFuel] at hm
  | succ fuel ih =>
    intro s e m hm
    unfold spineFuel at hm
    split_ifs at hm with hse
    · rcases List.mem_cons.mp hm with rfl | hm
      · omega
      · have := ih _ _ m hm
        omega
    · simp at hm

/-- The record of a line of `ms` that can be read has a key that is not below `key`. -/
def TurnsLeft (file : List Line) (key : CStr) (ms : List Int) : Prop :=
  ∃ m ∈ ms, Seekable m ∧ ∃ line ∈ file[m.toNat]?, key ≤ lineKey line

instance (file : List Line) (key : CStr) (ms : List Int) : Decidable (TurnsLeft file key ms) :=
  inferInstanceAs (Decidable (∃ m ∈ ms, _ ∧ ∃ line ∈ file[m.toNat]?, _))

theorem turnsLeft_head {file : List Line} {key : CStr} {m : Nat} {line : Line} (ms : List Int)
    (hseek : Seekable m) (hget : file[m]? = some line) (h : key ≤ lineKey line) :
    TurnsLeft file key ((m : Int) :: ms) := by
  refine ⟨m, List.mem_cons_self, hseek, line, ?_, h⟩
  rw [Int.toNat_natCast]
  exact hget

/-- a line behind which the search goes on to the right -/
theorem turnsLeft_cons_iff {file : List Line} {key : CStr} {m : Nat} {line : Line} (ms : List Int)
    (hget : file[m]? = some line) (h : lineKey line < key) :
    TurnsLeft file key ((m : Int) :: ms) ↔ TurnsLeft file key ms := by
  constructor
  · rintro ⟨m', hm', hs', line', hline, hle⟩
    rcases List.mem_cons.mp hm' with rfl | hm'
    · rw [Int.toNat_natCast, hget] at hline
      obtain rfl := Option.some.inj hline
      exact absurd h (not_lt.mpr hle)
    · exact ⟨m', hm', hs', line', hline, hle⟩
  · rintro ⟨m', hm', hs'⟩
    exact ⟨m', List.mem_cons_of_mem _ hm', hs'⟩

/-- **A search stays within the bound** when its range does, or when it turns to the left before
it leaves it. -/
def OffsetsFit (file : List Line) (key : CStr) (startline endline : Int) : Prop :=
  endline < startline ∨ Seekable endline ∨ TurnsLeft file key (spine startline endline)

theorem c1SearchIntFuel_isSome_iff {file : List Line} (hwf : ∀ l ∈ file, WfLine l) (key : CStr) :
    ∀ (fuel : Nat) (s e : Int), 0 ≤ s → e < file.length → (e - s + 1).toNat < fuel →
      ((∃ r, c1SearchIntFuel file key fuel s e = some r) ↔
        e < s ∨ Seekable e ∨ TurnsLeft file key (spineFuel fuel s e)) := by
  intro fuel
  induction fuel with
  | zero => intro s e _ _ hf; omega
  | succ fuel ih =>
    intro s e h0 h1 hf
    by_cases hse : s ≤ e
    · obtain ⟨m, hm⟩ : ∃ m : Nat, (e - s) / 2 + s = m := ⟨((e - s) / 2 + s).toNat, by omega⟩
      have hml : m < file.length := by omega
      have hget : file[m]? = some file[m] := List.getElem?_eq_getElem hml
      have hsp : spineFuel (fuel + 1) s e = (m : Int) :: spineFuel fuel (m + 1) e := by
        rw [spineFuel, if_pos hse, hm]
      unfold c1SearchIntFuel
      rw [if_pos hse, hm, hsp]
      by_cases hseek : Seekable m
      · simp only [if_pos hseek, if_pos (Int.natCast_nonneg m), Int.toNat_natCast, hget]
        rw [hwf _ (List.getElem_mem hml)]
        simp only [strcmp_zero, gt_iff_lt, strcmp_pos]
        rcases lt_trichotomy key (lineKey file[m]) with h | h | h
        · -- to the left of a line that can be read every line can
          have hleft : Seekable ((m : Int) - 1) := hseek.mono (by omega)
          obtain ⟨r, hr⟩ := (ih s (m - 1) h0 (by omega) (by omega)).mpr (Or.inr (Or.inl hleft))
          rw [if_neg h.ne', if_pos h, hr]
          exact iff_of_true ⟨_, rfl⟩ (Or.inr (Or.inr (turnsLeft_head _ hseek hget h.le)))
        · rw [if_pos h.symm]
          exact iff_of_true ⟨_, rfl⟩ (Or.inr (Or.inr (turnsLeft_head _ hseek hget h.le)))
        · rw [if_neg h.ne, if_neg (not_lt.mpr h.le)]
          have hih := ih (m + 1) e (by omega) h1 (by omega)
          rw [turnsLeft_cons_iff _ hget h]
          constructor
          · rintro ⟨r, hr⟩
            obtain ⟨r', hr', -⟩ := Option.map_eq_some_iff.mp hr
            rcases hih.mp ⟨r', hr'⟩ with hlt | h'
            · obtain rfl : e = m := by omega
              exact Or.inr (Or.inl hseek)
            · exact Or.inr h'
          · intro h'
            obtain ⟨r, hr⟩ := hih.mpr (Or.inr (h'.resolve_left (not_lt.mpr hse)))
            rw [hr]
            exact ⟨_, rfl⟩
      · simp only [if_neg hseek]
        refine iff_of_false (by simp) ?_
        rintro (h | h | ⟨m', hm', hs', -⟩)
        · omega
        · exact hseek (h.mono (by omega))
        · rcases List.mem_cons.mp hm' with rfl | hm'
          · exact hseek hs'
          · exact hseek (hs'.mono (by have := le_of_mem_spineFuel _ _ _ m' hm'; omega))
    · unfold c1SearchIntFuel
      rw [if_neg (by omega)]
      exact iff_of_true ⟨_, rfl⟩ (Or.inl (by omega))

/-- **The searches whose offsets do not overflow.** -/
theorem c1SearchInt_isSome_iff {file : List Line} (hwf : ∀ l ∈ file, WfLine l) (key : CStr)
    {s e : Int} (h0 : 0 ≤ s) (h1 : e < file.length) :
    (∃ r, c1SearchInt file key s e = some r) ↔ OffsetsFit file key s e :=
  c1SearchIntFuel_isSome_iff hwf key _ s e h0 h1 (by omega)

/-! ## the search on a sorted file -/

/-- What `c1_search` is for: it ends, it reads lines of its range only, and it returns the value of
the record with `key` in that range, NULL if there is none. -/
def SearchesRange (file : List Line) (key : CStr) (startline endline : Int) : Prop :=
  ∃ v reads, c1SearchInt file key startline endline = some (v, reads) ∧
    (∀ m ∈ reads, startline ≤ m ∧ m ≤ endline) ∧
    ∀ val, v = some val ↔ ∃ (p : Nat) (line : Line), file[p]? = some line ∧ startline ≤ p ∧
      p ≤ endline ∧ lineKey line = key ∧ lineVal line = val

/-- the value the search ends with -/
theorem c1Search_eq {file : List Line} (hs : Sorted lineKey file) (hwf : ∀ l ∈ file, WfLine l)
    {key : CStr} {s e : Int} (h0 : 0 ≤ s) (h1 : e < file.length) {v : Option CStr}
    (hv : c1Search file key s e = some v) (val : CStr) :
    v = some val ↔ ∃ (p : Nat) (line : Line), file[p]? = some line ∧ s ≤ p ∧ p ≤ e ∧
      lineKey line = key ∧ lineVal line = val := by
  by_cases hin : ∃ (p : Nat) (line : Line), file[p]? = some line ∧ s ≤ p ∧ p ≤ e ∧
      lineKey line = key
  · obtain ⟨p, line, hp, hsp, hpe, rfl⟩ := hin
    have hfound := c1SearchFuel_found hs hwf hp _ s e h0 hsp hpe h1 (Nat.lt_succ_self _)
    obtain rfl : v = some (lineVal line) := Option.some.inj (hv.symm.trans hfound)
    constructor
    · intro hval
      exact ⟨p, line, hp, hsp, hpe, rfl, Option.some.inj hval⟩
    · rintro ⟨q, line', hq, -, -, hk, rfl⟩
      rw [hs.eq_of_key (List.mem_of_getElem? hq) (List.mem_of_getElem? hp) hk]
  · have hnone := c1SearchFuel_absent hwf _ s e h0 h1
      (fun p l hp hsp hpe hk => hin ⟨p, l, hp, hsp, hpe, hk⟩) (Nat.lt_succ_self _)
    obtain rfl : v = none := Option.some.inj (hv.symm.trans hnone)
    refine iff_of_false (by simp) ?_
    rintro ⟨p, line, hp, hsp, hpe, hk, -⟩
    exact hin ⟨p, line, hp, hsp, hpe, hk⟩

/-- **When `c1_search` is right**: exactly when it reads no line whose offset overflows. -/
theorem searchesRange_iff (file : List Line) (hs : Sorted lineKey file)
    (hwf : ∀ l ∈ file, WfLine l) (key : CStr) (startline endline : Int) (h0 : 0 ≤ startline)
    (h1 : endline < file.length) :
    SearchesRange file key startline endline ↔ OffsetsFit file key startline endline := by
  rw [← c1SearchInt_isSome_iff hwf key h0 h1]
  constructor
  · rintro ⟨v, reads, hr, -⟩
    exact ⟨_, hr⟩
  · rintro ⟨⟨v, reads⟩, hr⟩
    exact ⟨v, reads, hr, c1SearchInt_reads hr, c1Search_eq hs hwf h0 h1 (c1SearchInt_value hr)⟩

/-- The search of all lines of a file for a key between its records. -/
theorem searchesRange_mixed : SearchesRange (mixedFile.map keyval) ['b'] 0 2 :=
  (searchesRange_iff (mixedFile.map keyval) mergeInput_mixed.sorted2 mergeInput_mixed.wf2 ['b'] 0 2
    le_rfl (by decide)).mpr (Or.inr (Or.inl (by decide)))

/-! ## a file of more than `2 ^ 31` bytes -/

/-- `n` with `width` decimal digits -/
def numeral : Nat → Nat → CStr
  | 0, _ => []
  | width + 1, n => Nat.digitChar (n / 10 ^ width) :: numeral width (n % 10 ^ width)

theorem digitChar_lt : ∀ b < 10, ∀ a < b, Nat.digitChar a < Nat.digitChar b := by decide

theorem numeral_lt : ∀ (width : Nat) {m n : Nat}, m < n → n < 10 ^ width →
    numeral width m < numeral width n := by
  intro width
  induction width with
  | zero => intro m n h hn; omega
  | succ width ih =>
    intro m n h hn
    have hpos : 0 < 10 ^ width := by positivity
    have hdig : n / 10 ^ width < 10 := Nat.div_lt_of_lt_mul (by rwa [pow_succ] at hn)
    have hle : m / 10 ^ width ≤ n / 10 ^ width := Nat.div_le_div_right h.le
    unfold numeral
    rw [List.cons_lt_cons_iff]
    rcases hle.lt_or_eq with hlt | heq
    · exact Or.inl (digitChar_lt _ hdig _ hlt)
    · refine Or.inr ⟨by rw [heq], ih ?_ (Nat.mod_lt n hpos)⟩
      have hm := Nat.div_add_mod m (10 ^ width)
      have hn := Nat.div_add_mod n (10 ^ width)
      rw [heq] at hm
      omega

theorem length_numeral : ∀ width n, (numeral width n).length = width := by
  intro width
  induction width with
  | zero => intro n; rfl
  | succ width ih => intro n; simp [numeral, ih]

theorem numeral_mem : ∀ (width : Nat) {n : Nat}, n < 10 ^ width →
    ∀ c ∈ numeral width n, isspace c = false ∧ c ≠ '\x00' := by
  have hdigit : ∀ d < 10, isspace (Nat.digitChar d) = false ∧ Nat.digitChar d ≠ '\x00' := by
    decide
  intro width
  induction width with
  | zero => intro n _ c hc; simp [numeral] at hc
  | succ width ih =>
    intro n hn c hc
    unfold numeral at hc
    rcases List.mem_cons.mp hc with rfl | hc
    · exact hdigit _ (Nat.div_lt_of_lt_mul (by rwa [pow_succ] at hn))
    · exact ih (Nat.mod_lt n (by positivity)) c hc

/-- a put of the key `n` -/
def numbered (n : Nat) : Entry := ⟨numeral 7 n, ⟨['v'], false⟩, 0⟩

theorem fits_numbered {n : Nat} (hn : n < 10 ^ 7) : Fits (numbered n) where
  key := ⟨List.ne_nil_of_length_pos (by rw [numbered, length_numeral]; omega), numeral_mem 7 hn⟩
  value := show Word ['v'] by decide
  flag := show IsInt 0 by decide
  size := by
    have hrest : (record (numbered n)).length = (numeral 7 n).length + 5 := by
      rw [record, List.length_append]
      rfl
    rw [hrest, length_numeral]
    decide

/-- the records `0000000`, `0000001`, .. -/
def numberedFile (n : Nat) : List Line := (List.range n).map fun i => keyval (numbered i)

theorem sorted_numberedFile {n : Nat} (hn : n ≤ 10 ^ 7) : Sorted lineKey (numberedFile n) := by
  unfold Sorted numberedFile
  rw [List.pairwise_map]
  refine List.Pairwise.imp_of_mem (fun {a b} ha hb hab => ?_) List.pairwise_lt_range
  have ha' := List.mem_range.mp ha
  have hb' := List.mem_range.mp hb
  rw [lineKey_keyval (fits_numbered (by omega)), lineKey_keyval (fits_numbered (by omega))]
  exact numeral_lt 7 hab (by omega)

theorem wfLine_numberedFile {n : Nat} (hn : n ≤ 10 ^ 7) : ∀ l ∈ numberedFile n, WfLine l := by
  intro l hl
  obtain ⟨i, hi, rfl⟩ := List.mem_map.mp hl
  exact wfLine_keyval (fits_numbered (by have := List.mem_range.mp hi; omega))

/-- The last record of a file of 4982562 records is not found: its offset is no int. -/
theorem search_overflows : Sorted lineKey (numberedFile 4982562) ∧
    (∀ l ∈ numberedFile 4982562, WfLine l) ∧
    (4982561 : Int) < (numberedFile 4982562).length ∧
    (numberedFile 4982562)[4982561]? = some (keyval (numbered 4982561)) ∧
    ¬ SearchesRange (numberedFile 4982562) (numeral 7 4982561) 4982561 4982561 := by
  have hs := sorted_numberedFile (n := 4982562) (by norm_num)
  have hwf := wfLine_numberedFile (n := 4982562) (by norm_num)
  have hlen : (numberedFile 4982562).length = 4982562 := by
    rw [numberedFile, List.length_map, List.length_range]
  have hlt : (4982561 : Int) < (numberedFile 4982562).length := by
    rw [hlen]
    norm_num
  refine ⟨hs, hwf, hlt, ?_, ?_⟩
  · rw [numberedFile, List.getElem?_map, List.getElem?_range (by norm_num)]
    rfl
  · have hspine : spine 4982561 4982561 = [4982561] := by decide
    have hseek : ¬ Seekable 4982561 := by decide
    rintro ⟨v, reads, hr, -⟩
    rcases (c1SearchInt_isSome_iff hwf _ (by norm_num) hlt).mp ⟨_, hr⟩ with h | h | ⟨m, hm, h, -⟩
    · omega
    · exact hseek h
    · rw [hspine, List.mem_singleton] at hm
      subst hm
      exact hseek h

end LsmKv
