import LsmKv.C1

/-!
# Records are read back

`Fits e`: the key and the value of `e` are words, its flag is an `int`, and its record is not cut
at `lineSize`.  Such a
record is scanned back into the three fields it was printed from (`sscanf_keyval`).
-/

namespace LsmKv

/-- the record of `e` is well formed and not cut -/
structure Fits (e : Entry) : Prop where
  key : Word e.key
  value : Word e.value.chars
  flag : IsInt e.flag
  size : (record e).length < lineSize

theorem fits_iff (e : Entry) :
    Fits e ↔ Word e.key ∧ Word e.value.chars ∧ IsInt e.flag ∧ (record e).length < lineSize :=
  ⟨fun h => ⟨h.key, h.value, h.flag, h.size⟩, fun h => ⟨h.1, h.2.1, h.2.2.1, h.2.2.2⟩⟩

instance (e : Entry) : Decidable (Fits e) := decidable_of_iff _ (fits_iff e).symm

theorem fmtInt_ne_nul (i : Int) : ∀ c ∈ fmtInt i, c ≠ '\x00' := by
  have hd : ∀ n, ∀ c ∈ Nat.toDigits 10 n, c ≠ '\x00' := by
    rintro n c hc rfl
    have := Nat.isDigit_of_mem_toDigits (by norm_num) (by norm_num) hc
    revert this
    decide
  cases i with
  | ofNat n => exact hd n
  | negSucc n =>
    intro c hc
    rcases List.mem_cons.mp hc with rfl | hc'
    · decide
    · exact hd _ c hc'

theorem record_ne_nul {e : Entry} (h : Fits e) : ∀ c ∈ record e, c ≠ '\x00' := by
  intro c hc
  simp only [record, List.mem_append, List.mem_cons, List.not_mem_nil, or_false] at hc
  rcases hc with hc | rfl | hc | rfl | hc | rfl
  · exact (h.key.2 c hc).2
  · decide
  · exact (h.value.2 c hc).2
  · decide
  · exact fmtInt_ne_nul _ c hc
  · decide

theorem keyval_eq {e : Entry} (h : Fits e) :
    keyval e = record e ++ List.replicate (lineSize - (record e).length) '\x00' := by
  have := h.size
  unfold keyval
  rw [List.take_of_length_le (by omega)]

/-- three fields between single spaces are scanned -/
theorem sscanf_fields {line : Line} {key val rest : CStr} {flag : Int} (hkey : Word key)
    (hval : Word val) (hflag : IsInt flag) (hrest : NoDigit rest)
    (hline : line.takeWhile (· ≠ '\x00') = key ++ ' ' :: (val ++ ' ' :: (fmtInt flag ++ rest))) :
    sscanf line = (some key, some val, some flag) := by
  have hsp : ∀ s, Stops (' ' :: s) := by
    intro s c hc
    obtain rfl : ' ' = c := by simpa using hc
    decide
  have h1 := scanWord_append hkey (hsp (val ++ ' ' :: (fmtInt flag ++ rest)))
  have h2 := scanWord_append hval (hsp (fmtInt flag ++ rest))
  have h3 := scanInt_fmtInt hflag hrest
  unfold sscanf
  rw [hline, h1]
  simp only [scanWord_space (show isspace ' ' = true from rfl), h2,
    scanInt_space (show isspace ' ' = true from rfl), h3, Option.map_some]

/-- **The record of an entry is scanned back into it.** -/
theorem sscanf_keyval {e : Entry} (h : Fits e) :
    sscanf (keyval e) = (some e.key, some e.value.chars, some e.flag) := by
  have hcut : (keyval e).takeWhile (· ≠ '\x00') = record e := by
    rw [keyval_eq h, List.takeWhile_append_of_pos (by simpa using record_ne_nul h)]
    simp
  have hnl : NoDigit ['\n'] := by
    intro c hc
    obtain rfl : '\n' = c := by simpa using hc
    decide
  exact sscanf_fields h.key h.value h.flag hnl hcut

/-- the first byte of a record is the first byte of its key -/
theorem first_keyval {e : Entry} (h : Fits e) : first (keyval e) = first e.key := by
  obtain ⟨c, s, hk⟩ := List.exists_cons_of_ne_nil h.key.1
  rw [keyval_eq h, record, hk]
  rfl

end LsmKv
