import LsmKv.Journal.Remove

/-!
# What `remove_transaction` reads off the entries

A line that begins inside an entry is unmarshalled from bytes that lie elsewhere.

* `unmarshall_inside`   its length field holds bytes of the data, or the two 1s and the newline
                        behind them, and is far too great, but for the five `stray` lines;
* `removeLoop_inside`   so where a newline is in front of a delimiter the scan never gets past that
                        entry;
* `removeLoop_tail`     behind the first entry the field `valid` of the entry looked for is not
                        written over;
* `removesOne_iff`      when `remove_transaction` removes what it is asked to.
-/

namespace LsmKv

open FixedRecords

/-- `unmarshall_journal_entry` reads outside the buffer when the length it reads is too great. -/
theorem unmarshall_none {buf : List UInt8} (h : buf.length = maxJournalEntrySize) {i j : ℕ}
    {b c : UInt8} (hi : i < 8) (hb : buf[i + 4]? = some b) (hbig : 422 ≤ b.toNat * 256 ^ i)
    (hj : j < 8) (hc : buf[j + 4]? = some c) (hne : c ≠ 255) :
    unmarshallJournalEntry buf = none := by
  have h2 : slice buf sizeofInt sizeofSizeT = some ((buf.drop 4).take 8) := by
    rw [slice, if_pos (by rw [h]; decide)]
    rfl
  have hget : ∀ k < 8, ((buf.drop 4).take 8)[k]? = buf[k + 4]? := by
    intro k hk
    rw [List.getElem?_take_of_lt hk, List.getElem?_drop, Nat.add_comm]
  have hlo := le_leVal ((hget i hi).trans hb)
  have hhi := leVal_succ_lt ((hget j hj).trans hc) hne
  have hlen : ((buf.drop 4).take 8).length = 8 := by
    rw [List.length_take, List.length_drop, h]
    rfl
  rw [hlen] at hhi
  obtain ⟨n, hn⟩ : ∃ n, leVal ((buf.drop 4).take 8) = n := ⟨_, rfl⟩
  rw [hn] at hlo hhi
  have hsucc : (BitVec.ofNat 64 n + 1).toNat = n + 1 := by
    simp only [BitVec.toNat_add, BitVec.toNat_ofNat, BitVec.ofNat_eq_ofNat]
    omega
  have h3 : slice buf (sizeofInt + sizeofSizeT) (n + 1) = none := by
    rw [slice, if_neg]
    rw [h]
    show ¬ 12 + (n + 1) ≤ 434
    omega
  unfold unmarshallJournalEntry
  simp only [h2, hn, hsucc, h3, Option.bind_eq_bind, Option.bind_some, Option.bind_none,
    Option.bind_fun_none]

/-! ## the bytes of an entry -/

namespace LogRequest

/-- an entry up to its delimiter -/
def line (r : LogRequest) : List UInt8 := r.upTo ++ [10]

/-- The data holds no byte 255, as no UTF-8 text does. -/
def Text (r : LogRequest) : Prop := 255 ∉ r.data

instance (r : LogRequest) : Decidable r.Text := inferInstanceAs (Decidable (255 ∉ r.data))

variable (r : LogRequest)

theorem length_line : r.line.length = 22 + r.data.length := by
  rw [line, List.length_append, r.length_upTo, List.length_singleton]
  omega

theorem line_eq : r.line = (intBytes r.txid ++ sizeBytes (BitVec.ofNat 64 r.data.length))
    ++ (r.data ++ [0, 1, 0, 0, 0, 1, 0, 0, 0, 10]) := by
  simp only [line, upTo, body, List.append_assoc]
  rfl

theorem length_head :
    (intBytes r.txid ++ sizeBytes (BitVec.ofNat 64 r.data.length)).length = 12 := by
  simp [sizeofInt, sizeofSizeT]

/-- the bytes of the data -/
theorem line_data {i : ℕ} (hi : i < r.data.length) : r.line[i + 12]? = some (r.data[i]) := by
  rw [line_eq, List.getElem?_append_right (by rw [length_head]; omega), length_head,
    Nat.add_sub_cancel, List.getElem?_append_left hi, List.getElem?_eq_getElem hi]

/-- the bytes behind the data -/
theorem line_tail (i : ℕ) : r.line[i + (12 + r.data.length)]?
    = [(0 : UInt8), 1, 0, 0, 0, 1, 0, 0, 0, 10][i]? := by
  rw [line_eq, List.getElem?_append_right (by rw [length_head]; omega), length_head,
    List.getElem?_append_right (by omega)]
  congr 1
  omega

/-- no byte behind the length's first one is 255 -/
theorem line_ne (h : r.Text) {i : ℕ} (hi : 5 ≤ i) (hl : i < 22 + r.data.length) :
    ∃ b, r.line[i]? = some b ∧ b ≠ 255 := by
  have hn : r.data.length ≤ 404 := r.short
  by_cases h12 : i < 12
  · have h64 : (BitVec.ofNat 64 r.data.length).toNat = r.data.length := by
      rw [BitVec.toNat_ofNat]
      omega
    have h0 : r.data.length / 256 / 256 = 0 := by omega
    have hsize : sizeBytes (BitVec.ofNat 64 r.data.length)
        = UInt8.ofNat r.data.length :: UInt8.ofNat (r.data.length / 256)
            :: [0, 0, 0, 0, 0, 0] := by
      rw [sizeBytes, h64]
      show _ :: _ :: leBytes 6 (r.data.length / 256 / 256) = _
      rw [h0]
      rfl
    have hone : r.data.length / 256 = 0 ∨ r.data.length / 256 = 1 := by omega
    rw [line_eq, List.getElem?_append_left (by rw [length_head]; omega),
      List.getElem?_append_right (by rw [length_intBytes]; exact le_trans (by decide) hi),
      length_intBytes, hsize]
    obtain ⟨j, rfl⟩ : ∃ j, i = j + 5 := ⟨i - 5, by omega⟩
    have hj : j + 5 - sizeofInt = j + 1 := by
      show j + 5 - 4 = _
      omega
    rw [hj, List.getElem?_cons_succ]
    have hj7 : j < 7 := by omega
    rcases hone with h | h <;> rw [h] <;> interval_cases j <;> exact ⟨_, rfl, by decide⟩
  · by_cases hd : i < 12 + r.data.length
    · obtain ⟨j, rfl⟩ : ∃ j, i = j + 12 := ⟨i - 12, by omega⟩
      refine ⟨_, r.line_data (by omega), fun he => h ?_⟩
      rw [← he]
      exact List.getElem_mem _
    · obtain ⟨j, rfl⟩ : ∃ j, i = j + (12 + r.data.length) := ⟨i - (12 + r.data.length), by omega⟩
      have hj : j < 10 := by omega
      rw [line_tail]
      interval_cases j <;> exact ⟨_, rfl, by decide⟩

end LogRequest

/-- **A line that begins inside an entry** and ends at its delimiter is read outside the buffer,
but for the last five bytes. -/
theorem unmarshall_inside {r : LogRequest} (h : r.Text) {buf : List UInt8}
    (hb : buf.length = maxJournalEntrySize) {o : ℕ} (h1 : 1 ≤ o) (ho : o ≤ 16 + r.data.length) :
    unmarshallJournalEntry (fgetsBuffer buf (r.line.drop o)) = none := by
  have hn : r.data.length ≤ 404 := r.short
  have hpos : 0 < r.data.length := List.length_pos_of_ne_nil r.ne
  have hlen : (r.line.drop o).length = 22 + r.data.length - o := by
    rw [List.length_drop, r.length_line]
  have hbuf := length_fgetsBuffer hb (r.line.drop o) (show _ < 434 by rw [hlen]; omega)
  have hget : ∀ j, j < 22 + r.data.length - o →
      (fgetsBuffer buf (r.line.drop o))[j]? = r.line[o + j]? := by
    intro j hj
    rw [fgetsBuffer, List.getElem?_append_left (by rw [hlen]; exact hj), List.getElem?_drop]
  obtain ⟨c, hc, hne⟩ := r.line_ne h (i := o + 4) (by omega) (by omega)
  have hfew : (fgetsBuffer buf (r.line.drop o))[0 + 4]? = some c := by
    rw [hget _ (by omega)]
    exact hc
  -- a byte of the length field that is not 0
  have hbyte : ∃ i b, i < 8 ∧ (fgetsBuffer buf (r.line.drop o))[i + 4]? = some b ∧
      422 ≤ b.toNat * 256 ^ i := by
    have hdata : ∀ k (hk : k < r.data.length) i, 2 ≤ i → i < 8 → o + (i + 4) = k + 12 →
        ∃ i b, i < 8 ∧ (fgetsBuffer buf (r.line.drop o))[i + 4]? = some b ∧
          422 ≤ b.toNat * 256 ^ i := by
      intro k hk i hi hi8 he
      refine ⟨i, r.data[k], hi8, ?_, ?_⟩
      · rw [hget _ (by omega), he, r.line_data hk]
      · have hz : r.data[k].toNat ≠ 0 := fun h0 =>
          r.nulFree _ (List.getElem_mem hk) (UInt8.toNat_inj.mp h0)
        have hp : 256 ^ 2 ≤ 256 ^ i := Nat.pow_le_pow_right (by decide) hi
        calc 422 ≤ 1 * 256 ^ 2 := by decide
          _ ≤ r.data[k].toNat * 256 ^ i := Nat.mul_le_mul (by omega) hp
    by_cases h5 : o ≤ 5
    · exact hdata 0 hpos (8 - o) (by omega) (by omega) (by omega)
    · by_cases hd : o < 6 + r.data.length
      · exact hdata (o - 6) (by omega) 2 (by omega) (by omega) (by omega)
      · by_cases ht : o ≤ 11 + r.data.length
        · refine ⟨13 + r.data.length - o, 1, by omega, ?_, ?_⟩
          · have hk : o + (13 + r.data.length - o + 4) = 5 + (12 + r.data.length) := by omega
            rw [hget _ (by omega), hk, r.line_tail]
            rfl
          · have hp : 256 ^ 2 ≤ 256 ^ (13 + r.data.length - o) :=
              Nat.pow_le_pow_right (by decide) (by omega)
            show 422 ≤ 1 * _
            omega
        · refine ⟨17 + r.data.length - o, 10, by omega, ?_, ?_⟩
          · have hk : o + (17 + r.data.length - o + 4) = 9 + (12 + r.data.length) := by omega
            rw [hget _ (by omega), hk, r.line_tail]
            rfl
          · have hp : 256 ^ 1 ≤ 256 ^ (17 + r.data.length - o) :=
              Nat.pow_le_pow_right (by decide) (by omega)
            show 422 ≤ 10 * _
            omega
  obtain ⟨i, b, hi, hbi, hbig⟩ := hbyte
  exact unmarshall_none hbuf hi hbi hbig (by decide) hfew hne

/-! ## one line -/

/-- what one round does -/
theorem removeLoop_cases {file buf rest f' : List UInt8} {txid : BitVec 32} {fuel : ℕ} {rc : Int}
    (hr : rest ≠ []) (h : removeLoop file txid (fuel + 1) buf rest = some (rc, f')) :
    ∃ tx, unmarshallJournalEntry (fgetsBuffer buf (fgetsLine rest)) = some tx ∧
      ((tx.txid ≠ txid ∧ removeLoop file txid fuel (fgetsBuffer buf (fgetsLine rest))
          (rest.drop (fgetsLine rest).length) = some (rc, f')) ∨
        (tx.txid = txid ∧ rc = 0 ∧ (f' = file ∨
          ∃ q, q + 9 = file.length - (rest.drop (fgetsLine rest).length).length ∧
            f' = fwriteAt file q (intBytes 0)))) := by
  rw [removeLoop, if_neg hr] at h
  obtain ⟨tx, hu, h⟩ := Option.bind_eq_some_iff.mp h
  refine ⟨tx, hu, ?_⟩
  by_cases hid : tx.txid = txid
  · right
    rw [if_pos hid] at h
    refine ⟨hid, ?_⟩
    by_cases hv : tx.valid = 0
    · rw [if_pos hv] at h
      obtain ⟨rfl, rfl⟩ := Prod.mk.inj (Option.some.inj h)
      exact ⟨rfl, Or.inl rfl⟩
    · rw [if_neg hv] at h
      have hoff : sizeofInt + sizeofInt + 1 = 9 := rfl
      simp only [hoff] at h
      by_cases hpos : file.length - (rest.drop (fgetsLine rest).length).length < 9
      · rw [if_pos hpos] at h
        cases h
      · rw [if_neg hpos] at h
        obtain ⟨rfl, rfl⟩ := Prod.mk.inj (Option.some.inj h)
        exact ⟨rfl, Or.inr ⟨_, by omega, rfl⟩⟩
  · left
    rw [if_neg hid] at h
    exact ⟨hid, h⟩

/-- the bytes that a write leaves -/
theorem fwriteAt_get {file : List UInt8} {q v : ℕ} (hq : q + 4 ≤ file.length)
    (hv : v < q ∨ q + 4 ≤ v) : (fwriteAt file q (intBytes 0))[v]? = file[v]? := by
  have hlen : (intBytes 0).length = 4 := length_intBytes 0
  have htake : (file.take q).length = q := by
    rw [List.length_take]
    omega
  rw [fwriteAt, hlen, List.append_assoc]
  rcases hv with hv | hv
  · rw [List.getElem?_append_left (by omega), List.getElem?_take_of_lt hv]
  · rw [List.getElem?_append_right (by omega), List.getElem?_append_right (by omega), htake, hlen,
      List.getElem?_drop]
    congr 1
    omega

/-- the bytes that a round leaves which ends at `pos` -/
theorem written_get {file f' rest : List UInt8} {pos v : ℕ} (hlen : file.length = pos + rest.length)
    (hw : f' = file ∨ ∃ q, q + 9 = file.length - rest.length ∧ f' = fwriteAt file q (intBytes 0))
    (hv : v + 9 < pos ∨ pos ≤ v + 5) : f'[v]? = file[v]? := by
  rcases hw with rfl | ⟨q, hq, rfl⟩
  · rfl
  · apply fwriteAt_get
    · omega
    · omega

/-- a line is the beginning of the rest -/
theorem fgetsLine_take (rest : List UInt8) :
    fgetsLine rest = rest.take (fgetsLine rest).length := by
  have h : ∀ n m, (rest.take n).take m = rest.take ((rest.take n).take m).length := by
    intro n m
    rw [List.take_take, List.length_take]
    exact List.take_eq_take_min
  exact h _ _

theorem fgetsLine_pos {rest : List UInt8} (h : rest ≠ []) : 0 < (fgetsLine rest).length := by
  have hpos := List.length_pos_of_ne_nil h
  have h433 : maxJournalEntrySize - 1 = 433 := rfl
  rw [fgetsLine, h433]
  simp only [List.length_take]
  omega

/-- **No byte before the position but the last eight** is written over. -/
theorem removeLoop_before {file : List UInt8} {txid : BitVec 32} {rc : Int} {f' : List UInt8} :
    ∀ (fuel : ℕ) (pre rest buf : List UInt8), file = pre ++ rest →
      removeLoop file txid fuel buf rest = some (rc, f') →
      ∀ v, v + 9 ≤ pre.length → f'[v]? = file[v]? := by
  intro fuel
  induction fuel with
  | zero => intro pre rest buf _ h; cases h
  | succ fuel ih =>
    intro pre rest buf hfile h v hv
    by_cases hr : rest = []
    · rw [removeLoop, if_pos hr] at h
      cases h
      rfl
    · have hpos := fgetsLine_pos hr
      have hsplit : rest = fgetsLine rest ++ rest.drop (fgetsLine rest).length := by
        have := (List.take_append_drop (fgetsLine rest).length rest).symm
        rwa [← fgetsLine_take] at this
      have hlen : file.length = pre.length + (fgetsLine rest).length
          + (rest.drop (fgetsLine rest).length).length := by
        rw [hfile, List.length_append]
        conv_lhs => rw [hsplit]
        rw [List.length_append]
        omega
      obtain ⟨tx, -, ⟨-, h⟩ | ⟨-, -, hw⟩⟩ := removeLoop_cases hr h
      · refine ih (pre ++ fgetsLine rest) _ _ ?_ h v ?_
        · rw [List.append_assoc, ← hsplit]
          exact hfile
        · rw [List.length_append]
          omega
      · exact written_get hlen hw (Or.inl (by omega))

/-- a line that begins inside an entry, in front of a newline of its own -/
theorem LogRequest.fgetsLine_inside (r : LogRequest) {o : ℕ} (ho : o ≤ 12 + r.data.length)
    (hnl : 10 ∈ r.body.drop o) (more : List UInt8) : ∃ k, 1 ≤ k ∧ o + k ≤ 12 + r.data.length ∧
      fgetsLine (r.line.drop o ++ more) = (r.line.drop o).take k := by
  have hn : r.data.length ≤ 404 := r.short
  obtain ⟨l1, l2, hl, hl1⟩ := List.eq_append_cons_of_mem hnl
  have hbl : l1.length + 1 + l2.length = 12 + r.data.length - o := by
    have := congrArg List.length hl
    rw [List.length_drop, r.length_body, List.length_append, List.length_cons] at this
    omega
  have hsplit : r.line.drop o = l1 ++ 10 :: (l2 ++ (0 :: (intBytes 1 ++ intBytes 1) ++ [10])) := by
    rw [line, upTo, List.append_assoc,
      List.drop_append_of_le_length (by rw [r.length_body]; exact ho), hl]
    simp
  refine ⟨l1.length + 1, by omega, by omega, ?_⟩
  rw [hsplit, List.append_assoc, List.cons_append, fgetsLine_newline hl1 (show _ < 433 by omega),
    List.take_length_add_append]
  rfl

/-- **Inside an entry** the scan ends: before the delimiter, and nothing behind the data is
written over. -/
theorem removeLoop_inside {file : List UInt8} {txid : BitVec 32} {r : LogRequest} (ht : r.Text)
    {rc : Int} {f' : List UInt8} {more : List UInt8} :
    ∀ (fuel o : ℕ) (pre buf : List UInt8), o ≤ 12 + r.data.length → (1 ≤ o ∨ ¬ r.Plain) →
      buf.length = maxJournalEntrySize → file = pre ++ (r.line.drop o ++ more) →
      removeLoop file txid fuel buf (r.line.drop o ++ more) = some (rc, f') →
      rc = 0 ∧ ∀ v, pre.length + (12 + r.data.length - o) ≤ v → f'[v]? = file[v]? := by
  have hn : r.data.length ≤ 404 := r.short
  have hup := r.length_upTo
  intro fuel
  induction fuel with
  | zero => intro o pre buf _ _ _ _ h; cases h
  | succ fuel ih =>
    intro o pre buf ho hstart hb hfile h
    have hdl : r.line.drop o = r.upTo.drop o ++ [10] := by
      rw [LogRequest.line, List.drop_append_of_le_length (by omega)]
    have hne : r.line.drop o ++ more ≠ [] := by simp [hdl]
    by_cases hnl : 10 ∈ r.body.drop o
    · -- the line ends at a newline in front of the delimiter
      obtain ⟨k, hk1, hk, hline⟩ := r.fgetsLine_inside ho hnl more
      have hlk : ((r.line.drop o).take k).length = k := by
        rw [List.length_take, List.length_drop, r.length_line]
        omega
      have hcut : r.line.drop o ++ more
          = (r.line.drop o).take k ++ (r.line.drop (o + k) ++ more) := by
        rw [← List.append_assoc, ← List.drop_drop, List.take_append_drop]
      have hdrop : (r.line.drop o ++ more).drop ((r.line.drop o).take k).length
          = r.line.drop (o + k) ++ more := by
        rw [hcut, List.drop_left]
      have hfile' : file = (pre ++ (r.line.drop o).take k) ++ (r.line.drop (o + k) ++ more) := by
        rw [hfile, hcut, List.append_assoc]
      have hlen : file.length = pre.length + k + (r.line.drop (o + k) ++ more).length := by
        rw [hfile', List.length_append, List.length_append, hlk]
      obtain ⟨tx, -, hcase⟩ := removeLoop_cases hne h
      rw [hline, hdrop] at hcase
      rcases hcase with ⟨-, h⟩ | ⟨-, rfl, hw⟩
      · have hb' := length_fgetsBuffer hb _ (show ((r.line.drop o).take k).length < 434 by
          rw [hlk]
          omega)
        obtain ⟨hrc, hv⟩ := ih (o + k) _ _ (by omega) (Or.inl (by omega)) hb' hfile' h
        refine ⟨hrc, fun v hpv => hv v ?_⟩
        rw [List.length_append, hlk]
        omega
      · exact ⟨rfl, fun v hpv => written_get hlen hw (Or.inr (by omega))⟩
    · -- the line ends at the delimiter
      have h1 : 1 ≤ o := by
        rcases hstart with h1 | hp
        · exact h1
        · by_contra h0
          obtain rfl : o = 0 := by omega
          exact hnl (not_not.mp hp)
      have hup10 : 10 ∉ r.upTo.drop o := by
        have hone : (10 : UInt8) ∉ (0 :: (intBytes 1 ++ intBytes 1) : List UInt8) := by decide
        rw [LogRequest.upTo, List.drop_append_of_le_length (by rw [r.length_body]; exact ho),
          List.mem_append]
        exact not_or.mpr ⟨hnl, hone⟩
      have hline : fgetsLine (r.line.drop o ++ more) = r.line.drop o := by
        rw [hdl, List.append_assoc]
        refine fgetsLine_newline hup10 ?_
        rw [List.length_drop, hup]
        show _ < 433
        omega
      obtain ⟨tx, hu, -⟩ := removeLoop_cases hne h
      rw [hline, unmarshall_inside ht hb h1 (by omega)] at hu
      cases hu

/-! ## one entry -/

theorem fgetsLine_cut {l rest : List UInt8} (h : 10 ∉ l) :
    fgetsLine (l ++ 10 :: rest) = (l ++ [10]).take (maxJournalEntrySize - 1) := by
  by_cases hl : l.length < maxJournalEntrySize - 1
  · rw [fgetsLine_newline h hl, List.take_of_length_le]
    rw [List.length_append, List.length_singleton]
    omega
  · refine fgetsLine_full ?_ fun hm => h ?_
    · rw [List.take_append_of_le_length (by omega), List.take_append_of_le_length (by omega)]
    · rw [List.take_append_of_le_length (by omega)] at hm
      exact List.mem_of_mem_take hm

/-- the bytes in front of an entry's first newline -/
theorem LogRequest.line_cut (r : LogRequest) : ∃ l1 l2, r.line = l1 ++ 10 :: l2 ∧ 10 ∉ l1 ∧
    (r.Plain → l1 = r.upTo) ∧ (¬ r.Plain → l1.length ≤ 11 + r.data.length) := by
  by_cases hp : r.Plain
  · exact ⟨r.upTo, [], rfl, hp.upTo, fun _ => rfl, fun h => absurd hp h⟩
  · obtain ⟨l1, l2, hl, hl1⟩ := List.eq_append_cons_of_mem (not_not.mp hp)
    refine ⟨l1, l2 ++ (0 :: (intBytes 1 ++ intBytes 1)) ++ [10], ?_, hl1, fun h => absurd h hp,
      fun _ => ?_⟩
    · rw [line, upTo, hl]
      simp
    · have := congrArg List.length hl
      rw [r.length_body, List.length_append, List.length_cons] at this
      omega

/-- The line that begins with the padding of `r`: how much of the next entry it takes. -/
theorem fgetsLine_padded (r r' : LogRequest) (more : List UInt8) : ∃ o, 1 ≤ o ∧
    o ≤ 22 + r'.data.length ∧
    fgetsLine (r.filler ++ (r'.line ++ more)) = r.filler ++ r'.line.take o ∧
    (r.filler ++ r'.line.take o).length < maxJournalEntrySize ∧
    (¬ r'.Plain → o ≤ 12 + r'.data.length) ∧
    (r'.Plain → o = min (21 + r.data.length) (22 + r'.data.length)) := by
  obtain ⟨hz, hz8⟩ := r.length_filler
  obtain ⟨l1, l2, hl, hl1, hplain, hnot⟩ := r'.line_cut
  have hlen : (l1 ++ [10]).length = l1.length + 1 := by
    rw [List.length_append, List.length_singleton]
  have hcut : r'.line = (l1 ++ [10]) ++ l2 := by
    rw [hl, List.append_assoc]
    rfl
  have hle : l1.length + 1 ≤ 22 + r'.data.length := by
    have := congrArg List.length hcut
    rw [r'.length_line, List.length_append, hlen] at this
    omega
  have htake : r'.line.take (min (21 + r.data.length) (l1.length + 1))
      = (l1 ++ [10]).take (21 + r.data.length) := by
    have hone : r'.line.take (l1.length + 1) = l1 ++ [10] := by
      rw [hcut, ← hlen, List.take_left]
    rw [← List.take_take, hone]
  refine ⟨min (21 + r.data.length) (l1.length + 1), by omega, by omega, ?_, ?_, fun h => ?_,
    fun h => ?_⟩
  · have h10 : 10 ∉ r.filler ++ l1 := by
      rw [List.mem_append]
      exact not_or.mpr ⟨r.newline_notMem_filler, hl1⟩
    have hform : r.filler ++ (r'.line ++ more) = (r.filler ++ l1) ++ 10 :: (l2 ++ more) := by
      rw [hl]
      simp
    have h433 : maxJournalEntrySize - 1 = r.filler.length + (21 + r.data.length) := by
      show 433 = _
      omega
    rw [hform, fgetsLine_cut h10, htake, h433, List.append_assoc, List.take_length_add_append]
  · rw [htake, List.length_append, List.length_take]
    show _ < 434
    omega
  · have := hnot h
    omega
  · rw [hplain h, r'.length_upTo]
    omega

/-- the `txid` that is read -/
theorem unmarshall_txid {buf : List UInt8} {tx : TransactionMem}
    (h : unmarshallJournalEntry buf = some tx) :
    tx.txid = BitVec.ofNat 32 (leVal (buf.take sizeofInt)) := by
  unfold unmarshallJournalEntry at h
  obtain ⟨b, hb, h⟩ := Option.bind_eq_some_iff.mp h
  obtain ⟨_, _, h⟩ := Option.bind_eq_some_iff.mp h
  obtain ⟨_, _, h⟩ := Option.bind_eq_some_iff.mp h
  obtain ⟨_, _, h⟩ := Option.bind_eq_some_iff.mp h
  obtain ⟨_, _, h⟩ := Option.bind_eq_some_iff.mp h
  cases h
  rw [slice] at hb
  split_ifs at hb
  cases hb
  rfl

/-- a line that begins with padding reads as `txid` 0 -/
theorem unmarshall_padded {buf w : List UInt8} {r : LogRequest} {tx : TransactionMem}
    (h : unmarshallJournalEntry (fgetsBuffer buf (r.filler ++ w)) = some tx) : tx.txid = 0 := by
  obtain ⟨hz, hz8⟩ := r.length_filler
  have h4 : (fgetsBuffer buf (r.filler ++ w)).take sizeofInt = List.replicate 4 0 := by
    have h4z : sizeofInt ≤ r.filler.length := le_trans (by decide) hz8
    rw [fgetsBuffer, List.append_assoc, List.take_append_of_le_length h4z, LogRequest.filler,
      List.take_replicate]
    congr 1
    have : r.filler.length = maxEntrySize + 8 - r.data.length := by
      rw [LogRequest.filler, List.length_replicate]
    rw [← this]
    exact Nat.min_eq_left h4z
  rw [unmarshall_txid h, h4]
  rfl

/-- the bytes of a `txid` in the length field are a length that is far too great -/
theorem unmarshall_unclear {buf w : List UInt8} {r r' : LogRequest}
    (hb : buf.length = maxJournalEntrySize)
    (hl : (r.filler ++ w).length < maxJournalEntrySize)
    (hw : w.take (r.data.length - 400) = (intBytes r'.txid).take (r.data.length - 400))
    (hc : ¬ Clear r r') : unmarshallJournalEntry (fgetsBuffer buf (r.filler ++ w)) = none := by
  obtain ⟨hz, hz8⟩ := r.length_filler
  have hex : ∃ b ∈ (intBytes r'.txid).take (r.data.length - 400), b ≠ 0 := by
    by_contra h
    exact hc fun b hb => not_not.mp fun h0 => h ⟨b, hb, h0⟩
  obtain ⟨b, hbm, hb0⟩ := hex
  rw [← hw] at hbm
  obtain ⟨i, hib⟩ := List.mem_iff_getElem?.mp hbm
  have hi : i < r.data.length - 400 ∧ i < w.length := by
    have := (List.getElem?_eq_some_iff.mp hib).1
    rw [List.length_take] at this
    omega
  have hget : (fgetsBuffer buf (r.filler ++ w))[(r.filler.length + i - 4) + 4]? = some b := by
    have hk : r.filler.length + i - 4 + 4 = r.filler.length + i := by omega
    rw [fgetsBuffer, hk, List.append_assoc, List.getElem?_append_right (by omega),
      Nat.add_sub_cancel_left, List.getElem?_append_left hi.2]
    rwa [List.getElem?_take_of_lt hi.1] at hib
  have hzero : (fgetsBuffer buf (r.filler ++ w))[0 + 4]? = some 0 := by
    rw [fgetsBuffer, List.append_assoc, List.getElem?_append_left (by omega), LogRequest.filler,
      List.getElem?_replicate_of_lt]
    rw [LogRequest.filler, List.length_replicate] at hz8
    omega
  refine unmarshall_none (length_fgetsBuffer hb _ hl) (by omega) hget ?_ (by decide) hzero
    (by decide)
  have hpos : b.toNat ≠ 0 := fun h => hb0 (UInt8.toNat_inj.mp h)
  have hp : 256 ^ 4 ≤ 256 ^ (r.filler.length + i - 4) := Nat.pow_le_pow_right (by decide) (by omega)
  calc 422 ≤ 1 * 256 ^ 4 := by decide
    _ ≤ _ := Nat.mul_le_mul (by omega) hp

/-- the last bytes of an entry without newline read as a `txid` that has one, or as 1 -/
theorem strayTxid_newline : ∀ k ≤ 4, k = 4 ∧ strayTxid k = 1 ∨ 10 ∈ intBytes (strayTxid k) := by
  decide

/-- The scan ends in the entry at `pos`: nothing behind it is written over, nor, where neither 0 nor
1 is looked for, the field `valid` of an entry of `txid`. -/
structure EndsIn (file : List UInt8) (txid : BitVec 32) (r' : LogRequest) (pos : ℕ) (rc : Int)
    (f' : List UInt8) : Prop where
  rc : rc = 0
  behind : ∀ v, pos + 22 + r'.data.length ≤ v → f'[v]? = file[v]?
  valid : r'.txid = txid → ¬ (txid = 0 ∨ txid = 1) →
    f'[pos + 13 + r'.data.length]? = file[pos + 13 + r'.data.length]?

/-- an entry without newline behind the padding of `r`: passed over, or its last bytes read as the
`txid` looked for -/
theorem removeLoop_plain {file : List UInt8} {txid : BitVec 32} {r r' : LogRequest} (ht : r'.Text)
    {rc : Int} {f' pre buf more : List UInt8} {fuel : ℕ} (hb : Calm buf) (hp : r'.Plain)
    (hc : Clear r r') (h0 : txid ≠ 0) (hfile : file = pre ++ (r.filler ++ (r'.line ++ more)))
    (h : removeLoop file txid (fuel + 1) buf (r.filler ++ (r'.line ++ more)) = some (rc, f')) :
    (txid ≠ 0 ∧ ScansPast txid r r' ∧ ∃ fuel' buf', Calm buf' ∧
      removeLoop file txid fuel' buf' more = some (rc, f')) ∨
    EndsIn file txid r' (pre.length + r.filler.length) rc f' := by
  have hn' : r'.data.length ≤ 404 := r'.short
  have hup := r'.length_upTo
  have hflen : file.length
      = pre.length + r.filler.length + (22 + r'.data.length) + more.length := by
    rw [hfile]
    simp only [List.length_append, r'.length_line]
    omega
  have hform : r'.line ++ more = r'.upTo ++ 10 :: more := by simp [LogRequest.line]
  rw [hform] at h
  by_cases hshort : r'.data.length < r.data.length
  · obtain ⟨buf', hcalm, he⟩ := removeLoop_short file h0 hb.length hp hc hshort more fuel
    rw [he] at h
    exact Or.inl ⟨h0, ⟨hp, hc, by omega, fun _ => by omega⟩, _, _, hcalm, h⟩
  · obtain ⟨k, hk⟩ : ∃ k, r'.data.length = r.data.length + k :=
      ⟨r'.data.length - r.data.length, by omega⟩
    obtain ⟨buf', hlen, hhead, he⟩ := removeLoop_full file h0 hb.length hp hc (by omega) more fuel
    rw [he] at h
    cases fuel with
    | zero => cases h
    | succ fuel =>
      obtain ⟨tx, hu, hcase⟩ := removeLoop_cases (by simp) h
      by_cases h4 : k ≤ 4
      · -- the last bytes of the entry
        rw [r'.drop_upTo h4 hk] at h hu hcase
        have hsplit : (intBytes 1).drop (4 - k) ++ 10 :: more = stray k ++ more := by
          rw [stray, List.append_assoc]
          rfl
        obtain ⟨hcalm, tx', hu', htx⟩ := unmarshall_stray h4 hlen hhead
        rw [fgetsLine_stray, hu'] at hu
        cases hu
        rw [fgetsLine_stray, hsplit, List.drop_left] at hcase
        rcases hcase with ⟨hne, hgo⟩ | ⟨hid, rfl, hw⟩
        · refine Or.inl ⟨h0, ⟨hp, hc, by omega, fun _ => ?_⟩, _, _, hcalm, hgo⟩
          rw [hk, Nat.add_sub_cancel_left, ← htx]
          exact fun he => hne he.symm
        · right
          refine ⟨rfl, fun v hv => ?_, fun hr hno => ?_⟩
          · exact written_get hflen hw (Or.inr (by omega))
          · exfalso
            rcases strayTxid_newline k h4 with ⟨-, h1⟩ | h10
            · exact hno (Or.inr (by rw [← hid, htx, h1]))
            · refine hp ?_
              rw [LogRequest.body, List.mem_append, hr, ← hid, htx]
              exact Or.inl h10
      · -- a line that begins further in front
        have hdl : r'.line.drop (21 + r.data.length)
            = r'.upTo.drop (21 + r.data.length) ++ [10] := by
          rw [LogRequest.line, List.drop_append_of_le_length (by omega)]
        have hline : fgetsLine (r'.upTo.drop (21 + r.data.length) ++ 10 :: more)
            = r'.line.drop (21 + r.data.length) := by
          rw [hdl]
          refine fgetsLine_newline (fun hm => hp.upTo (List.mem_of_mem_drop hm)) ?_
          rw [List.length_drop, hup]
          show _ < 433
          omega
        rw [hline, unmarshall_inside ht hlen (by omega) (by omega)] at hu
        cases hu

/-- **What the scan does with an entry**: it passes over it, or it ends there. -/
theorem removeLoop_entry {file : List UInt8} {txid : BitVec 32} {r r' : LogRequest} (ht : r'.Text)
    {rc : Int} {f' pre buf more : List UInt8} {fuel : ℕ} (hb : Calm buf)
    (hfile : file = pre ++ (r.filler ++ (r'.line ++ more)))
    (h : removeLoop file txid fuel buf (r.filler ++ (r'.line ++ more)) = some (rc, f')) :
    (txid ≠ 0 ∧ ScansPast txid r r' ∧ ∃ fuel' buf', Calm buf' ∧
      removeLoop file txid fuel' buf' more = some (rc, f')) ∨
    EndsIn file txid r' (pre.length + r.filler.length) rc f' := by
  obtain ⟨o, ho1, ho, hline, hlt, hnot, hplain⟩ := fgetsLine_padded r r' more
  have hne : r.filler ++ (r'.line ++ more) ≠ [] := by simp [LogRequest.line]
  have hll : (r'.line.take o).length = o := by
    rw [List.length_take, r'.length_line]
    omega
  have hdrop : (r.filler ++ (r'.line ++ more)).drop (r.filler ++ r'.line.take o).length
      = r'.line.drop o ++ more := by
    have hsplit : r.filler ++ (r'.line ++ more)
        = (r.filler ++ r'.line.take o) ++ (r'.line.drop o ++ more) := by
      rw [List.append_assoc, ← List.append_assoc (r'.line.take o), List.take_append_drop]
    rw [hsplit, List.drop_left]
  cases fuel with
  | zero => cases h
  | succ fuel =>
    obtain ⟨tx, hu, hcase⟩ := removeLoop_cases hne h
    rw [hline] at hu
    have htx := unmarshall_padded hu
    rw [hline, hdrop, htx] at hcase
    have hflen : file.length = pre.length + r.filler.length + o + (r'.line.drop o ++ more).length
        := by
      rw [hfile, ← hdrop]
      simp only [List.length_append, List.length_drop, hll, r'.length_line]
      omega
    rcases hcase with ⟨h0, hgo⟩ | ⟨h0, rfl, hw⟩
    · have hblen := length_fgetsBuffer hb.length _ hlt
      have h0' : txid ≠ 0 := fun he => h0 he.symm
      by_cases hp : r'.Plain
      · have hmin := hplain hp
        by_cases hc : Clear r r'
        · exact removeLoop_plain ht hb hp hc h0' hfile h
        · have hw : (r'.line.take o).take (r.data.length - 400)
              = (intBytes r'.txid).take (r.data.length - 400) := by
            have hup := r'.length_upTo
            have hn : r.data.length ≤ 404 := r.short
            have hle : min (r.data.length - 400) o = r.data.length - 400 := by omega
            rw [List.take_take, hle, LogRequest.line, List.take_append_of_le_length (by omega),
              take_upTo r' (by omega)]
          rw [unmarshall_unclear hb.length hlt hw hc] at hu
          cases hu
      · right
        have hfile' : file = (pre ++ (r.filler ++ r'.line.take o)) ++ (r'.line.drop o ++ more) := by
          rw [hfile, List.append_assoc, List.append_assoc r.filler,
            ← List.append_assoc (r'.line.take o), List.take_append_drop]
        have hpre : (pre ++ (r.filler ++ r'.line.take o)).length
            = pre.length + r.filler.length + o := by
          rw [List.length_append, List.length_append, hll, Nat.add_assoc]
        obtain ⟨hrc, hv⟩ := removeLoop_inside ht fuel o _ _ (hnot hp) (Or.inl ho1) hblen hfile' hgo
        rw [hpre] at hv
        have := hnot hp
        exact ⟨hrc, fun v hpv => hv v (by omega), fun _ _ => hv _ (by omega)⟩
    · -- the padding reads as the `txid` looked for
      right
      refine ⟨rfl, fun v hv => ?_, fun _ hno => absurd (Or.inl h0.symm) hno⟩
      exact written_get hflen hw (Or.inr (by omega))

/-! ## all entries -/

theorem logBytes_line (r : LogRequest) (rs : List LogRequest) :
    logBytes (r :: rs) = r.line ++ (r.filler ++ logBytes rs) := by
  rw [logBytes_cons, LogRequest.line, List.append_assoc]
  rfl

theorem length_logBytes_cons (r : LogRequest) (rs : List LogRequest) :
    (logBytes (r :: rs)).length = r.line.length + r.filler.length + (logBytes rs).length := by
  rw [logBytes_line, List.length_append, List.length_append, Nat.add_assoc]

/-- **Behind the first entry** nothing is reported missing unless every entry is passed over, and
the field `valid` of an entry of `txid` is not written over. -/
theorem removeLoop_tail {file : List UInt8} {txid : BitVec 32} {rc : Int} {f' : List UInt8} :
    ∀ (rest : List LogRequest) (r : LogRequest) (fuel : ℕ) (pre buf : List UInt8),
      (∀ r' ∈ rest, r'.Text) → (txid = 0 ∨ txid = 1 → ∀ r' ∈ rest, r'.txid ≠ txid) →
      Calm buf → file = pre ++ (r.filler ++ logBytes rest) →
      removeLoop file txid fuel buf (r.filler ++ logBytes rest) = some (rc, f') →
      (rc = -1 → txid ≠ 0 ∧ ScansAll txid r rest) ∧
      ∀ as t bs, rest = as ++ t :: bs → t.txid = txid →
        f'[pre.length + r.filler.length + (logBytes as).length + 13 + t.data.length]?
          = file[pre.length + r.filler.length + (logBytes as).length + 13 + t.data.length]? := by
  intro rest
  induction rest with
  | nil =>
    intro r fuel pre buf _ _ _ _ h
    refine ⟨fun hrc => ⟨?_, trivial⟩, fun as t bs hnil => ?_⟩
    · obtain ⟨hz, hz8⟩ := r.length_filler
      have hnil : r.filler ++ logBytes [] = r.filler ++ [] := rfl
      have hne : r.filler ++ [] ≠ [] := by
        rw [List.append_nil]
        exact List.ne_nil_of_length_pos (by omega)
      have hline : fgetsLine (r.filler ++ []) = r.filler ++ [] := by
        rw [List.append_nil]
        refine fgetsLine_full (List.take_of_length_le ?_) r.newline_notMem_filler
        show _ ≤ 433
        omega
      rw [hnil] at h
      cases fuel with
      | zero => cases h
      | succ fuel =>
        obtain ⟨tx, hu, ⟨h0, -⟩ | ⟨-, h0, -⟩⟩ := removeLoop_cases hne h
        · rw [hline] at hu
          rw [unmarshall_padded hu] at h0
          exact h0.symm
        · omega
    · exact absurd hnil (by simp)
  | cons r' rest ih =>
    intro r fuel pre buf htext hzero hb hfile h
    have hll := r'.length_line
    rw [logBytes_line] at hfile h
    rcases removeLoop_entry (htext r' List.mem_cons_self) hb hfile h with
      ⟨h0, hpast, fuel', buf', hcalm, hgo⟩ | ⟨hrc, hbehind, hvalid⟩
    · have hfile' : file = (pre ++ (r.filler ++ r'.line)) ++ (r'.filler ++ logBytes rest) := by
        rw [hfile]
        simp only [List.append_assoc]
      have hpre : (pre ++ (r.filler ++ r'.line)).length
          = pre.length + r.filler.length + r'.line.length := by
        rw [List.length_append, List.length_append, Nat.add_assoc]
      obtain ⟨hall, hkeep⟩ := ih r' fuel' _ buf' (fun x hx => htext x (List.mem_cons_of_mem _ hx))
        (fun h01 x hx => hzero h01 x (List.mem_cons_of_mem _ hx)) hcalm hfile' hgo
      refine ⟨fun hm => ⟨h0, hpast, (hall hm).2⟩, fun as t bs heq ht => ?_⟩
      cases as with
      | nil =>
        obtain ⟨rfl, rfl⟩ := List.cons.inj heq
        refine removeLoop_before fuel' _ _ buf' hfile' hgo _ ?_
        rw [hpre, hll]
        show pre.length + r.filler.length + 0 + 13 + r'.data.length + 9 ≤ _
        omega
      | cons a as =>
        obtain ⟨rfl, rfl⟩ := List.cons.inj heq
        have := hkeep as t bs rfl ht
        rw [hpre] at this
        rw [length_logBytes_cons]
        have hpos : pre.length + r.filler.length
              + (r'.line.length + r'.filler.length + (logBytes as).length) + 13 + t.data.length
            = pre.length + r.filler.length + r'.line.length + r'.filler.length
              + (logBytes as).length + 13 + t.data.length := by omega
        rw [hpos]
        exact this
    · refine ⟨fun hm => ?_, fun as t bs heq ht => ?_⟩
      · rw [hrc] at hm
        cases hm
      · cases as with
        | nil =>
          obtain ⟨rfl, rfl⟩ := List.cons.inj heq
          exact hvalid ht fun h01 => hzero h01 r' List.mem_cons_self ht
        | cons a as =>
          obtain ⟨rfl, rfl⟩ := List.cons.inj heq
          refine hbehind _ ?_
          rw [length_logBytes_cons]
          omega

/-- the field `valid` of an entry of `txid`, before and behind -/
theorem valid_get (txid : BitVec 32) (as bs : List LogRequest) (t : LogRequest)
    (ht : t.txid = txid) :
    (logBytes (as ++ t :: bs))[(logBytes as).length + 13 + t.data.length]? = some 1 ∧
      (invalidate txid (as ++ t :: bs))[(logBytes as).length + 13 + t.data.length]? = some 0 := by
  have hfield : ∀ (v : BitVec 32) (front back : List UInt8),
      front.length = (logBytes as).length → (front ++ (t.entryWith v ++ back))[
        (logBytes as).length + 13 + t.data.length]? = (intBytes v)[0]? := by
    intro v front back hf
    have hwith : t.entryWith v ++ back
        = (t.body ++ [0]) ++ (intBytes v ++ (intBytes 1 ++ 10 :: (t.filler ++ back))) := by
      simp [LogRequest.entryWith, LogRequest.body, LogRequest.filler]
    have hbody : (t.body ++ [0]).length = 13 + t.data.length := by
      rw [List.length_append, t.length_body, List.length_singleton]
      omega
    rw [hwith, List.getElem?_append_right (by omega), List.getElem?_append_right (by omega), hbody,
      hf, List.getElem?_append_left]
    · congr 1
      omega
    · rw [length_intBytes]
      show _ < 4
      omega
  have hsplit : logBytes (as ++ t :: bs) = logBytes as ++ (t.entryWith 1 ++ logBytes bs) := by
    simp only [logBytes, List.map_append, List.map_cons, List.flatten_append, List.flatten_cons]
    rfl
  have hsplit' : invalidate txid (as ++ t :: bs)
      = invalidate txid as ++ (t.entryWith 0 ++ invalidate txid bs) := by
    simp [invalidate, ht]
  have hlen : (invalidate txid as).length = (logBytes as).length := by
    simp only [invalidate, logBytes, List.length_flatten, List.map_map]
    congr 1
    refine List.map_congr_left fun r _ => ?_
    show (r.entryWith _).length = (r.entryWith 1).length
    rw [r.length_entryWith, r.length_entryWith]
  rw [hsplit, hsplit', hfield 1 _ _ rfl, hfield 0 _ _ hlen]
  exact ⟨rfl, rfl⟩

/-! ## what is removed -/

theorem removesOne_of_removable {rs : List LogRequest} {txid : BitVec 32}
    (hd : (rs.map LogRequest.txid).Nodup) (h : Removable txid rs) : RemovesOne rs txid := by
  refine ⟨logBytes rs, logAll_eq [] rs, removeTransaction_of_removable hd h, invalidate_absent,
    recoverLoop_invalidate txid rs⟩

/-- The data holds no byte 255, and neither 0 nor 1, which padding and the last bytes of an entry
read as, is looked for behind the first entry. -/
structure Telling (txid : BitVec 32) (rs : List LogRequest) : Prop where
  text : ∀ r ∈ rs, r.Text
  other : txid = 0 ∨ txid = 1 → ∀ r ∈ rs.tail, r.txid ≠ txid

theorem removeTransaction_of_removesOne {rs : List LogRequest} {txid : BitVec 32}
    (h : RemovesOne rs txid) : removeTransaction (logBytes rs) txid
      = some (if ∃ r ∈ rs, r.txid = txid then 0 else -1, invalidate txid rs) := by
  obtain ⟨file, hlog, hrun, -, -⟩ := h
  have hfile : file = logBytes rs := by
    have := logAll_eq [] rs
    rw [hlog] at this
    exact Option.some.inj this
  rw [hfile] at hrun
  exact hrun

/-- an entry of `txid` is written over -/
theorem invalidate_ne (as bs : List LogRequest) {t : LogRequest} {txid : BitVec 32}
    (hid : t.txid = txid) :
    (invalidate txid (as ++ t :: bs))[(logBytes as).length + 13 + t.data.length]?
      ≠ (logBytes (as ++ t :: bs))[(logBytes as).length + 13 + t.data.length]? := by
  obtain ⟨h1, h0⟩ := valid_get txid as bs t hid
  rw [h1, h0]
  decide

/-- no newline in front of the first entry's delimiter -/
theorem plain_of_removesOne {r : LogRequest} {rest : List LogRequest} {txid : BitVec 32}
    (ht : r.Text) (h : RemovesOne (r :: rest) txid) : r.Plain := by
  by_contra hp
  have hrun := removeTransaction_of_removesOne h
  unfold removeTransaction at hrun
  have hform : logBytes (r :: rest) = r.line.drop 0 ++ (r.filler ++ logBytes rest) :=
    logBytes_line r rest
  have hll := r.length_line
  conv at hrun => lhs; arg 5; rw [hform]
  obtain ⟨hrc, hkeep⟩ := removeLoop_inside ht _ 0 [] _ (Nat.zero_le _) (Or.inr hp)
    List.length_replicate hform hrun
  have hex : ∃ r' ∈ r :: rest, r'.txid = txid := by
    by_contra hno
    rw [if_neg hno] at hrc
    cases hrc
  obtain ⟨t, hmem, hid⟩ := hex
  obtain ⟨as, bs, heq⟩ := List.append_of_mem hmem
  have hne := invalidate_ne as bs hid
  rw [← heq] at hne
  refine hne (hkeep _ ?_)
  cases as with
  | nil =>
    obtain ⟨rfl, rfl⟩ := List.cons.inj heq
    show 0 + (12 + r.data.length - 0) ≤ 0 + 13 + r.data.length
    omega
  | cons a as =>
    obtain ⟨rfl, rfl⟩ := List.cons.inj heq
    rw [length_logBytes_cons, List.length_nil]
    omega

theorem removable_of_removesOne {rs : List LogRequest} {txid : BitVec 32} (ht : Telling txid rs)
    (h : RemovesOne rs txid) : Removable txid rs := by
  cases rs with
  | nil => trivial
  | cons r rest =>
    have hplain := plain_of_removesOne (ht.text r List.mem_cons_self) h
    refine ⟨hplain, ?_⟩
    by_cases hr : r.txid = txid
    · exact Or.inl hr
    · right
      have hrun := removeTransaction_of_removesOne h
      unfold removeTransaction at hrun
      rw [logBytes_cons r rest, removeLoop_other hplain hr, ← logBytes_cons] at hrun
      obtain ⟨hall, hkeep⟩ := removeLoop_tail rest r _ r.line r.entryBytes
        (fun x hx => ht.text x (List.mem_cons_of_mem _ hx)) ht.other (calm_entryBytes r)
        (logBytes_line r rest) hrun
      have habsent : ∀ r' ∈ rest, r'.txid ≠ txid := by
        intro t hmem hid
        obtain ⟨as, bs, heq⟩ := List.append_of_mem hmem
        have hne := invalidate_ne (r :: as) bs hid
        rw [List.cons_append, ← heq, length_logBytes_cons] at hne
        exact hne (hkeep as t bs heq hid)
      have hno : ¬ ∃ r' ∈ r :: rest, r'.txid = txid := by
        intro hex
        obtain ⟨r', hr', he⟩ := hex
        rcases List.mem_cons.mp hr' with rfl | hr'
        · exact hr he
        · exact habsent r' hr' he
      obtain ⟨h0, hscan⟩ := hall (if_neg hno)
      exact ⟨h0, habsent, hscan⟩

/-- **When an entry is removed.**  Of a log whose requests have different `txid`s the entry of
`txid` is marked invalid, and nothing else, if and only if the log is `Removable`: no newline is in
front of the first entry's delimiter, and the first entry is the one looked for, or none is and
every other one is passed over.  That it is enough holds of all logs, that it has to be so where
what the misread lines hold tells them from entries. -/
theorem removesOne_iff {rs : List LogRequest} (hd : (rs.map LogRequest.txid).Nodup)
    (txid : BitVec 32) : (Removable txid rs → RemovesOne rs txid) ∧
      (Telling txid rs → (RemovesOne rs txid ↔ Removable txid rs)) :=
  ⟨removesOne_of_removable hd,
    fun ht => ⟨removable_of_removesOne ht, removesOne_of_removable hd⟩⟩

/-- the log entries of `PUT a 1`, `INSERT b 22` and `DELETE a` -/
def threeRequests : List LogRequest :=
  [⟨1, [80, 85, 84, 32, 97, 32, 49], by decide, by decide, by simp⟩,
    ⟨2, [73, 78, 83, 69, 82, 84, 32, 98, 32, 50, 50], by decide, by decide, by simp⟩,
    ⟨3, [68, 69, 76, 69, 84, 69, 32, 97], by decide, by decide, by simp⟩]

/-- The first of three entries is marked, and a `txid` that none has marks none; that of the last is
not `Removable`. -/
theorem removesOne_first : RemovesOne threeRequests 1 ∧ RemovesOne threeRequests 9 ∧
    ¬ RemovesOne threeRequests 3 := by
  have hd : (threeRequests.map LogRequest.txid).Nodup := by decide
  have htell : Telling 3 threeRequests := ⟨by decide, fun h => absurd h (by decide)⟩
  refine ⟨(removesOne_iff hd 1).1 ⟨by decide, Or.inl rfl⟩, (removesOne_iff hd 9).1 ?_, ?_⟩
  · refine ⟨by decide, Or.inr ⟨by decide, by decide, ?_, ?_, trivial⟩⟩
    · exact ⟨by decide, by simp [Clear], by decide, fun _ => by decide⟩
    · exact ⟨by decide, by simp [Clear], by decide, fun h => absurd h (by decide)⟩
  · rw [(removesOne_iff hd 3).2 htell]
    rintro ⟨-, h | ⟨-, habsent, -⟩⟩
    · exact absurd h (by decide)
    · exact absurd habsent (by decide)

/-- the log entries of `PUT x` and `PUT y` -/
def putTwice : List LogRequest :=
  [⟨1, [80, 85, 84, 32, 120], by decide, by decide, by simp⟩,
    ⟨2, [80, 85, 84, 32, 121], by decide, by decide, by simp⟩]

/-- the second entry is not found -/
theorem remove_misses_entry : (putTwice.map LogRequest.txid).Nodup ∧
    removeTransaction (logBytes putTwice) 2 = some (-1, logBytes putTwice) ∧
    ¬ RemovesOne putTwice 2 := by
  have hrun : removeTransaction (logBytes putTwice) 2 = some (-1, logBytes putTwice) := by
    decide +kernel
  refine ⟨by decide, hrun, fun h => ?_⟩
  have hgone := removeTransaction_of_removesOne h
  rw [hrun, if_pos (by decide)] at hgone
  cases congrArg Prod.fst (Option.some.inj hgone)

end LsmKv
