import LsmKv.Journal.Bytes

/-!
# `remove_transaction` on the bytes of `tx_log`

The entries are records of one size, but `remove_transaction` reads them with `fgets`.

* `fgetsLine`, `fgetsBuffer`   the line `fgets` takes, and the buffer behind it;
* `removeTransaction`          the scan and the write that marks an entry invalid;
* `removeLoop_first`           the first entry is found where no newline is in front of its
                               delimiter;
* `removeLoop_scan`            behind it every line begins with the padding of an entry, and no
                               `txid` but 0 is read there; what else is read are the last bytes of
                               an entry that is a little longer than the one before it (`stray`);
* `removeTransaction_of_removable`   what that is enough for.
-/

namespace LsmKv

open FixedRecords

/-- what `fgets` takes of the rest of a file -/
def fgetsLine (rest : List UInt8) : List UInt8 :=
  let line := rest.take (maxJournalEntrySize - 1)
  line.take (line.idxOf 10 + 1)

/-- the buffer after `fgets`: a terminator behind the line, and the old bytes behind it -/
def fgetsBuffer (tmpEntry line : List UInt8) : List UInt8 :=
  line ++ 0 :: tmpEntry.drop (line.length + 1)

/-- `fwrite` at a position inside the file -/
def fwriteAt (file : List UInt8) (pos : ℕ) (bytes : List UInt8) : List UInt8 :=
  file.take pos ++ bytes ++ file.drop (pos + bytes.length)

/-- The loop of `remove_transaction`: the value returned and the file.  Where the position is too
small to seek back from, the write behind the read is undefined. -/
def removeLoop (file : List UInt8) (txid : BitVec 32) :
    ℕ → List UInt8 → List UInt8 → Option (Int × List UInt8)
  | 0, _, _ => none
  | fuel + 1, tmpEntry, rest =>
    if rest = [] then some (-1, file)
    else
      let line := fgetsLine rest
      let tmpEntry := fgetsBuffer tmpEntry line
      let rest := rest.drop line.length
      (unmarshallJournalEntry tmpEntry).bind fun tx =>
        if tx.txid = txid then
          if tx.valid = 0 then some (0, file)
          else
            let offset := sizeofInt + sizeofInt + 1
            let pos := file.length - rest.length
            if pos < offset then none
            else some (0, fwriteAt file (pos - offset) (intBytes 0))
        else removeLoop file txid fuel tmpEntry rest

/-- Every line but none takes a byte of the file. -/
def removeTransaction (file : List UInt8) (txid : BitVec 32) : Option (Int × List UInt8) :=
  removeLoop file txid (file.length + 1) (List.replicate maxJournalEntrySize 0) file

/-! ## lines -/

theorem fgetsLine_newline {l rest : List UInt8} (h : 10 ∉ l)
    (hl : l.length < maxJournalEntrySize - 1) : fgetsLine (l ++ 10 :: rest) = l ++ [10] := by
  obtain ⟨m, hm⟩ : ∃ m, maxJournalEntrySize - 1 - l.length = m + 1 :=
    ⟨maxJournalEntrySize - 1 - l.length - 1, by omega⟩
  have htake : (l ++ 10 :: rest).take (maxJournalEntrySize - 1) = l ++ 10 :: rest.take m := by
    rw [List.take_append, List.take_of_length_le hl.le, hm, List.take_succ_cons]
  have hidx : (l ++ 10 :: rest.take m).idxOf 10 = l.length := by
    rw [List.idxOf_append_of_notMem h, List.idxOf_cons_self, Nat.add_zero]
  rw [fgetsLine, htake]
  simp only [hidx]
  rw [List.take_append, List.take_of_length_le (by omega), Nat.add_sub_cancel_left]
  rfl

theorem fgetsLine_full {rest l : List UInt8} (hr : rest.take (maxJournalEntrySize - 1) = l)
    (h : 10 ∉ l) : fgetsLine rest = l := by
  rw [fgetsLine, hr]
  simp only [List.idxOf_eq_length h]
  exact List.take_of_length_le (by omega)

theorem length_fgetsBuffer {tmpEntry : List UInt8} (h : tmpEntry.length = maxJournalEntrySize)
    (line : List UInt8) (hl : line.length < maxJournalEntrySize) :
    (fgetsBuffer tmpEntry line).length = maxJournalEntrySize := by
  rw [fgetsBuffer, List.length_append, List.length_cons, List.length_drop]
  omega

/-! ## the parts of an entry -/

namespace LogRequest

/-- what stands in front of the terminator of the data -/
def body (r : LogRequest) : List UInt8 :=
  intBytes r.txid ++ (sizeBytes (BitVec.ofNat 64 r.data.length) ++ r.data)

/-- what stands in front of the delimiter -/
def upTo (r : LogRequest) : List UInt8 := r.body ++ (0 :: (intBytes 1 ++ intBytes 1))

/-- the padding behind the delimiter -/
def filler (r : LogRequest) : List UInt8 := List.replicate (maxEntrySize + 8 - r.data.length) 0

/-- No byte in front of the delimiter is a newline. -/
def Plain (r : LogRequest) : Prop := 10 ∉ r.body

instance (r : LogRequest) : Decidable r.Plain := inferInstanceAs (Decidable (10 ∉ r.body))

theorem entryBytes_eq (r : LogRequest) : r.entryBytes = r.upTo ++ 10 :: r.filler := by
  simp [entryBytes, upTo, body, filler]

theorem length_body (r : LogRequest) : r.body.length = 12 + r.data.length := by
  simp [body, sizeofInt, sizeofSizeT]
  omega

theorem length_upTo (r : LogRequest) : r.upTo.length = 21 + r.data.length := by
  simp [upTo, length_body, sizeofInt]
  omega

theorem Plain.upTo {r : LogRequest} (h : r.Plain) : 10 ∉ r.upTo := by
  have hone : (10 : UInt8) ∉ (0 :: (intBytes 1 ++ intBytes 1) : List UInt8) := by decide
  rw [LogRequest.upTo, List.mem_append]
  exact not_or.mpr ⟨h, hone⟩

end LogRequest

/-- the bytes of a log -/
def logBytes (rs : List LogRequest) : List UInt8 := (rs.map LogRequest.entryBytes).flatten

/-- the log with the entries of `txid` marked invalid -/
def invalidate (txid : BitVec 32) (rs : List LogRequest) : List UInt8 :=
  (rs.map fun r => r.entryWith (if r.txid = txid then 0 else 1)).flatten

theorem invalidate_absent {txid : BitVec 32} {rs : List LogRequest}
    (h : ∀ r ∈ rs, r.txid ≠ txid) : invalidate txid rs = logBytes rs := by
  unfold invalidate logBytes
  congr 1
  refine List.map_congr_left fun r hr => ?_
  rw [if_neg (h r hr)]
  rfl

/-- the transaction that a request is replayed as -/
def LogRequest.toTransaction (valid : BitVec 32) (r : LogRequest) : Transaction :=
  ⟨r.txid.toInt, r.data.map fun b => Char.ofNat b.toNat, valid.toInt, 1⟩

/-- **A recovery replays what is not marked invalid.** -/
theorem recoverLoop_invalidate (txid : BitVec 32) (rs : List LogRequest) (s : Store) :
    recoverLoop s (invalidate txid rs)
      = ((rs.filter fun r => r.txid ≠ txid).map (LogRequest.toTransaction 1)).foldlM
          replayEntry s := by
  have hall : unmarshalAll (invalidate txid rs) = some (rs.map fun r =>
      { r.unmarshalled with valid := if r.txid = txid then 0 else 1 }) := by
    have h : readAll maxJournalEntrySize unmarshallJournalEntry
        ((invalidate txid rs).take (maxJournalEntrySize * rs.length))
          = some ((rs.take (maxJournalEntrySize * rs.length / maxJournalEntrySize)).map fun r =>
              { r.unmarshalled with valid := if r.txid = txid then 0 else 1 }) :=
      readAll_take (by decide) rs (fun r _ => r.length_entryWith _)
        (fun r _ => unmarshall_entryWith _ r) _
    have hlen : (invalidate txid rs).length = maxJournalEntrySize * rs.length := by
      have hrec : ∀ y ∈ rs.map fun r => r.entryWith (if r.txid = txid then 0 else 1),
          y.length = maxJournalEntrySize := by
        intro y hy
        obtain ⟨r, -, rfl⟩ := List.mem_map.mp hy
        exact r.length_entryWith _
      have := length_flatten_records hrec
      rwa [List.length_map] at this
    rw [Nat.mul_div_cancel_left _ (by decide), List.take_length, ← hlen] at h
    rw [unmarshalAll, ← h, List.take_length]
  rw [recoverLoop_eq _ s hall, List.map_map]
  clear hall
  induction rs generalizing s with
  | nil => rfl
  | cons r rs ih =>
    have hstr : cString (r.data ++ [0]) = r.data := cString_unmarshalled r
    rw [List.map_cons, List.foldlM_cons, List.filter_cons]
    by_cases hr : r.txid = txid
    · have hskip : replayEntry s ((TransactionMem.toTransaction ∘ fun r =>
          { r.unmarshalled with valid := if r.txid = txid then 0 else 1 }) r) = some s := by
        simp [replayEntry, TransactionMem.toTransaction, hr]
      rw [hskip, if_neg (by simp [hr])]
      exact ih s
    · have htx : (TransactionMem.toTransaction ∘ fun r =>
          { r.unmarshalled with valid := if r.txid = txid then 0 else 1 }) r
            = r.toTransaction 1 := by
        simp [TransactionMem.toTransaction, hr, LogRequest.toTransaction, LogRequest.unmarshalled,
          hstr]
      rw [htx, if_pos (by simpa using hr), List.map_cons, List.foldlM_cons]
      exact congrArg _ (funext ih)

/-! ## the buffers behind the first entry -/

/-- The length read from a buffer is small, so that nothing outside it is read. -/
theorem unmarshall_of_head {buf head : List UInt8} (h : buf.length = maxJournalEntrySize)
    (hh : buf.take 12 = head) (hs : leVal (head.drop sizeofInt) ≤ maxEntrySize) :
    ∃ tx, unmarshallJournalEntry buf = some tx ∧
      tx.txid = BitVec.ofNat 32 (leVal (head.take sizeofInt)) := by
  have h1 : slice buf 0 sizeofInt = some (head.take sizeofInt) := by
    rw [slice, if_pos (by rw [h]; decide), ← hh, List.take_take]
    rfl
  have h2 : slice buf sizeofInt sizeofSizeT = some (head.drop sizeofInt) := by
    rw [slice, if_pos (by rw [h]; decide), ← hh, List.drop_take]
    rfl
  obtain ⟨n, hn⟩ : ∃ n, leVal (head.drop sizeofInt) = n := ⟨_, rfl⟩
  rw [hn] at hs
  have hs' : n ≤ 404 := hs
  have hlen : (BitVec.ofNat 64 n + 1).toNat = n + 1 := by
    simp only [BitVec.toNat_add, BitVec.toNat_ofNat, BitVec.ofNat_eq_ofNat]
    omega
  have hin : ∀ pos m, pos + m ≤ 434 → slice buf pos m = some ((buf.drop pos).take m) := by
    intro pos m hp
    rw [slice, if_pos]
    rw [h]
    exact hp
  unfold unmarshallJournalEntry
  simp only [h1, h2, hn, hlen, Option.bind_eq_bind, Option.bind_some]
  rw [hin _ _ (by simp only [sizeofInt, sizeofSizeT]; omega),
    hin _ _ (by simp only [sizeofInt, sizeofSizeT]; omega),
    hin _ _ (by simp only [sizeofInt, sizeofSizeT]; omega)]
  exact ⟨_, rfl, rfl⟩

/-- a line that belongs to another transaction is passed over -/
theorem removeLoop_pass {file tmpEntry rest line : List UInt8} {txid : BitVec 32} {fuel : ℕ}
    {tx : TransactionMem} (hr : rest ≠ []) (hl : fgetsLine rest = line)
    (hu : unmarshallJournalEntry (fgetsBuffer tmpEntry line) = some tx) (hne : tx.txid ≠ txid) :
    removeLoop file txid (fuel + 1) tmpEntry rest
      = removeLoop file txid fuel (fgetsBuffer tmpEntry line) (rest.drop line.length) := by
  rw [removeLoop, if_neg hr]
  simp only [hl, hu, Option.bind_some, if_neg hne]

/-- The bytes 6 to 11 of the buffer are 0. -/
structure Calm (buf : List UInt8) : Prop where
  length : buf.length = maxJournalEntrySize
  zero : (buf.take 12).drop 6 = List.replicate 6 0

theorem Calm.of_head {buf head : List UInt8} (h : buf.length = maxJournalEntrySize)
    (hh : buf.take 12 = head) (hz : head.drop 6 = List.replicate 6 0) : Calm buf :=
  ⟨h, by rw [hh, hz]⟩

/-- how many bytes of padding an entry has -/
theorem LogRequest.length_filler (r : LogRequest) :
    r.filler.length + r.data.length = 412 ∧ 8 ≤ r.filler.length := by
  have h : r.data.length ≤ 404 := r.short
  have hm : maxEntrySize + 8 = 412 := rfl
  rw [filler, List.length_replicate, hm]
  omega

theorem LogRequest.newline_notMem_filler (r : LogRequest) : 10 ∉ r.filler := by
  intro h
  exact absurd (List.eq_of_mem_replicate h) (by decide)

/-- behind the padding of the last entry: its zeros, and zeros of the buffer -/
theorem head_filler_last {buf : List UInt8} (hb : Calm buf) (r : LogRequest) :
    (fgetsBuffer buf r.filler).take 12 = List.replicate 12 0 := by
  obtain ⟨hz, hz8⟩ := r.length_filler
  obtain ⟨z, hzl⟩ : ∃ z, r.filler.length = z := ⟨_, rfl⟩
  have hfill : r.filler = List.replicate z 0 := by
    rw [← hzl, LogRequest.filler, List.length_replicate]
  rw [hzl] at hz hz8
  rw [fgetsBuffer, hzl, hfill]
  by_cases h12 : 12 ≤ z
  · rw [List.take_append_of_le_length (by simpa using h12), List.take_replicate]
    congr 1
    omega
  · have hold : (buf.drop (z + 1)).take (11 - z) = List.replicate (11 - z) 0 := by
      have h6 : z + 1 = 6 + (z - 5) := by omega
      have h11 : 11 - z = 12 - (z + 1) := by omega
      rw [h11, ← List.drop_take, h6, ← List.drop_drop, hb.zero, List.drop_replicate]
      congr 1
      omega
    have hsucc : 12 - z = (11 - z) + 1 := by omega
    rw [List.take_append, List.take_of_length_le (by simp; omega), List.length_replicate, hsucc,
      List.take_succ_cons, hold, ← List.replicate_succ, List.replicate_append_replicate]
    congr 1
    omega

/-- behind the padding of an entry with another one behind it: its zeros, and bytes of a `txid` -/
theorem head_filler_next (buf : List UInt8) (r : LogRequest) (next : List UInt8)
    (hn : r.data.length - 400 ≤ next.length)
    (h0 : ∀ b ∈ next.take (r.data.length - 400), b = 0) :
    (fgetsBuffer buf (r.filler ++ next)).take 12 = List.replicate 12 0 := by
  obtain ⟨hz, hz8⟩ := r.length_filler
  have hk : 12 - r.filler.length = r.data.length - 400 := by omega
  rw [fgetsBuffer, List.take_append_of_le_length (by rw [List.length_append]; omega),
    List.take_append, hk, List.eq_replicate_iff]
  refine ⟨?_, fun b hb => ?_⟩
  · rw [List.length_append, List.length_take, List.length_take]
    omega
  · rcases List.mem_append.mp hb with hb | hb
    · exact List.eq_of_mem_replicate (List.mem_of_mem_take hb)
    · exact h0 b hb

/-- the last `k` bytes in front of a delimiter, and the delimiter -/
def stray (k : ℕ) : List UInt8 := (intBytes 1).drop (4 - k) ++ [10]

/-- the `txid` that is read of them -/
def strayTxid (k : ℕ) : BitVec 32 :=
  BitVec.ofNat 32 (leVal ((stray k ++ List.replicate 3 0).take sizeofInt))

theorem head_stray {buf : List UInt8} (hb : buf.take 12 = List.replicate 12 0) :
    ∀ k ≤ 4, (fgetsBuffer buf (stray k)).take 12 = stray k ++ List.replicate (11 - k) 0 := by
  intro k hk
  have hlen : (stray k).length = k + 1 := by
    rw [stray, List.length_append, List.length_drop, length_intBytes]
    simp only [sizeofInt, List.length_singleton]
    omega
  have hold : (buf.drop (k + 1 + 1)).take (10 - k) = List.replicate (10 - k) 0 := by
    have h10 : 10 - k = 12 - (k + 1 + 1) := by omega
    rw [h10, ← List.drop_take, hb, List.drop_replicate]
  have hsucc : 12 - (k + 1) = (10 - k) + 1 := by omega
  have hsucc' : 11 - k = (10 - k) + 1 := by omega
  rw [fgetsBuffer, hlen, List.take_append, List.take_of_length_le (by omega), hlen, hsucc,
    List.take_succ_cons, hold, hsucc', List.replicate_succ]

/-- what a buffer with these bytes is unmarshalled to -/
theorem stray_head : ∀ k ≤ 4,
    leVal ((stray k ++ List.replicate (11 - k) 0).drop sizeofInt) ≤ maxEntrySize ∧
      BitVec.ofNat 32 (leVal ((stray k ++ List.replicate (11 - k) 0).take sizeofInt))
        = strayTxid k ∧
      (stray k ++ List.replicate (11 - k) 0).drop 6 = List.replicate 6 0 := by
  decide

/-! ## the scan -/

theorem logBytes_cons (r : LogRequest) (rs : List LogRequest) :
    logBytes (r :: rs) = r.upTo ++ 10 :: (r.filler ++ logBytes rs) := by
  rw [logBytes, List.map_cons, List.flatten_cons, LogRequest.entryBytes_eq, List.append_assoc]
  rfl

/-- the last bytes in front of the delimiter -/
theorem LogRequest.drop_upTo (r : LogRequest) {n k : ℕ} (hk : k ≤ 4)
    (hn : r.data.length = n + k) : r.upTo.drop (21 + n) = (intBytes 1).drop (4 - k) := by
  have h : r.upTo = (r.body ++ (0 :: intBytes 1)) ++ intBytes 1 := by simp [upTo]
  have hlen : (r.body ++ (0 :: intBytes 1)).length = 17 + n + k := by
    rw [List.length_append, length_body, List.length_cons, length_intBytes, hn]
    simp only [sizeofInt]
    omega
  rw [h, List.drop_append, hlen, List.drop_eq_nil_of_le (by omega), List.nil_append]
  congr 1
  omega

/-- the bytes of the `txid` of an entry that the padding of `r` leaves in the length field are 0 -/
def Clear (r r' : LogRequest) : Prop :=
  ∀ b ∈ (intBytes r'.txid).take (r.data.length - 400), b = 0

theorem txid_of_zeros : BitVec.ofNat 32 (leVal ((List.replicate 12 (0 : UInt8)).take sizeofInt))
    = 0 ∧ leVal ((List.replicate 12 (0 : UInt8)).drop sizeofInt) ≤ maxEntrySize := by decide

theorem LogRequest.newline_notMem_filler_upTo {r r' : LogRequest} (h : r'.Plain) :
    10 ∉ r.filler ++ r'.upTo := by
  rw [List.mem_append]
  exact not_or.mpr ⟨r.newline_notMem_filler, h.upTo⟩

/-- the bytes of the next `txid` come first behind the padding -/
theorem take_upTo (r : LogRequest) {n : ℕ} (hn : n ≤ 4) :
    r.upTo.take n = (intBytes r.txid).take n := by
  rw [LogRequest.upTo, LogRequest.body, List.append_assoc, List.take_append_of_le_length]
  rw [length_intBytes]
  exact hn

section steps
variable (file : List UInt8) {buf : List UInt8} {txid : BitVec 32} {r r' : LogRequest}

/-- the padding and a shorter entry are one line -/
theorem removeLoop_short (h0 : txid ≠ 0) (hb : buf.length = maxJournalEntrySize) (hp : r'.Plain)
    (hc : Clear r r') (hshort : r'.data.length < r.data.length) (more : List UInt8) (fuel : ℕ) :
    ∃ buf', Calm buf' ∧
      removeLoop file txid (fuel + 1) buf (r.filler ++ (r'.upTo ++ 10 :: more))
        = removeLoop file txid fuel buf' more := by
  obtain ⟨hz, hz8⟩ := r.length_filler
  have hup := r'.length_upTo
  have hn : r.data.length ≤ 404 := r.short
  have hline : fgetsLine (r.filler ++ (r'.upTo ++ 10 :: more)) = r.filler ++ (r'.upTo ++ [10]) := by
    rw [← List.append_assoc, fgetsLine_newline (r.newline_notMem_filler_upTo hp), List.append_assoc]
    rw [List.length_append, hup]
    show _ < 433
    omega
  have hll : (r.filler ++ (r'.upTo ++ [10])).length < 434 := by
    rw [List.length_append, List.length_append, hup, List.length_singleton]
    omega
  have hlen := length_fgetsBuffer hb _ hll
  have hhead : (fgetsBuffer buf (r.filler ++ (r'.upTo ++ [10]))).take 12 = List.replicate 12 0 := by
    refine head_filler_next buf r _ ?_ ?_
    · rw [List.length_append, hup]
      omega
    · rw [List.take_append_of_le_length (by omega), take_upTo r' (by omega)]
      exact hc
  obtain ⟨tx, hu, htx⟩ := unmarshall_of_head hlen hhead txid_of_zeros.2
  have hsplit : r.filler ++ (r'.upTo ++ 10 :: more) = (r.filler ++ (r'.upTo ++ [10])) ++ more := by
    simp
  refine ⟨_, Calm.of_head hlen hhead rfl, ?_⟩
  rw [removeLoop_pass (by simp) hline hu (by rw [htx, txid_of_zeros.1]; exact h0.symm), hsplit,
    List.drop_left]

/-- of a longer one the end is left for the next line -/
theorem removeLoop_full (h0 : txid ≠ 0) (hb : buf.length = maxJournalEntrySize) (hp : r'.Plain)
    (hc : Clear r r') (hlong : r.data.length ≤ r'.data.length) (more : List UInt8) (fuel : ℕ) :
    ∃ buf', buf'.length = maxJournalEntrySize ∧ buf'.take 12 = List.replicate 12 0 ∧
      removeLoop file txid (fuel + 1) buf (r.filler ++ (r'.upTo ++ 10 :: more))
        = removeLoop file txid fuel buf' (r'.upTo.drop (21 + r.data.length) ++ 10 :: more) := by
  obtain ⟨hz, hz8⟩ := r.length_filler
  have hup := r'.length_upTo
  have hn : r.data.length ≤ 404 := r.short
  have hcl : (r'.upTo.take (21 + r.data.length)).length = 21 + r.data.length := by
    rw [List.length_take, hup]
    omega
  have hll : (r.filler ++ r'.upTo.take (21 + r.data.length)).length = 433 := by
    rw [List.length_append, hcl]
    omega
  have hsplit : r.filler ++ (r'.upTo ++ 10 :: more)
      = (r.filler ++ r'.upTo.take (21 + r.data.length))
        ++ (r'.upTo.drop (21 + r.data.length) ++ 10 :: more) := by
    rw [List.append_assoc, ← List.append_assoc (r'.upTo.take _), List.take_append_drop]
  have hline : fgetsLine (r.filler ++ (r'.upTo ++ 10 :: more))
      = r.filler ++ r'.upTo.take (21 + r.data.length) := by
    refine fgetsLine_full ?_ ?_
    · rw [hsplit]
      exact List.take_left' hll
    · rw [List.mem_append]
      exact not_or.mpr ⟨r.newline_notMem_filler, fun h => hp.upTo (List.mem_of_mem_take h)⟩
  have hlen := length_fgetsBuffer hb (r.filler ++ r'.upTo.take (21 + r.data.length))
    (by rw [hll]; decide)
  have hhead : (fgetsBuffer buf (r.filler ++ r'.upTo.take (21 + r.data.length))).take 12
      = List.replicate 12 0 := by
    refine head_filler_next buf r _ ?_ ?_
    · rw [hcl]
      omega
    · have hmin : min (r.data.length - 400) (21 + r.data.length) = r.data.length - 400 := by omega
      rw [List.take_take, hmin, take_upTo r' (by omega)]
      exact hc
  obtain ⟨tx, hu, htx⟩ := unmarshall_of_head hlen hhead txid_of_zeros.2
  refine ⟨_, hlen, hhead, ?_⟩
  rw [removeLoop_pass (by simp) hline hu (by rw [htx, txid_of_zeros.1]; exact h0.symm), hsplit,
    List.drop_left]

theorem fgetsLine_stray (k : ℕ) (more : List UInt8) :
    fgetsLine ((intBytes 1).drop (4 - k) ++ 10 :: more) = stray k := by
  refine fgetsLine_newline (fun h => ?_) ?_
  · exact absurd (List.mem_of_mem_drop h) (by decide)
  · rw [List.length_drop, length_intBytes]
    show 4 - (4 - k) < 433
    omega

theorem length_stray {k : ℕ} (hk : k ≤ 4) : (stray k).length = k + 1 := by
  rw [stray, List.length_append, List.length_drop, length_intBytes]
  simp only [sizeofInt, List.length_singleton]
  omega

/-- what is read of the last bytes of an entry -/
theorem unmarshall_stray {k : ℕ} (hk : k ≤ 4) (hb : buf.length = maxJournalEntrySize)
    (hz : buf.take 12 = List.replicate 12 0) : Calm (fgetsBuffer buf (stray k)) ∧
      ∃ tx, unmarshallJournalEntry (fgetsBuffer buf (stray k)) = some tx ∧
        tx.txid = strayTxid k := by
  have hsl := length_stray hk
  have hlen := length_fgetsBuffer hb (stray k) (show (stray k).length < 434 by omega)
  have hhead := head_stray hz k hk
  obtain ⟨hsmall, hread, hcalm⟩ := stray_head k hk
  obtain ⟨tx, hu, htx⟩ := unmarshall_of_head hlen hhead hsmall
  exact ⟨Calm.of_head hlen hhead hcalm, tx, hu, htx.trans hread⟩

/-- the last bytes of an entry are passed over -/
theorem removeLoop_stray {k : ℕ} (hk : k ≤ 4) (hb : buf.length = maxJournalEntrySize)
    (hz : buf.take 12 = List.replicate 12 0) (hne : txid ≠ strayTxid k) (more : List UInt8)
    (fuel : ℕ) : ∃ buf', Calm buf' ∧
      removeLoop file txid (fuel + 1) buf ((intBytes 1).drop (4 - k) ++ 10 :: more)
        = removeLoop file txid fuel buf' more := by
  obtain ⟨hcalm, tx, hu, htx⟩ := unmarshall_stray hk hb hz
  have hsplit : (intBytes 1).drop (4 - k) ++ 10 :: more = stray k ++ more := by
    rw [stray, List.append_assoc]
    rfl
  refine ⟨_, hcalm, ?_⟩
  rw [removeLoop_pass (by simp) (fgetsLine_stray k more) hu (by rw [htx]; exact hne.symm), hsplit,
    List.drop_left]

end steps

/-- The entry `r'` behind `r` is passed over in a search for `txid`: it has no newline in front of
its delimiter, its `txid` leaves the length field clear, and it is shorter than `r`, or longer by at
most four bytes and its last bytes do not read as `txid`. -/
structure ScansPast (txid : BitVec 32) (r r' : LogRequest) : Prop where
  plain : r'.Plain
  clear : Clear r r'
  near : r'.data.length ≤ r.data.length + 4
  other : r.data.length ≤ r'.data.length → txid ≠ strayTxid (r'.data.length - r.data.length)

/-- every entry behind `r` is passed over -/
def ScansAll (txid : BitVec 32) : LogRequest → List LogRequest → Prop
  | _, [] => True
  | r, r' :: rest => ScansPast txid r r' ∧ ScansAll txid r' rest

/-- **Behind the first entry nothing is found** where every entry is passed over. -/
theorem removeLoop_scan {file : List UInt8} {txid : BitVec 32} (h0 : txid ≠ 0) :
    ∀ (rest : List LogRequest) (r : LogRequest) (fuel : ℕ) (buf : List UInt8), Calm buf →
      ScansAll txid r rest → (r.filler ++ logBytes rest).length < fuel →
      removeLoop file txid fuel buf (r.filler ++ logBytes rest) = some (-1, file) := by
  intro rest
  induction rest with
  | nil =>
    intro r fuel buf hb _ hf
    obtain ⟨hz, hz8⟩ := r.length_filler
    have hnil : r.filler ++ logBytes [] = r.filler := List.append_nil _
    rw [hnil] at hf ⊢
    obtain ⟨fuel, rfl⟩ : ∃ m, fuel = m + 2 := ⟨fuel - 2, by omega⟩
    have hne : r.filler ≠ [] := List.ne_nil_of_length_pos (by omega)
    have hline : fgetsLine r.filler = r.filler := by
      refine fgetsLine_full (List.take_of_length_le ?_) r.newline_notMem_filler
      show r.filler.length ≤ 433
      omega
    have hlen : (fgetsBuffer buf r.filler).length = maxJournalEntrySize :=
      length_fgetsBuffer hb.length _ (show r.filler.length < 434 by omega)
    obtain ⟨tx, hu, htx⟩ := unmarshall_of_head hlen (head_filler_last hb r) txid_of_zeros.2
    rw [removeLoop_pass hne hline hu (by rw [htx, txid_of_zeros.1]; exact h0.symm),
      List.drop_length, removeLoop, if_pos rfl]
  | cons r' rest ih =>
    intro r fuel buf hb hs hf
    obtain ⟨⟨hplain, hclear, hnear, hother⟩, hrest⟩ := hs
    obtain ⟨hz, hz8⟩ := r.length_filler
    rw [logBytes_cons] at hf ⊢
    rw [List.length_append, List.length_append, List.length_cons] at hf
    obtain ⟨fuel, rfl⟩ : ∃ m, fuel = m + 2 := ⟨fuel - 2, by omega⟩
    by_cases hshort : r'.data.length < r.data.length
    · obtain ⟨buf', hcalm, he⟩ := removeLoop_short file h0 hb.length hplain hclear hshort
        (r'.filler ++ logBytes rest) (fuel + 1)
      rw [he]
      exact ih r' (fuel + 1) buf' hcalm hrest (by omega)
    · obtain ⟨k, hk⟩ : ∃ k, r'.data.length = r.data.length + k :=
        ⟨r'.data.length - r.data.length, by omega⟩
      have hnot : txid ≠ strayTxid k := by
        have := hother (by omega)
        rwa [hk, Nat.add_sub_cancel_left] at this
      obtain ⟨buf', hlen, hhead, he⟩ := removeLoop_full file h0 hb.length hplain hclear
        (by omega) (r'.filler ++ logBytes rest) (fuel + 1)
      obtain ⟨buf'', hcalm, he'⟩ := removeLoop_stray file (by omega) hlen hhead hnot
        (r'.filler ++ logBytes rest) fuel
      rw [he, r'.drop_upTo (by omega) hk, he']
      exact ih r' fuel buf'' hcalm hrest (by omega)

/-! ## the first entry -/

theorem leBytes_zero (m : ℕ) : leBytes m 0 = List.replicate m 0 := by
  induction m with
  | zero => rfl
  | succ m ih =>
    rw [leBytes, Nat.zero_div, ih]
    rfl

/-- the high bytes of a length -/
theorem drop_sizeBytes (r : LogRequest) :
    (sizeBytes (BitVec.ofNat 64 r.data.length)).drop 2 = List.replicate 6 0 := by
  have hn : r.data.length ≤ 404 := r.short
  have h64 : (BitVec.ofNat 64 r.data.length).toNat = r.data.length := by
    rw [BitVec.toNat_ofNat]
    omega
  have h0 : r.data.length / 256 / 256 = 0 := by omega
  rw [sizeBytes, h64]
  show leBytes 6 (r.data.length / 256 / 256) = _
  rw [h0, leBytes_zero]

/-- the buffer behind the first line is the entry -/
theorem fgetsBuffer_first (r : LogRequest) :
    fgetsBuffer (List.replicate maxJournalEntrySize 0) (r.upTo ++ [10]) = r.entryBytes := by
  obtain ⟨hz, hz8⟩ := r.length_filler
  have hup := r.length_upTo
  have hm : maxJournalEntrySize = 434 := rfl
  have hfill : r.filler = 0 :: List.replicate (411 - r.data.length) 0 := by
    rw [← List.replicate_succ, LogRequest.filler]
    congr 1
    show 412 - r.data.length = _
    omega
  have hlen : (r.upTo ++ [10]).length + 1 = 23 + r.data.length := by
    rw [List.length_append, hup, List.length_singleton]
    omega
  have hrest : 434 - (23 + r.data.length) = 411 - r.data.length := by omega
  rw [fgetsBuffer, hlen, List.drop_replicate, hm, hrest, ← hfill, r.entryBytes_eq,
    List.append_assoc]
  rfl

theorem calm_entryBytes (r : LogRequest) : Calm r.entryBytes := by
  refine ⟨r.length_entryBytes, ?_⟩
  have h12 : (intBytes r.txid ++ sizeBytes (BitVec.ofNat 64 r.data.length)).length = 12 := by
    simp [sizeofInt, sizeofSizeT]
  have h : r.entryBytes = (intBytes r.txid ++ sizeBytes (BitVec.ofNat 64 r.data.length))
      ++ (r.data ++ (0 :: (intBytes 1 ++ intBytes 1) ++ 10 :: r.filler)) := by
    simp [r.entryBytes_eq, LogRequest.upTo, LogRequest.body]
  rw [h, List.take_left' h12, List.drop_append, length_intBytes, List.drop_eq_nil_of_le (by
    rw [length_intBytes]; decide), List.nil_append]
  exact drop_sizeBytes r

/-- a field written over -/
theorem fwriteAt_field {a b c rest : List UInt8} {pos : ℕ} (ha : a.length = pos)
    (hb : b.length = c.length) : fwriteAt (a ++ (b ++ rest)) pos c = a ++ (c ++ rest) := by
  subst ha
  rw [fwriteAt, List.take_left, ← List.append_assoc a b rest, ← hb, ← List.length_append,
    List.drop_left, List.append_assoc]

/-- the first line of a file is its first entry up to the delimiter -/
theorem LogRequest.Plain.fgetsLine {r : LogRequest} (h : r.Plain) (rest : List UInt8) :
    fgetsLine (r.upTo ++ 10 :: rest) = r.upTo ++ [10] := by
  have hup := r.length_upTo
  have hn : r.data.length ≤ 404 := r.short
  apply fgetsLine_newline h.upTo
  rw [hup]
  show _ < 433
  omega

theorem drop_line (l rest : List UInt8) : (l ++ 10 :: rest).drop (l ++ [10]).length = rest := by
  have hsplit : l ++ 10 :: rest = (l ++ [10]) ++ rest := by simp
  rw [hsplit, List.drop_left]

/-- **The first entry is found** where no newline is in front of its delimiter, and only its field
`valid` is written over. -/
theorem removeLoop_first {r : LogRequest} (h : r.Plain) (rest : List UInt8) {fuel : ℕ} :
    removeLoop (r.upTo ++ 10 :: (r.filler ++ rest)) r.txid (fuel + 1)
        (List.replicate maxJournalEntrySize 0) (r.upTo ++ 10 :: (r.filler ++ rest))
      = some (0, r.entryWith 0 ++ rest) := by
  obtain ⟨hz, hz8⟩ := r.length_filler
  have hup := r.length_upTo
  have hpos : (r.upTo ++ 10 :: (r.filler ++ rest)).length - (r.filler ++ rest).length
      = (13 + r.data.length) + (sizeofInt + sizeofInt + 1) := by
    rw [List.length_append, List.length_cons, hup]
    show _ = 13 + r.data.length + 9
    omega
  have hsplit : r.upTo ++ 10 :: (r.filler ++ rest) = (r.body ++ [0])
      ++ (intBytes 1 ++ (intBytes 1 ++ 10 :: (r.filler ++ rest))) := by
    simp [LogRequest.upTo]
  have hbody : (r.body ++ [0]).length = 13 + r.data.length := by
    rw [List.length_append, r.length_body, List.length_singleton]
    omega
  have hwith : r.entryWith 0 ++ rest = (r.body ++ [0])
      ++ (intBytes 0 ++ (intBytes 1 ++ 10 :: (r.filler ++ rest))) := by
    simp [LogRequest.entryWith, LogRequest.body, LogRequest.filler]
  rw [removeLoop, if_neg (by simp)]
  simp only [h.fgetsLine, fgetsBuffer_first, unmarshall_entryBytes, drop_line, hpos,
    Option.bind_some, LogRequest.unmarshalled, Nat.add_sub_cancel]
  rw [if_pos trivial, if_neg (by decide), if_neg (by omega), hsplit,
    fwriteAt_field hbody (by rw [length_intBytes, length_intBytes]), hwith]

/-- a first entry that is not the one looked for -/
theorem removeLoop_other {file : List UInt8} {txid : BitVec 32} {r : LogRequest} (h : r.Plain)
    (hne : r.txid ≠ txid) (rest : List UInt8) (fuel : ℕ) :
    removeLoop file txid (fuel + 1) (List.replicate maxJournalEntrySize 0) (r.upTo ++ 10 :: rest)
      = removeLoop file txid fuel r.entryBytes rest := by
  have hu : unmarshallJournalEntry (fgetsBuffer (List.replicate maxJournalEntrySize 0)
      (r.upTo ++ [10])) = some r.unmarshalled := by
    rw [fgetsBuffer_first, unmarshall_entryBytes]
  rw [removeLoop_pass (by simp) (h.fgetsLine rest) hu hne, drop_line, fgetsBuffer_first]

/-! ## what is removed -/

/-- What `remove_transaction` is for: the entry of `txid` is marked invalid, or, without one,
nothing is changed and -1 returned; a recovery replays the other entries. -/
def RemovesOne (rs : List LogRequest) (txid : BitVec 32) : Prop :=
  ∃ file, logAll [] rs = some file ∧
    removeTransaction file txid
      = some (if ∃ r ∈ rs, r.txid = txid then 0 else -1, invalidate txid rs) ∧
    ((∀ r ∈ rs, r.txid ≠ txid) → invalidate txid rs = file) ∧
    ∀ s, recoverLoop s (invalidate txid rs)
      = ((rs.filter fun r => r.txid ≠ txid).map (LogRequest.toTransaction 1)).foldlM
          replayEntry s

/-- The first entry has no newline in front of its delimiter, and it is the one looked for, or none
is and every other one is passed over. -/
def Removable (txid : BitVec 32) : List LogRequest → Prop
  | [] => True
  | r :: rest => r.Plain ∧ (r.txid = txid ∨
      (txid ≠ 0 ∧ (∀ r' ∈ rest, r'.txid ≠ txid) ∧ ScansAll txid r rest))

theorem removeTransaction_of_removable {txid : BitVec 32} {rs : List LogRequest}
    (hd : (rs.map LogRequest.txid).Nodup) (h : Removable txid rs) :
    removeTransaction (logBytes rs) txid
      = some (if ∃ r ∈ rs, r.txid = txid then 0 else -1, invalidate txid rs) := by
  cases rs with
  | nil => rfl
  | cons r rest =>
    obtain ⟨hplain, hcase⟩ := h
    unfold removeTransaction
    by_cases hr : r.txid = txid
    · have hrest : ∀ r' ∈ rest, r'.txid ≠ txid := by
        intro r' hr' he
        refine (List.nodup_cons.mp hd).1 ?_
        rw [hr, ← he]
        exact List.mem_map_of_mem hr'
      have hinv : invalidate txid (r :: rest) = r.entryWith 0 ++ logBytes rest := by
        rw [← invalidate_absent hrest]
        simp [invalidate, hr]
      rw [if_pos ⟨r, List.mem_cons_self, hr⟩, hinv, logBytes_cons, ← hr]
      exact removeLoop_first hplain _
    · obtain ⟨h0, hrest, hscan⟩ := hcase.resolve_left hr
      have hall : ∀ r' ∈ r :: rest, r'.txid ≠ txid := List.forall_mem_cons.mpr ⟨hr, hrest⟩
      have hno : ¬ ∃ r' ∈ r :: rest, r'.txid = txid := by
        rintro ⟨r', hr', he⟩
        exact hall r' hr' he
      rw [if_neg hno, invalidate_absent hall, logBytes_cons, removeLoop_other hplain hr]
      refine removeLoop_scan h0 rest r _ _ (calm_entryBytes r) hscan ?_
      simp only [List.length_append, List.length_cons]
      omega

end LsmKv
