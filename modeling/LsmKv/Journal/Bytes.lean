import LsmKv.Journal
import LsmKv.Lib.FixedRecords

/-!
# The bytes of `tx_log` (`journal.c`)

* `TransactionMem`             `transaction` as it lies in memory;
* `logTransactionBytes`        the `fwrite`s of one call, which fills an entry up to
                               `maxJournalEntrySize`;
* `unmarshallJournalEntry`     the `memcpy`s out of the entry buffer, undefined past its end;
* `unmarshalAll`, `recoverLoop`   the `fread` loop of `recover`, alone and with the replay;
* `logTransactionBytes_eq`, `unmarshall_entryBytes`   one entry written, and read back;
* `journal_round_trip`         any log, cut anywhere;
* `recoverLoop_take`           so a torn log replays as the list of its whole entries.
-/

namespace LsmKv

open FixedRecords

def maxJournalEntrySize : ℕ := 22 + maxEntrySize + 2 + 6

def sizeofInt : ℕ := 4
def sizeofSizeT : ℕ := 8

/-- `transaction`; `data` is the memory block `db.data` points to -/
structure TransactionMem where
  txid : BitVec 32
  dataLen : BitVec 64
  data : List UInt8
  valid : BitVec 32
  committed : BitVec 32
  deriving DecidableEq, Repr

/-- an `int` in memory -/
def intBytes (x : BitVec 32) : List UInt8 := leBytes sizeofInt x.toNat

/-- a `size_t` in memory -/
def sizeBytes (x : BitVec 64) : List UInt8 := leBytes sizeofSizeT x.toNat

/-- `fwrite` at the end of the file; `none` is the return value 0, also for a write of nothing -/
def fwrite (file bytes : List UInt8) : Option (List UInt8) :=
  if bytes = [] then none else some (file ++ bytes)

/-- The file after a successful `log_transaction`; `txid` is what `rand` returned, `data` the
string in `db.data`, whose length is in `db.data_len`. -/
def logTransactionBytes (file : List UInt8) (txid : BitVec 32) (data : List UInt8) :
    Option (List UInt8) := do
  let dataLen := BitVec.ofNat 64 data.length
  let file ← fwrite file (intBytes txid)
  let file ← fwrite file (sizeBytes dataLen)
  let file ← fwrite file data
  let file ← fwrite file [0]
  let file ← fwrite file (intBytes 1)
  let file ← fwrite file (intBytes 1)
  let file ← fwrite file [10]
  let bytesWritten := sizeofInt + sizeofSizeT + data.length + 1 + sizeofInt + sizeofInt + 1
  -- remaining_bytes; calloc and fwrite get nothing to write where it is not positive
  fwrite file (List.replicate (maxJournalEntrySize - bytesWritten) 0)

/-- `unmarshall_journal_entry`: `none` where it would read outside the buffer -/
def unmarshallJournalEntry (tmpEntry : List UInt8) : Option TransactionMem := do
  let txid ← slice tmpEntry 0 sizeofInt
  let entryPos := sizeofInt
  let dataLen ← slice tmpEntry entryPos sizeofSizeT
  let dataLen := BitVec.ofNat 64 (leVal dataLen)
  let entryPos := entryPos + sizeofSizeT
  let data ← slice tmpEntry entryPos (dataLen + 1).toNat
  let entryPos := entryPos + (dataLen + 1).toNat
  let valid ← slice tmpEntry entryPos sizeofInt
  let entryPos := entryPos + sizeofInt
  let committed ← slice tmpEntry entryPos sizeofInt
  some ⟨BitVec.ofNat 32 (leVal txid), dataLen, data, BitVec.ofNat 32 (leVal valid),
    BitVec.ofNat 32 (leVal committed)⟩

/-- the transactions that the loop of `recover` unmarshals: it ends at the first short `fread` -/
def unmarshalAll (file : List UInt8) : Option (List TransactionMem) :=
  readAll maxJournalEntrySize unmarshallJournalEntry file

/-- the string at the beginning of a memory block -/
def cString (block : List UInt8) : List UInt8 := block.takeWhile (· ≠ 0)

/-- the entry that the replay of a transaction goes by -/
def TransactionMem.toTransaction (tx : TransactionMem) : Transaction :=
  ⟨tx.txid.toInt, (cString tx.data).map fun b => Char.ofNat b.toNat, tx.valid.toInt,
    tx.committed.toInt⟩

/-- the loop of `recover` -/
def recoverLoop (s : Store) (file : List UInt8) : Option Store :=
  if _h : 0 < maxJournalEntrySize ∧ maxJournalEntrySize ≤ file.length then do
    let tx ← unmarshallJournalEntry (file.take maxJournalEntrySize)
    let s ← replayEntry s tx.toTransaction
    recoverLoop s (file.drop maxJournalEntrySize)
  else some s
termination_by file.length

/-- A request as the handlers log it: a string of 1 to 404 bytes, and what `rand` returned. -/
structure LogRequest where
  txid : BitVec 32
  data : List UInt8
  ne : data ≠ []
  short : data.length ≤ maxEntrySize
  nulFree : ∀ b ∈ data, b ≠ 0

namespace LogRequest

/-- the bytes of its entry -/
def entryBytes (r : LogRequest) : List UInt8 :=
  intBytes r.txid ++ (sizeBytes (BitVec.ofNat 64 r.data.length) ++ ((r.data ++ [0]) ++
    (intBytes 1 ++ (intBytes 1 ++
      ([10] ++ List.replicate (maxEntrySize + 8 - r.data.length) 0)))))

/-- its entry with another value in the field `valid` -/
def entryWith (valid : BitVec 32) (r : LogRequest) : List UInt8 :=
  intBytes r.txid ++ (sizeBytes (BitVec.ofNat 64 r.data.length) ++ ((r.data ++ [0]) ++
    (intBytes valid ++ (intBytes 1 ++
      ([10] ++ List.replicate (maxEntrySize + 8 - r.data.length) 0)))))

/-- what unmarshalling its entry should give -/
def unmarshalled (r : LogRequest) : TransactionMem :=
  ⟨r.txid, BitVec.ofNat 64 r.data.length, r.data ++ [0], 1, 1⟩

theorem length_entryWith (valid : BitVec 32) (r : LogRequest) :
    (r.entryWith valid).length = maxJournalEntrySize := by
  have h := r.short
  simp only [entryWith, intBytes, sizeBytes, List.length_append, length_leBytes,
    List.length_replicate, List.length_singleton]
  unfold maxJournalEntrySize sizeofInt sizeofSizeT
  omega

theorem length_entryBytes (r : LogRequest) : r.entryBytes.length = maxJournalEntrySize :=
  length_entryWith 1 r

end LogRequest

theorem fwrite_eq {file bytes : List UInt8} (h : bytes ≠ []) :
    fwrite file bytes = some (file ++ bytes) := if_neg h

theorem intBytes_ne_nil (x : BitVec 32) : intBytes x ≠ [] := by simp [intBytes, sizeofInt, leBytes]

theorem sizeBytes_ne_nil (x : BitVec 64) : sizeBytes x ≠ [] := by
  simp [sizeBytes, sizeofSizeT, leBytes]

/-- **One call appends one entry** of exactly `maxJournalEntrySize` bytes. -/
theorem logTransactionBytes_eq (file : List UInt8) (r : LogRequest) :
    logTransactionBytes file r.txid r.data = some (file ++ r.entryBytes) := by
  have hshort := r.short
  have hpad : maxJournalEntrySize
      - (sizeofInt + sizeofSizeT + r.data.length + 1 + sizeofInt + sizeofInt + 1)
      = maxEntrySize + 8 - r.data.length := by
    unfold maxJournalEntrySize sizeofInt sizeofSizeT
    omega
  have hfill : List.replicate (maxEntrySize + 8 - r.data.length) (0 : UInt8) ≠ [] := by
    rw [Ne, List.replicate_eq_nil_iff]
    omega
  unfold logTransactionBytes
  simp only [hpad, fwrite_eq (intBytes_ne_nil _), fwrite_eq (sizeBytes_ne_nil _), fwrite_eq r.ne,
    fwrite_eq (List.cons_ne_nil _ _), fwrite_eq hfill, Option.bind_eq_bind, Option.bind_some]
  simp [LogRequest.entryBytes]

theorem leVal_intBytes (x : BitVec 32) : BitVec.ofNat 32 (leVal (intBytes x)) = x := by
  rw [intBytes, leVal_leBytes sizeofInt _ (by simpa [sizeofInt] using x.isLt)]
  simp

theorem leVal_sizeBytes (x : BitVec 64) : BitVec.ofNat 64 (leVal (sizeBytes x)) = x := by
  rw [sizeBytes, leVal_leBytes sizeofSizeT _ (by simpa [sizeofSizeT] using x.isLt)]
  simp

@[simp] theorem length_intBytes (x : BitVec 32) : (intBytes x).length = sizeofInt := by
  simp [intBytes]

@[simp] theorem length_sizeBytes (x : BitVec 64) : (sizeBytes x).length = sizeofSizeT := by
  simp [sizeBytes]

/-- **An entry is read back as it was written**, with no read outside the buffer. -/
theorem unmarshall_entryWith (valid : BitVec 32) (r : LogRequest) :
    unmarshallJournalEntry (r.entryWith valid) = some { r.unmarshalled with valid := valid } := by
  have hshort := r.short
  have hlen : (BitVec.ofNat 64 r.data.length + 1).toNat = r.data.length + 1 := by
    unfold maxEntrySize maxValueSize maxKeySize maxTagSize at hshort
    simp only [BitVec.toNat_add, BitVec.toNat_ofNat, BitVec.ofNat_eq_ofNat]
    omega
  -- the five fields and what surrounds them
  generalize hn : BitVec.ofNat 64 r.data.length = n at *
  generalize hpad : [10] ++ List.replicate (maxEntrySize + 8 - r.data.length) (0 : UInt8) = pad
  have e : r.entryWith valid = intBytes r.txid ++ (sizeBytes n ++ ((r.data ++ [0]) ++
      (intBytes valid ++ (intBytes 1 ++ pad)))) := by
    rw [LogRequest.entryWith, hn, hpad]
  have h1 : slice (r.entryWith valid) 0 sizeofInt = some (intBytes r.txid) := by
    rw [e]
    exact slice_field (a := []) rfl (length_intBytes _)
  have h2 : slice (r.entryWith valid) sizeofInt sizeofSizeT = some (sizeBytes n) := by
    rw [e]
    exact slice_field (length_intBytes _) (length_sizeBytes _)
  have h3 : slice (r.entryWith valid) (sizeofInt + sizeofSizeT) (r.data.length + 1)
      = some (r.data ++ [0]) := by
    rw [e, ← List.append_assoc]
    exact slice_field (by simp) (by simp)
  have h4 : slice (r.entryWith valid) (sizeofInt + sizeofSizeT + (r.data.length + 1)) sizeofInt
      = some (intBytes valid) := by
    rw [e, ← List.append_assoc, ← List.append_assoc _ (r.data ++ [0])]
    exact slice_field (by simp; omega) (length_intBytes _)
  have h5 : slice (r.entryWith valid) (sizeofInt + sizeofSizeT + (r.data.length + 1) + sizeofInt)
      sizeofInt = some (intBytes 1) := by
    rw [e, ← List.append_assoc, ← List.append_assoc _ (r.data ++ [0]),
      ← List.append_assoc _ (intBytes valid)]
    exact slice_field (by simp; omega) (length_intBytes _)
  unfold unmarshallJournalEntry
  simp only [Option.bind_eq_bind, h1, h2, Option.bind_some, leVal_sizeBytes, hlen, h3, h4, h5,
    leVal_intBytes, LogRequest.unmarshalled, hn]

theorem unmarshall_entryBytes (r : LogRequest) :
    unmarshallJournalEntry r.entryBytes = some r.unmarshalled := unmarshall_entryWith 1 r

/-- the string of the memory block is the request -/
theorem cString_unmarshalled (r : LogRequest) : cString r.unmarshalled.data = r.data := by
  show (r.data ++ [0]).takeWhile (· ≠ 0) = r.data
  have h : ∀ b ∈ r.data, decide (b ≠ 0) = true := fun b hb => by simpa using r.nulFree b hb
  rw [List.takeWhile_append_of_pos h]
  simp

/-- the log after successive calls -/
def logAll (file : List UInt8) (rs : List LogRequest) : Option (List UInt8) :=
  rs.foldlM (fun file r => logTransactionBytes file r.txid r.data) file

theorem logAll_eq (file : List UInt8) (rs : List LogRequest) :
    logAll file rs = some (file ++ (rs.map LogRequest.entryBytes).flatten) := by
  induction rs generalizing file with
  | nil => simp [logAll]
  | cons r rs ih =>
    show (logTransactionBytes file r.txid r.data).bind (fun file => logAll file rs) = _
    rw [logTransactionBytes_eq, Option.bind_some, ih, List.map_cons, List.flatten_cons,
      List.append_assoc]

/-- **The journal round trip.**  Any requests are logged, entry behind entry, and the log cut after
any number of bytes unmarshals to the requests whose whole entry is left, in order, with their
string, `txid`, `valid` and `committed`; the torn rest is ignored. -/
theorem journal_round_trip (rs : List LogRequest) : ∃ file, logAll [] rs = some file ∧
    file.length = maxJournalEntrySize * rs.length ∧
    (∀ r ∈ rs, cString (r.data ++ [0]) = r.data) ∧
    ∀ n, unmarshalAll (file.take n) = some ((rs.take (n / maxJournalEntrySize)).map fun r =>
      ⟨r.txid, BitVec.ofNat 64 r.data.length, r.data ++ [0], 1, 1⟩) := by
  refine ⟨_, logAll_eq [] rs, ?_, fun r _ => cString_unmarshalled r, fun n => ?_⟩
  · rw [List.nil_append]
    induction rs with
    | nil => rfl
    | cons r rs ih =>
      rw [List.map_cons, List.flatten_cons, List.length_append, ih, r.length_entryBytes,
        List.length_cons]
      ring
  · rw [List.nil_append]
    exact readAll_take (by decide) rs (fun r _ => r.length_entryBytes)
      (fun r _ => unmarshall_entryBytes r) n

/-! ## the replay -/

/-- unmarshalling does not depend on what the replay does -/
theorem recoverLoop_eq (file : List UInt8) : ∀ (s : Store) {txs : List TransactionMem},
    unmarshalAll file = some txs →
    recoverLoop s file = (txs.map TransactionMem.toTransaction).foldlM replayEntry s := by
  induction hlen : file.length using Nat.strong_induction_on generalizing file with
  | _ len ih =>
    intro s txs h
    rw [unmarshalAll, readAll] at h
    rw [recoverLoop]
    split_ifs at h ⊢ with hn
    · obtain ⟨tx, h1, h2⟩ := Option.bind_eq_some_iff.mp h
      obtain ⟨rest, h3, h4⟩ := Option.bind_eq_some_iff.mp h2
      cases h4
      rw [h1]
      simp only [Option.bind_eq_bind, Option.bind_some, List.map_cons, List.foldlM_cons]
      refine congrArg _ (funext fun s => ih _ ?_ _ rfl s h3)
      rw [List.length_drop]
      omega
    · cases h
      rfl

/-- **A torn log replays as the list of its whole entries.** -/
theorem recoverLoop_take (rs : List LogRequest) (s : Store) (n : ℕ) {file : List UInt8}
    (h : logAll [] rs = some file) : recoverLoop s (file.take n)
      = ((rs.take (n / maxJournalEntrySize)).map fun r =>
          (⟨r.txid.toInt, r.data.map fun b => Char.ofNat b.toNat, 1, 1⟩ : Transaction)).foldlM
            replayEntry s := by
  have hfile := logAll_eq [] rs
  rw [h, List.nil_append] at hfile
  cases hfile
  have hcut : readAll maxJournalEntrySize unmarshallJournalEntry
      ((rs.map LogRequest.entryBytes).flatten.take n)
        = some ((rs.take (n / maxJournalEntrySize)).map LogRequest.unmarshalled) :=
    readAll_take (by decide) rs (fun r _ => r.length_entryBytes)
      (fun r _ => unmarshall_entryBytes r) n
  rw [recoverLoop_eq _ s hcut, List.map_map]
  congr 1
  refine List.map_congr_left fun r _ => ?_
  show Transaction.mk _ ((cString (r.data ++ [0])).map _) _ _ = _
  rw [show cString (r.data ++ [0]) = r.data from cString_unmarshalled r]
  rfl

end LsmKv
