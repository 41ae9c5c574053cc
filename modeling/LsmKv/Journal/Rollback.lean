import LsmKv.Journal.Bytes

/-!
# A failed append to `tx_log`

`log_transaction` writes eight fields, each with its own `fflush`, and cuts the file back by a
fixed number of bytes where a call fails.

* `Fault`              the call that fails, and how much a failing `fflush` has written;
* `stages`             the fields with the two offsets that the source cuts back by;
* `logTransactionIo`   one call: its result, the file and whether `journal_mutex` is still held;
* `offsets_stages`     every offset counts the bytes of the fields before it, the field included
                       after its `fflush`;
* `invisible_iff`      when a call that returns -1 has left no trace.
-/

namespace LsmKv

open FixedRecords

inductive TxField
  | txid | dataLen | data | nullbyte | valid | committed | delimiter | remaining
  deriving DecidableEq, Repr

/-- The call that fails.  A failing `fwrite` writes nothing; a failing `fflush` has written the
first `n` pending bytes and drops the rest. -/
inductive Fault
  | fopen
  | fwrite (f : TxField)
  | fflush (f : TxField) (n : ℕ)
  deriving DecidableEq, Repr

/-- A field, its bytes (`none` where they are no memory block), and what the file is cut back by
when its `fwrite` or its `fflush` fails. -/
structure LogStage where
  field : TxField
  bytes : Option (List UInt8)
  onWrite : Int
  onFlush : Int

/-- `MAX_JOURNAL_ENTRY_SIZE - bytes_written` -/
def remainingBytes (data : List UInt8) : Int :=
  maxJournalEntrySize - (sizeofInt + sizeofSizeT + data.length + 1 + sizeofInt + sizeofInt + 1)

/-- The source cuts nothing back when the `fwrite` of the txid fails. -/
def stages (txid : BitVec 32) (data : List UInt8) : List LogStage :=
  let int : Int := sizeofInt
  let sizeT : Int := sizeofSizeT
  let dataLen : Int := data.length
  let rest := remainingBytes data
  [⟨.txid, some (intBytes txid), 0, int⟩,
    ⟨.dataLen, some (sizeBytes (BitVec.ofNat 64 data.length)), int, int + sizeT⟩,
    ⟨.data, some data, int + sizeT, int + sizeT + dataLen⟩,
    ⟨.nullbyte, some [0], int + sizeT + dataLen, int + sizeT + dataLen + 1⟩,
    ⟨.valid, some (intBytes 1), int + sizeT + dataLen + 1, int + sizeT + dataLen + 1 + int⟩,
    ⟨.committed, some (intBytes 1), int + sizeT + dataLen + 1 + int,
      int + sizeT + dataLen + 1 + int + int⟩,
    ⟨.delimiter, some [10], int + sizeT + dataLen + 1 + int + int,
      int + sizeT + dataLen + 1 + int + int + 1⟩,
    -- calloc of a negative number of bytes is NULL
    ⟨.remaining, if rest < 0 then none else some (List.replicate rest.toNat 0),
      int + sizeT + dataLen + 1 + int + int + 1,
      int + sizeT + dataLen + 1 + int + int + 1 + rest⟩]

/-- `ftruncate` to a length that is not above the size; a negative one is refused -/
def ftruncate (file : List UInt8) (length : Int) : List UInt8 :=
  if length < 0 then file else file.take length.toNat

/-- `stat(..); ftruncate(fileno(file), st.st_size - amount)` -/
def rollback (file : List UInt8) (amount : Int) : List UInt8 :=
  ftruncate file (file.length - amount)

/-- The fields from one on: the file behind the last one, or the file that is left where a call
fails (`error`); `none` where a NULL block is written. -/
def issueAll (fault : Option Fault) :
    List LogStage → List UInt8 → Option (Except (List UInt8) (List UInt8))
  | [], file => some (.ok file)
  | s :: rest, file =>
    match s.bytes with
    | none => none
    | some bytes =>
      -- fwrite returns 0 for a write of nothing too
      if bytes = [] ∨ fault = some (.fwrite s.field) then some (.error (rollback file s.onWrite))
      else match fault with
        | some (.fflush f n) =>
          if f = s.field then some (.error (rollback (file ++ bytes.take n) s.onFlush))
          else issueAll fault rest (file ++ bytes)
        | _ => issueAll fault rest (file ++ bytes)

/-- the value returned, `tx_log`, and whether `journal_mutex` is held -/
structure LogResult where
  rc : Int
  txLog : List UInt8
  held : Bool
  deriving DecidableEq, Repr

/-- `log_transaction`: where the file cannot be opened it returns without the unlock -/
def logTransactionIo (fault : Option Fault) (file : List UInt8) (txid : BitVec 32)
    (data : List UInt8) : Option LogResult :=
  if fault = some .fopen then some ⟨-1, file, true⟩
  else (issueAll fault (stages txid data) file).map fun r =>
    match r with
    | .ok file => ⟨0, file, false⟩
    | .error file => ⟨-1, file, false⟩

/-- A call that returns -1 has left no trace. -/
def Invisible (fault : Option Fault) (file : List UInt8) (txid : BitVec 32)
    (data : List UInt8) : Prop :=
  ∀ r ∈ logTransactionIo fault file txid data, r.rc = -1 → r.txLog = file ∧ r.held = false

instance (fault : Option Fault) (file : List UInt8) (txid : BitVec 32) (data : List UInt8) :
    Decidable (Invisible fault file txid data) :=
  inferInstanceAs (Decidable (∀ r ∈ logTransactionIo fault file txid data, _))

/-- without a fault the whole entry is written -/
theorem logTransactionIo_none (file : List UInt8) (r : LogRequest) :
    logTransactionIo none file r.txid r.data = some ⟨0, file ++ r.entryBytes, false⟩ := by
  have hshort := r.short
  have hrest : remainingBytes r.data = ((maxEntrySize + 8 - r.data.length : ℕ) : Int) := by
    unfold remainingBytes maxJournalEntrySize sizeofInt sizeofSizeT
    omega
  have hfill : List.replicate (maxEntrySize + 8 - r.data.length) (0 : UInt8) ≠ [] := by
    rw [Ne, List.replicate_eq_nil_iff]
    omega
  have hneg : ¬ ((maxEntrySize + 8 - r.data.length : ℕ) : Int) < 0 := by omega
  simp only [logTransactionIo, stages, hrest, if_neg hneg, Int.toNat_natCast, issueAll,
    intBytes_ne_nil, sizeBytes_ne_nil, r.ne, hfill, LogRequest.entryBytes]
  simp

/-! ## the offsets -/

/-- Behind `b` bytes of the entry, every offset counts the bytes of the entry that are issued. -/
def Offsets : ℕ → List LogStage → Prop
  | _, [] => True
  | b, s :: rest => s.onWrite = b ∧
      ∀ bytes ∈ s.bytes, s.onFlush = (b + bytes.length : ℕ) ∧ Offsets (b + bytes.length) rest

/-- **The offsets of the source are right.** -/
theorem offsets_stages (txid : BitVec 32) (data : List UInt8) : Offsets 0 (stages txid data) := by
  have hrest : ∀ bytes ∈ (if remainingBytes data < 0 then none
      else some (List.replicate (remainingBytes data).toNat (0 : UInt8))),
      (bytes.length : Int) = remainingBytes data := by
    intro bytes hb
    split_ifs at hb with hneg
    · cases hb
    · obtain rfl := Option.some.inj hb
      rw [List.length_replicate, Int.toNat_of_nonneg (by omega)]
  simp only [stages, Offsets, Option.mem_some_iff, forall_eq', length_intBytes, length_sizeBytes,
    List.length_singleton]
  refine ⟨by simp, by simp, by simp, by simp, by push_cast; ring, by push_cast; ring,
    by push_cast; ring, by push_cast; ring, by push_cast; ring, by push_cast; ring,
    by push_cast; ring, by push_cast; ring, by push_cast; ring, by push_cast; ring,
    by push_cast; ring, ?_⟩
  intro bytes hb
  have := hrest bytes hb
  refine ⟨?_, trivial⟩
  push_cast
  omega

/-! ## what a fault leaves -/

/-- the bytes issued before the field `f`, and its own; `none` where `f` is not reached -/
def pendingAt (f : TxField) : List LogStage → List UInt8 → Option (List UInt8 × List UInt8)
  | [], _ => none
  | s :: rest, issued =>
    match s.bytes with
    | none => none
    | some bytes =>
      if bytes = [] then none
      else if f = s.field then some (issued, bytes) else pendingAt f rest (issued ++ bytes)

/-- cutting back what was issued in whole leaves the file as it was -/
theorem rollback_append (file issued : List UInt8) :
    rollback (file ++ issued) (issued.length : ℕ) = file := by
  have hlen : ((file ++ issued).length : Int) - (issued.length : ℕ) = file.length := by
    rw [List.length_append]
    push_cast
    ring
  rw [rollback, hlen, ftruncate, if_neg (by omega), Int.toNat_natCast, List.take_left]

/-- a failing `fflush` that is reached -/
theorem issueAll_reached {f : TxField} {n : ℕ} {file : List UInt8} : ∀ (l : List LogStage)
    (issued : List UInt8), Offsets issued.length l → ∀ {before bytes : List UInt8},
    pendingAt f l issued = some (before, bytes) →
    issueAll (some (.fflush f n)) l (file ++ issued)
      = some (.error (rollback (file ++ before ++ bytes.take n)
          (before.length + bytes.length : ℕ))) := by
  intro l
  induction l with
  | nil => intro issued _ before bytes h; cases h
  | cons s l ih =>
    intro issued ho before bytes h
    unfold pendingAt at h
    unfold issueAll
    cases hb : s.bytes with
    | none => rw [hb] at h; cases h
    | some own =>
      obtain ⟨hflush, hrest⟩ := ho.2 own hb
      rw [hb] at h
      by_cases hne : own = []
      · simp only [if_pos hne] at h
        cases h
      · have hcond : ¬ (own = [] ∨ some (Fault.fflush f n) = some (.fwrite s.field)) := by
          simp [hne]
        simp only [if_neg hcond]
        simp only [if_neg hne] at h
        by_cases hf : f = s.field
        · rw [if_pos hf] at h ⊢
          obtain ⟨rfl, rfl⟩ := Prod.mk.inj (Option.some.inj h)
          rw [hflush]
        · rw [if_neg hf] at h ⊢
          rw [List.append_assoc]
          exact ih (issued ++ own) (by rwa [List.length_append]) h

/-- **Every other failure is undone.** -/
theorem issueAll_unreached {fault : Option Fault} {file : List UInt8} : ∀ (l : List LogStage)
    (issued : List UInt8), Offsets issued.length l →
    (∀ f n, fault = some (.fflush f n) → pendingAt f l issued = none) →
    ∀ {file' : List UInt8}, issueAll fault l (file ++ issued) = some (.error file') →
      file' = file := by
  intro l
  induction l with
  | nil => intro issued _ _ file' h; cases h
  | cons s l ih =>
    intro issued ho hno file' h
    unfold issueAll at h
    unfold pendingAt at hno
    cases hb : s.bytes with
    | none => rw [hb] at h; cases h
    | some own =>
      obtain ⟨-, hrest⟩ := ho.2 own hb
      rw [hb] at h hno
      by_cases hcond : own = [] ∨ fault = some (.fwrite s.field)
      · simp only [if_pos hcond] at h
        cases h
        rw [ho.1]
        exact rollback_append file issued
      · simp only [if_neg hcond, List.append_assoc] at h
        simp only [if_neg (not_or.mp hcond).1] at hno
        have hlen : Offsets (issued ++ own).length l := by rwa [List.length_append]
        split at h
        · rename_i f n
          have hf : f ≠ s.field := by
            intro hf
            have := hno f n rfl
            rw [if_pos hf] at this
            cases this
          rw [if_neg hf] at h
          refine ih (issued ++ own) hlen (fun f' n' he => ?_) h
          cases he
          have := hno f n rfl
          rwa [if_neg hf] at this
        · rename_i hnf
          exact ih (issued ++ own) hlen (fun f n he => absurd he (hnf f n)) h

/-- The rollback of a field of which only a part was written: it leaves the file as it was only
where it is refused and nothing was written. -/
theorem rollback_part (file before bytes : List UInt8) (hne : bytes ≠ []) (n : ℕ) :
    rollback (file ++ before ++ bytes.take n) (before.length + bytes.length : ℕ) = file ↔
      bytes.length ≤ n ∨ (before = [] ∧ n = 0 ∧ file.length < bytes.length) := by
  have hpos : 0 < bytes.length := List.length_pos_of_ne_nil hne
  by_cases hn : bytes.length ≤ n
  · rw [List.take_of_length_le hn, List.append_assoc, ← List.length_append]
    exact iff_of_true (rollback_append file (before ++ bytes)) (Or.inl hn)
  · have htake : (bytes.take n).length = n := by
      rw [List.length_take]
      omega
    have hlen : ((file ++ before ++ bytes.take n).length : Int)
        - (before.length + bytes.length : ℕ) = file.length + n - bytes.length := by
      rw [List.length_append, List.length_append, htake]
      push_cast
      ring
    rw [rollback, hlen, ftruncate]
    by_cases hneg : (file.length : Int) + n - bytes.length < 0
    · rw [if_pos hneg]
      constructor
      · intro h
        have hl := congrArg List.length h
        rw [List.length_append, List.length_append, htake] at hl
        refine Or.inr ⟨List.eq_nil_of_length_eq_zero (by omega), by omega, by omega⟩
      · rintro (h | ⟨rfl, rfl, -⟩)
        · exact absurd h hn
        · simp
    · rw [if_neg hneg]
      refine iff_of_false (fun h => ?_) ?_
      · have hl := congrArg List.length h
        rw [List.length_take, List.length_append, List.length_append, htake] at hl
        omega
      · rintro (h | ⟨-, rfl, h⟩)
        · exact hn h
        · omega

/-! ## when a failed call has left no trace -/

/-- the bytes of a field -/
def TxField.bytes (txid : BitVec 32) (data : List UInt8) : TxField → List UInt8
  | .txid => intBytes txid
  | .dataLen => sizeBytes (BitVec.ofNat 64 data.length)
  | .data => data
  | .nullbyte => [0]
  | .valid | .committed => intBytes 1
  | .delimiter => [10]
  | .remaining => List.replicate (remainingBytes data).toNat 0

/-- The call has ended before the `fflush` of the field: without data it ends at the `fwrite` of
the data, and where the entry is full it ends at the filling. -/
def Unreached (data : List UInt8) : TxField → Prop
  | .txid | .dataLen => False
  | .remaining => data = [] ∨ remainingBytes data ≤ 0
  | _ => data = []

theorem pendingAt_unreached (txid : BitVec 32) {data : List UInt8} {f : TxField}
    (h : Unreached data f) : pendingAt f (stages txid data) [] = none := by
  obtain ⟨r, hr⟩ : ∃ r, remainingBytes data = r := ⟨_, rfl⟩
  by_cases hd : data = []
  · cases f <;> simp_all [stages, pendingAt, Unreached, intBytes_ne_nil, sizeBytes_ne_nil]
  · cases f
    case remaining =>
      have hle : r ≤ 0 := hr ▸ h.resolve_left hd
      by_cases hneg : r < 0
      · simp [stages, pendingAt, hr, intBytes_ne_nil, sizeBytes_ne_nil, hd, hneg]
      · simp [stages, pendingAt, hr, intBytes_ne_nil, sizeBytes_ne_nil, hd, hneg, hle]
    all_goals exact absurd h (by simp [Unreached, hd])

/-- what is pending at the `fflush` of a field -/
theorem pendingAt_reached (txid : BitVec 32) {data : List UInt8} {f : TxField}
    (h : ¬ Unreached data f) : ∃ before, pendingAt f (stages txid data) []
      = some (before, f.bytes txid data) ∧ (before = [] ↔ f = .txid) := by
  obtain ⟨r, hr⟩ : ∃ r, remainingBytes data = r := ⟨_, rfl⟩
  cases f
  case txid => exact ⟨[], by simp [stages, pendingAt, TxField.bytes, intBytes_ne_nil], by simp⟩
  case dataLen =>
    exact ⟨intBytes txid, by simp [stages, pendingAt, TxField.bytes, intBytes_ne_nil,
      sizeBytes_ne_nil], by simp [intBytes_ne_nil]⟩
  case remaining =>
    obtain ⟨hd, hle⟩ := not_or.mp h
    rw [hr] at hle
    have hneg : ¬ r < 0 := by omega
    have hfill : List.replicate r.toNat (0 : UInt8) ≠ [] := by
      rw [Ne, List.replicate_eq_nil_iff]
      omega
    simp [stages, pendingAt, TxField.bytes, hr, intBytes_ne_nil, sizeBytes_ne_nil, hd, hneg,
      hfill]
  all_goals
    have hd : data ≠ [] := h
    simp [stages, pendingAt, TxField.bytes, intBytes_ne_nil, sizeBytes_ne_nil, hd]

theorem TxField.bytes_ne_nil (txid : BitVec 32) {data : List UInt8} {f : TxField}
    (h : ¬ Unreached data f) : f.bytes txid data ≠ [] := by
  cases f
  case txid => exact intBytes_ne_nil txid
  case dataLen => exact sizeBytes_ne_nil _
  case data => exact h
  case nullbyte => exact List.cons_ne_nil _ _
  case valid => exact intBytes_ne_nil 1
  case committed => exact intBytes_ne_nil 1
  case delimiter => exact List.cons_ne_nil _ _
  case remaining =>
    obtain ⟨-, hle⟩ := not_or.mp h
    rw [TxField.bytes, Ne, List.replicate_eq_nil_iff]
    omega

/-- The condition on the call that fails. -/
def Undone (fault : Option Fault) (file : List UInt8) (txid : BitVec 32) (data : List UInt8) :
    Prop :=
  match fault with
  | some .fopen => False
  | some (.fflush f n) => Unreached data f ∨ (f.bytes txid data).length ≤ n ∨
      (f = .txid ∧ n = 0 ∧ file.length < sizeofInt)
  | _ => True

/-- a call in which no `fflush` fails that has bytes to write -/
theorem invisible_unreached {fault : Option Fault} (file : List UInt8) {txid : BitVec 32}
    {data : List UInt8}
    (hno : ∀ f n, fault = some (.fflush f n) → pendingAt f (stages txid data) [] = none)
    (hopen : fault ≠ some .fopen) : Invisible fault file txid data := by
  intro r hr hrc
  rw [logTransactionIo, if_neg hopen] at hr
  obtain ⟨e, he, rfl⟩ := Option.map_eq_some_iff.mp hr
  cases e with
  | ok file' => cases hrc
  | error file' =>
    rw [← List.append_nil file] at he
    exact ⟨issueAll_unreached (stages txid data) [] (offsets_stages txid data) hno he, rfl⟩

/-- a call whose `fflush` of a field fails -/
theorem logTransactionIo_fflush {file before bytes : List UInt8} {txid : BitVec 32}
    {data : List UInt8} {f : TxField} (n : ℕ)
    (hp : pendingAt f (stages txid data) [] = some (before, bytes)) :
    logTransactionIo (some (.fflush f n)) file txid data = some ⟨-1, rollback
      (file ++ before ++ bytes.take n) (before.length + bytes.length : ℕ), false⟩ := by
  have hissue : issueAll (some (.fflush f n)) (stages txid data) (file ++ [])
      = some (.error (rollback (file ++ before ++ bytes.take n)
          (before.length + bytes.length : ℕ))) :=
    issueAll_reached (stages txid data) [] (offsets_stages txid data) hp
  rw [List.append_nil] at hissue
  rw [logTransactionIo, if_neg (by simp), hissue]
  rfl

/-- a call that fails and gives the mutex back -/
theorem invisible_of_failed {fault : Option Fault} {file file' : List UInt8} {txid : BitVec 32}
    {data : List UInt8} (h : logTransactionIo fault file txid data = some ⟨-1, file', false⟩) :
    Invisible fault file txid data ↔ file' = file := by
  unfold Invisible
  rw [h]
  constructor
  · intro hall
    exact (hall _ rfl rfl).1
  · intro he r hr _
    obtain rfl := Option.some.inj hr
    exact ⟨he, rfl⟩

/-- **When a failed append is invisible**: the file was opened, and an `fflush` that failed has
written all its bytes; the first one may also have written none, if the file is shorter than a
txid. -/
theorem invisible_iff (fault : Option Fault) (file : List UInt8) (txid : BitVec 32)
    (data : List UInt8) : Invisible fault file txid data ↔ Undone fault file txid data := by
  rcases fault with _ | ff
  · exact iff_of_true (invisible_unreached file (by simp) (by simp)) trivial
  cases ff with
  | fopen =>
    refine iff_of_false (fun h => ?_) (fun h => h)
    exact absurd (h ⟨-1, file, true⟩ (by simp [logTransactionIo]) rfl).2 (by simp)
  | fwrite f => exact iff_of_true (invisible_unreached file (by simp) (by simp)) trivial
  | fflush f n =>
    by_cases hu : Unreached data f
    · refine iff_of_true (invisible_unreached file ?_ (by simp)) (Or.inl hu)
      intro f' n' he
      cases he
      exact pendingAt_unreached txid hu
    · obtain ⟨before, hp, hb⟩ := pendingAt_reached txid hu
      have hne := TxField.bytes_ne_nil txid hu
      rw [invisible_of_failed (logTransactionIo_fflush n hp), rollback_part file before _ hne n, hb]
      unfold Undone
      simp only [hu, false_or]
      constructor
      · rintro (h | ⟨rfl, h0, hl⟩)
        · exact Or.inl h
        · rw [TxField.bytes, length_intBytes] at hl
          exact Or.inr ⟨rfl, h0, hl⟩
      · rintro (h | ⟨rfl, h0, hl⟩)
        · exact Or.inl h
        · refine Or.inr ⟨rfl, h0, ?_⟩
          rw [TxField.bytes, length_intBytes]
          exact hl

/-- a `PUT` of five bytes -/
def shortRequest : LogRequest := ⟨1, [80, 85, 84, 32, 97], by decide, by decide, by simp⟩

/-- What a call that fails leaves behind on a log of one entry: an `fflush` of the length that
writes nothing costs the entry its last eight bytes, and without the file the mutex stays held. -/
theorem append_leaves_trace :
    logTransactionIo (some (.fflush .dataLen 0)) shortRequest.entryBytes 2 [80]
      = some ⟨-1, shortRequest.entryBytes.take 426, false⟩ ∧
    ¬ Invisible (some (.fflush .dataLen 0)) shortRequest.entryBytes 2 [80] ∧
    ¬ Invisible (some .fopen) shortRequest.entryBytes 2 [80] := by
  decide +kernel

end LsmKv
