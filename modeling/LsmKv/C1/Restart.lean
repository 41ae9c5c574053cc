import LsmKv.C1.Index
import LsmKv.Journal.Bytes

/-!
# c1 after a restart (`c1.c`)

The metadata goes through the 500 bytes of the sstable file.

* `marshallMetadata`, `unmarshallMetadata`   the bytes of a counter and of the index;
* `dumpMetadata`, `loadMetadata`             the file, and the global counter set from it;
* `C1Process`            a process between two calls, with the files behind it;
* `c1Step`               a batch that succeeds, or another process that runs `c1_init`;
* `loadMetadata_dump`    what was dumped is loaded;
* `restart_same`         after any run a fresh process has the same counter and index, and so it
                         reads the same lines.
-/

namespace LsmKv

open FixedRecords Run

/-! ## the bytes -/

def sizeofLong : ℕ := 8

/-- `sizeof(md->ssindex)` -/
def sizeofSsindex : ℕ := indexSize * sizeofLong

/-- `sizeof(c1_metadata)`: four bytes of padding behind the counter -/
def sizeofC1Metadata : ℕ := sizeofInt + 4 + sizeofSsindex

/-- a `long` in memory -/
def longBytes (x : BitVec 64) : List UInt8 := leBytes sizeofLong x.toNat

/-- the values of a `long` -/
def IsLong (x : Int) : Prop := -2 ^ 63 ≤ x ∧ x < 2 ^ 63

instance (x : Int) : Decidable (IsLong x) := inferInstanceAs (Decidable (_ ∧ _))

/-- the counter and the offsets are what their types can hold -/
def C1Metadata.Typed (md : C1Metadata) : Prop :=
  IsInt md.counterValue ∧ ∀ i < indexSize, IsLong (md.ssindex i)

instance (md : C1Metadata) : Decidable md.Typed := inferInstanceAs (Decidable (_ ∧ _))

/-- What `marshall_metadata` copies, without the padding; a number that has left its type has no
bytes. -/
def marshallMetadata (md : C1Metadata) : Option (List UInt8) :=
  if md.Typed then
    some (intBytes (BitVec.ofInt 32 md.counterValue) ++
      ((List.range indexSize).map fun i => longBytes (BitVec.ofInt 64 (md.ssindex i))).flatten)
  else none

/-- `unmarshall_metadata`: `none` where it would read outside the buffer -/
def unmarshallMetadata (buffer : List UInt8) : Option C1Metadata := do
  let seek := 0
  let counterValue ← slice buffer seek sizeofInt
  let seek := seek + sizeofInt
  let ssindex ← slice buffer seek sizeofSsindex
  some ⟨(BitVec.ofNat 32 (leVal counterValue)).toInt, fun i =>
    (BitVec.ofNat 64 (leVal ((ssindex.drop (sizeofLong * i)).take sizeofLong))).toInt⟩

/-! ## the sstable file -/

/-- the files of the directory but for the data files, by their path -/
abbrev Dir := CStr → Option (List UInt8)

def dbDir : CStr := "./.db".toList

def sstable : CStr := "sstable".toList

/-- `snprintf(filename, size, "%s/%s", DB_DIR, SSTABLE)` -/
def sstableName (size : ℕ) : CStr := (dbDir ++ '/' :: sstable).take (size - 1)

/-- `dump_metadata`: the file is emptied first -/
def dumpMetadata (dir : Dir) (md : C1Metadata) : Option Dir := do
  let buf ← marshallMetadata md
  some (Function.update dir (sstableName (dbDir.length + sstable.length + 3)) (some buf))

/-- `load_metadata`: the metadata and `file_counter` after it.  A file that is too short for the one
`fread` counts as none. -/
def loadMetadata (dir : Dir) (fileCounter : Int) : Option (C1Metadata × Int) :=
  match dir (sstableName 15) with
  | none => some (⟨0, fun _ => 0⟩, fileCounter)
  | some file =>
    let size := sizeofSsindex + sizeofInt
    if file.length < size then some (⟨0, fun _ => 0⟩, fileCounter)
    else do
      let buf := file.take size ++ List.replicate (sizeofC1Metadata - size) 0
      let md ← unmarshallMetadata buf
      some (md, md.counterValue)

/-- both calls name the same file -/
theorem sstableName_eq :
    sstableName 15 = sstableName (dbDir.length + sstable.length + 3) := by decide

theorem leVal_longBytes (x : BitVec 64) : BitVec.ofNat 64 (leVal (longBytes x)) = x :=
  leVal_sizeBytes x

@[simp] theorem length_longBytes (x : BitVec 64) : (longBytes x).length = sizeofLong :=
  length_leBytes ..

theorem toInt_ofInt_of_isLong {x : Int} (h : IsLong x) : (BitVec.ofInt 64 x).toInt = x :=
  BitVec.toInt_ofInt_eq_self (by decide) h.1 h.2

/-- the bytes of all offsets -/
def ssindexBytes (md : C1Metadata) : List (List UInt8) :=
  (List.range indexSize).map fun i => longBytes (BitVec.ofInt 64 (md.ssindex i))

theorem length_of_mem_ssindexBytes (md : C1Metadata) :
    ∀ y ∈ ssindexBytes md, y.length = sizeofLong := by
  intro y hy
  obtain ⟨i, -, rfl⟩ := List.mem_map.mp hy
  exact length_longBytes _

theorem length_ssindexBytes (md : C1Metadata) :
    (ssindexBytes md).flatten.length = sizeofSsindex := by
  rw [length_flatten_records (length_of_mem_ssindexBytes md), ssindexBytes, List.length_map,
    List.length_range, sizeofSsindex, Nat.mul_comm]

theorem length_marshallMetadata {md : C1Metadata} {bytes : List UInt8}
    (h : marshallMetadata md = some bytes) : bytes.length = sizeofSsindex + sizeofInt := by
  unfold marshallMetadata at h
  split_ifs at h
  obtain rfl := Option.some.inj h
  rw [List.length_append, length_intBytes, ← ssindexBytes, length_ssindexBytes, Nat.add_comm]

/-- **`unmarshall_metadata` undoes `marshall_metadata`**, whatever stands behind the bytes. -/
theorem unmarshall_marshallMetadata {md : C1Metadata} {bytes : List UInt8}
    (h : marshallMetadata md = some bytes) (rest : List UInt8) :
    ∃ md', unmarshallMetadata (bytes ++ rest) = some md' ∧
      md'.counterValue = md.counterValue ∧ ∀ i < indexSize, md'.ssindex i = md.ssindex i := by
  unfold marshallMetadata at h
  split_ifs at h with htyped
  obtain ⟨hint, hlong⟩ := htyped
  obtain rfl := Option.some.inj h
  rw [← ssindexBytes]
  have h1 : slice (intBytes (BitVec.ofInt 32 md.counterValue) ++ (ssindexBytes md).flatten ++ rest)
      0 sizeofInt = some (intBytes (BitVec.ofInt 32 md.counterValue)) := by
    rw [List.append_assoc]
    exact slice_field (a := []) rfl (length_intBytes _)
  have h2 : slice (intBytes (BitVec.ofInt 32 md.counterValue) ++ (ssindexBytes md).flatten ++ rest)
      (0 + sizeofInt) sizeofSsindex = some (ssindexBytes md).flatten := by
    rw [List.append_assoc]
    exact slice_field (by simp) (length_ssindexBytes md)
  unfold unmarshallMetadata
  simp only [h1, h2, Option.bind_eq_bind, Option.bind_some, leVal_intBytes]
  refine ⟨_, rfl, toInt_ofInt_of_isInt hint, ?_⟩
  intro i hi
  have hrec : (ssindexBytes md)[i]? = some (longBytes (BitVec.ofInt 64 (md.ssindex i))) := by
    rw [ssindexBytes, List.getElem?_map, List.getElem?_range hi]
    rfl
  show (BitVec.ofNat 64 (leVal _)).toInt = md.ssindex i
  rw [take_drop_flatten (length_of_mem_ssindexBytes md) hrec, leVal_longBytes,
    toInt_ofInt_of_isLong (hlong i hi)]

/-- **What was dumped is loaded**: the global counter and all slots, from 500 bytes. -/
theorem loadMetadata_dump {dir dir' : Dir} {md : C1Metadata} (h : dumpMetadata dir md = some dir')
    (fileCounter : Int) :
    ∃ md', loadMetadata dir' fileCounter = some (md', md.counterValue) ∧
      md'.counterValue = md.counterValue ∧ ∀ i < indexSize, md'.ssindex i = md.ssindex i := by
  obtain ⟨bytes, hbytes, hdir⟩ := Option.bind_eq_some_iff.mp h
  obtain rfl := Option.some.inj hdir
  have hlen := length_marshallMetadata hbytes
  obtain ⟨md', hread, hcount, hslots⟩ := unmarshall_marshallMetadata hbytes
    (List.replicate (sizeofC1Metadata - (sizeofSsindex + sizeofInt)) 0)
  refine ⟨md', ?_, hcount, hslots⟩
  unfold loadMetadata
  rw [sstableName_eq, Function.update_self]
  dsimp only
  rw [if_neg (by omega), List.take_of_length_le hlen.le, hread, ← hcount]
  rfl

theorem dumpMetadata_eq {md : C1Metadata} (h : md.Typed) (dir : Dir) :
    ∃ bytes, bytes.length = 500 ∧ marshallMetadata md = some bytes ∧
      dumpMetadata dir md = some (Function.update dir (sstableName 15) (some bytes)) := by
  have hbytes : marshallMetadata md = some _ := if_pos h
  refine ⟨_, length_marshallMetadata hbytes, hbytes, ?_⟩
  rw [dumpMetadata, hbytes, sstableName_eq]
  rfl

/-! ## processes -/

/-- `file_counter`, the data files by number, `metadata` and the other files -/
structure C1Process where
  fileCounter : Int
  files : Int → Option (List Line)
  metadata : C1Metadata
  dir : Dir

/-- what `c1_batch_insert` and `c1_get` go by -/
def C1Process.mem (p : C1Process) : C1 := ⟨p.fileCounter, p.files, some p.metadata, none⟩

/-- A fresh process that runs `c1_init`. -/
def c1Start (files : Int → Option (List Line)) (dir : Dir) : Option C1Process := do
  let (md, fileCounter) ← loadMetadata dir (-1)
  some ⟨fileCounter, files, md, dir⟩

/-- A batch that succeeds; the last thing it does is to dump its metadata. -/
def batchDump (p : C1Process) (nodes : List Entry) : Option C1Process := do
  let c ← batchStep p.mem nodes
  let md ← c.metadata
  let dir ← dumpMetadata p.dir md
  some ⟨c.fileCounter, c.files, md, dir⟩

inductive C1Action where
  | batch (nodes : List Entry)
  | restart

def c1Step (p : C1Process) : C1Action → Option C1Process
  | .batch nodes => batchDump p nodes
  | .restart => c1Start p.files p.dir

/-- the same counter, the same slots, and so the same file and lines for every key -/
structure SameC1 (q p : C1Process) : Prop where
  counter : q.fileCounter = p.fileCounter
  ssindex : ∀ i < indexSize, q.metadata.ssindex i = p.metadata.ssindex i
  file : q.files q.fileCounter = p.files p.fileCounter
  range : ∀ numlines key, lineRange q.metadata numlines key = lineRange p.metadata numlines key
  get : ∀ key, c1Get q.mem key = c1Get p.mem key
  getInt : ∀ key, c1GetInt q.mem key = c1GetInt p.mem key

theorem slot_lt {i : Int} {n : ℕ} (h : slot i = some n) : n < indexSize := by
  unfold slot at h
  split_ifs at h with hi
  obtain rfl := Option.some.inj h
  omega

/-- only the slots of the array are read -/
theorem lineRange_congr {md md' : C1Metadata} (h : ∀ i < indexSize, md'.ssindex i = md.ssindex i)
    (numlines : Int) (key : CStr) : lineRange md' numlines key = lineRange md numlines key := by
  unfold lineRange
  cases hi : slot (charToIdx (first key)) with
  | none => rfl
  | some i =>
    cases hj : slot (charToIdx (first key) + 1) with
    | none => rfl
    | some j =>
      simp only [Option.bind_eq_bind, Option.bind_some]
      rw [h i (slot_lt hi), h j (slot_lt hj)]

/-- `c1_get` goes by the current file and by the slots of the array -/
theorem c1Get_congr {c d : C1} {md md' : C1Metadata} (hc : c.metadata = some md')
    (hd : d.metadata = some md) (hfile : c.files c.fileCounter = d.files d.fileCounter)
    (h : ∀ i < indexSize, md'.ssindex i = md.ssindex i) (key : CStr) :
    c1Get c key = c1Get d key ∧ c1GetInt c key = c1GetInt d key := by
  unfold c1Get c1GetInt
  rw [hfile, hc, hd]
  cases d.files d.fileCounter with
  | none => exact ⟨rfl, rfl⟩
  | some file =>
    simp only [Option.bind_eq_bind, Option.bind_some]
    refine ⟨?_, by rw [lineRange_congr h]⟩
    cases hi : slot (charToIdx (first key)) with
    | none => rfl
    | some i =>
      cases hj : slot (charToIdx (first key) + 1) with
      | none => rfl
      | some j => simp only [Option.bind_some, h i (slot_lt hi), h j (slot_lt hj)]

theorem SameC1.of_slots {q p : C1Process} (hc : q.fileCounter = p.fileCounter)
    (hf : q.files = p.files) (hs : ∀ i < indexSize, q.metadata.ssindex i = p.metadata.ssindex i) :
    SameC1 q p := by
  have hfile : q.files q.fileCounter = p.files p.fileCounter := by rw [hf, hc]
  have hget := c1Get_congr (c := q.mem) (d := p.mem) rfl rfl hfile hs
  exact ⟨hc, hs, hfile, lineRange_congr hs, fun key => (hget key).1, fun key => (hget key).2⟩

/-! ## restarts -/

/-- a fresh process on the same files has the same c1 -/
def Restarts (p : C1Process) : Prop := ∃ q, c1Start p.files p.dir = some q ∧ SameC1 q p

/-- the counter that `update_sstable` stores is the global one -/
theorem counterValue_updateSstable {file : List Line} {n : Int} {md md' : C1Metadata}
    (h : updateSstable file n md = some md') : md'.counterValue = n := by
  obtain ⟨s, -, rfl⟩ := Option.map_eq_some_iff.mp h
  rfl

/-- a fresh process is what the next fresh process is -/
theorem Restarts.start {files : Int → Option (List Line)} {dir : Dir} {p : C1Process}
    (h : c1Start files dir = some p) : Restarts p := by
  have hkeep : p.files = files ∧ p.dir = dir := by
    obtain ⟨r, -, hr⟩ := Option.bind_eq_some_iff.mp h
    obtain rfl := Option.some.inj hr
    exact ⟨rfl, rfl⟩
  refine ⟨p, ?_, SameC1.of_slots rfl rfl fun i _ => rfl⟩
  rw [hkeep.1, hkeep.2]
  exact h

/-- **A batch leaves on disk what it leaves in memory.** -/
theorem Restarts.batch {p p' : C1Process} {nodes : List Entry} (h : batchDump p nodes = some p') :
    Restarts p' := by
  obtain ⟨c, hc, h⟩ := Option.bind_eq_some_iff.mp h
  obtain ⟨md, hmd, h⟩ := Option.bind_eq_some_iff.mp h
  obtain ⟨dir, hdir, h⟩ := Option.bind_eq_some_iff.mp h
  obtain rfl := Option.some.inj h
  obtain ⟨file, md0, md1, -, -, hup, hmd1, -, -⟩ := batchStep_cases hc
  obtain rfl : md1 = md := Option.some.inj (hmd1.symm.trans hmd)
  have hcount := counterValue_updateSstable hup
  obtain ⟨md2, hload, -, hslots⟩ := loadMetadata_dump hdir (-1)
  refine ⟨⟨md1.counterValue, c.files, md2, dir⟩, ?_, SameC1.of_slots hcount rfl hslots⟩
  show (loadMetadata dir (-1)).bind _ = _
  rw [hload]
  rfl

theorem Restarts.step {p p' : C1Process} {a : C1Action} (h : c1Step p a = some p') :
    Restarts p' := by
  cases a with
  | batch nodes => exact Restarts.batch h
  | restart => exact Restarts.start h

/-- The bytes stand for the metadata: `c1_init` on what was dumped is `c1Init` on the metadata. -/
theorem c1Start_eq_c1Init {dir dir' : Dir} {md : C1Metadata} (h : dumpMetadata dir md = some dir')
    (files : Int → Option (List Line)) :
    ∃ q md', c1Start files dir' = some q ∧
      (c1Init ⟨-1, files, none, some md⟩).metadata = some md' ∧
      q.fileCounter = (c1Init ⟨-1, files, none, some md⟩).fileCounter ∧
      q.files = (c1Init ⟨-1, files, none, some md⟩).files ∧
      ∀ i < indexSize, q.metadata.ssindex i = md'.ssindex i := by
  obtain ⟨md2, hload, -, hslots⟩ := loadMetadata_dump h (-1)
  refine ⟨⟨md.counterValue, files, md2, dir'⟩, md, ?_, rfl, rfl, rfl, hslots⟩
  show (loadMetadata dir' (-1)).bind _ = _
  rw [hload]
  rfl

/-- **A restart sees the same c1**, after every run of batches and restarts on any directory: the
500 bytes hold every counter and all offsets.  Without the sstable file a process starts as the
first one did. -/
theorem restart_same :
    (∀ (md : C1Metadata) (dir : Dir), md.Typed → ∃ bytes md', bytes.length = 500 ∧
      dumpMetadata dir md = some (Function.update dir (sstableName 15) (some bytes)) ∧
      loadMetadata (Function.update dir (sstableName 15) (some bytes)) (-1)
        = some (md', md.counterValue) ∧ md'.counterValue = md.counterValue ∧
      ∀ i < indexSize, md'.ssindex i = md.ssindex i) ∧
    (∀ (files : Int → Option (List Line)) (dir : Dir) (acts : List C1Action) (p0 p : C1Process),
      c1Start files dir = some p0 → run c1Step p0 acts = some p →
      ∃ q, c1Start p.files p.dir = some q ∧ SameC1 q p) ∧
    ∀ (files : Int → Option (List Line)) (dir : Dir), dir (sstableName 15) = none →
      c1Start files dir = some ⟨-1, files, ⟨0, fun _ => 0⟩, dir⟩ := by
  refine ⟨?_, ?_, ?_⟩
  · intro md dir htyped
    obtain ⟨bytes, hlen, -, hdump⟩ := dumpMetadata_eq htyped dir
    obtain ⟨md', hload, hcount, hslots⟩ := loadMetadata_dump hdump (-1)
    exact ⟨bytes, md', hlen, hdump, hload, hcount, hslots⟩
  · intro files dir acts p0 p h0 hrun
    exact inv_of_guarded (fun _ _ _ _ (_ : True) hs => Restarts.step hs)
      (Restarts.start h0) (guarded_of_forall fun _ _ _ => trivial) hrun
  · intro files dir hnone
    unfold c1Start loadMetadata
    rw [hnone]
    rfl

/-- A batch, another process, a batch; and the offsets -1 as they are dumped. -/
theorem restart_same_two : (⟨-1, fun _ => -1⟩ : C1Metadata).Typed ∧
    (∃ bytes md', bytes.length = 500 ∧
      loadMetadata (Function.update (fun _ => none) (sstableName 15) (some bytes)) (-1)
        = some (md', -1) ∧ md'.ssindex 61 = -1) ∧
    ∃ p0 p q, c1Start (fun _ => none) (fun _ => none) = some p0 ∧
      run c1Step p0 [.batch [oldA], .restart, .batch [oldA]] = some p ∧
      c1Start p.files p.dir = some q ∧ SameC1 q p := by
  have htyped : (⟨-1, fun _ => -1⟩ : C1Metadata).Typed := by decide
  obtain ⟨bytes, md', hlen, -, hload, -, hslots⟩ :=
    restart_same.1 ⟨-1, fun _ => -1⟩ (fun _ => none) htyped
  have hrun : (run c1Step ⟨-1, fun _ => none, ⟨0, fun _ => 0⟩, fun _ => none⟩
      [.batch [oldA], .restart, .batch [oldA]]).isSome = true := by decide +kernel
  obtain ⟨p, hp⟩ := Option.isSome_iff_exists.mp hrun
  have hstart := restart_same.2.2 (fun _ => none) (fun _ => none) rfl
  obtain ⟨q, hq, hsame⟩ := restart_same.2.1 _ _ _ _ p hstart hp
  exact ⟨htyped, ⟨bytes, md', hlen, hload, hslots 61 (by decide)⟩, _, p, q, hstart, hp, hq, hsame⟩

end LsmKv
