import LsmKv.C0

/-!
# The files of c1 (`c1.c`)

A data file is the list of its `lineSize`-byte records.  A step without a result (`none`) is one
where the source uses an unassigned string, follows a NULL pointer or leaves an array.

* `keyval`, `sscanf`             the record of an entry and the scan `"%ms %ms %d"`;
* `merge`                        both cursors, the comparison and the two tail copies;
* `updateSstable`                the index of first letters;
* `c1BatchInsert`                a batch written, merged and indexed;
* `c1Search`, `c1Get`            the lookup.

Every file operation succeeds but the opening of a file that is not there.
-/

namespace LsmKv

/-! ## records -/

/-- the bytes of one record -/
abbrev Line := List Char

def blank : Line := List.replicate lineSize '\x00'

/-- `"%s %s %d\n"` -/
def record (e : Entry) : CStr :=
  e.key ++ ' ' :: (e.value.chars ++ ' ' :: (fmtInt e.flag ++ ['\n']))

/-- `snprintf(keyval, LINE_SIZE, ..)` into a zeroed buffer: cut at the size, a terminator behind -/
def keyval (e : Entry) : Line :=
  let printed := (record e).take (lineSize - 1)
  printed ++ List.replicate (lineSize - printed.length) '\x00'

/-- `sscanf(line, "%ms %ms %d", &key, &val, &valid)`; `none` is a variable left unassigned -/
def sscanf (line : Line) : Option CStr × Option CStr × Option Int :=
  match scanWord (line.takeWhile (· ≠ '\x00')) with
  | none => (none, none, none)
  | some (key, r) =>
    match scanWord r with
    | none => (some key, none, none)
    | some (val, r) => (some key, some val, (scanInt r).map Prod.fst)

/-- `line = calloc(LINE_SIZE, 1); size = fread(line, LINE_SIZE, 1, file)` -/
def fread : List Line → Line × Nat × List Line
  | [] => (blank, 0, [])
  | line :: file => (line, 1, file)

/-! ## merge -/

/-- the local variables of `merge`: a `line` that is NULL is `none`, a `valid` that no scan has
assigned yet too; `file1` and `file2` are what is left to read, `out` is what was written -/
structure MergeState where
  line1 : Option Line
  line2 : Option Line
  file1 : List Line
  file2 : List Line
  size1 : Nat
  size2 : Nat
  valid1 : Option Int
  valid2 : Option Int
  out : List Line

/-- `if (line1 == NULL) { .. if (size1 == 0) break; }`; the flag says whether the loop ends -/
def refill1 (s : MergeState) : Bool × MergeState :=
  match s.line1 with
  | some _ => (false, s)
  | none =>
    let (line, size, file) := fread s.file1
    (size == 0, { s with line1 := some line, size1 := size, file1 := file })

def refill2 (s : MergeState) : Bool × MergeState :=
  match s.line2 with
  | some _ => (false, s)
  | none =>
    let (line, size, file) := fread s.file2
    (size == 0, { s with line2 := some line, size2 := size, file2 := file })

/-- `if (!valid) write(mergefd, line, LINE_SIZE)` -/
def writeUnless (valid : Int) (line : Line) (out : List Line) : List Line :=
  if valid = 0 then out ++ [line] else out

/-- the comparison of the two lines held; on equal keys it is `line2` that is written -/
def mergeCompare (s : MergeState) : Option MergeState :=
  match s.line1, s.line2 with
  | some line1, some line2 =>
    match sscanf line1, sscanf line2 with
    | (some key1, some _, d1), (some key2, some _, d2) =>
      let valid1 := d1.or s.valid1
      let valid2 := d2.or s.valid2
      let s := { s with valid1 := valid1, valid2 := valid2 }
      if strcmp key1 key2 < 0 then
        valid1.map fun v => { s with line1 := none, out := writeUnless v line1 s.out }
      else if strcmp key1 key2 > 0 then
        valid2.map fun v => { s with line2 := none, out := writeUnless v line2 s.out }
      else
        valid2.map fun v =>
          { s with line1 := none, line2 := none, out := writeUnless v line2 s.out }
    | _, _ => none
  | _, _ => none

def mergeLoop : Nat → MergeState → Option MergeState
  | 0, _ => none
  | fuel + 1, s =>
    match refill1 s with
    | (true, s) => some s
    | (false, s) =>
      match refill2 s with
      | (true, s) => some s
      | (false, s) => (mergeCompare s).bind (mergeLoop fuel)

/-- the two tail copies: the first leaves `size1 == 0` and a zeroed `line2` behind it, so the
second one follows it -/
def mergeTail (s : MergeState) : Option (List Line) :=
  (if s.size2 = 0 then
    match s.line1 with
    | none => none
    | some line1 => some { s with
        line1 := some blank, size1 := 0, file1 := [], out := s.out ++ line1 :: s.file1 }
  else some s).map fun s =>
    if s.size1 = 0 then s.out ++ (s.line2.toList ++ s.file2) else s.out

/-- Every round but the last one uses up a line. -/
def merge (file1 file2 : List Line) : Option (List Line) :=
  (mergeLoop (file1.length + file2.length + 1)
    ⟨none, none, file1, file2, 0, 0, none, none, []⟩).bind mergeTail

/-! ## the index -/

def indexSize : Nat := 62

def charset : CStr := "0123456789ABCDEFGHIJKLMNOPQRSTUVWXYZabcdefghijklmnopqrstuvwxyz".toList

/-- `strchr` finds the terminator too -/
def charToIdx (c : Char) : Int :=
  if c = '\x00' then charset.length
  else match charset.findIdx? (· = c) with
    | some i => i
    | none => -1

/-- a subscript of an array of `indexSize` slots -/
def slot (i : Int) : Option Nat :=
  if 0 ≤ i ∧ i < indexSize then some i.toNat else none

/-- `line[0]`, `key[0]` -/
def first (s : CStr) : Char := s.headD '\x00'

structure C1Metadata where
  counterValue : Int
  ssindex : Nat → Int

/-- the reading loop of `update_sstable`; `p` counts the records read -/
def indexLoop : List Line → Nat → (Nat → Int) → (Nat → Bool) → Option (Nat → Int)
  | [], _, ssindex, _ => some ssindex
  | line :: file, p, ssindex, boolmask =>
    match slot (charToIdx (first line)) with
    | none => none
    | some idx =>
      if boolmask idx then indexLoop file (p + 1) ssindex boolmask
      else indexLoop file (p + 1) (Function.update ssindex idx (p * lineSize))
        (Function.update boolmask idx true)

def updateSstable (dfile : List Line) (fileCounter : Int) (md : C1Metadata) : Option C1Metadata :=
  (indexLoop dfile 0 md.ssindex fun _ => false).map fun ssindex =>
    ⟨fileCounter, fun i => if ssindex i = 0 then -1 else ssindex i⟩

/-! ## the batch -/

/-- `file_counter`, the data files by number, `metadata` (`none` before `c1_init`) and what the
sstable file holds -/
structure C1 where
  fileCounter : Int
  files : Int → Option (List Line)
  metadata : Option C1Metadata
  sstable : Option C1Metadata

/-- a process that has run `c1_init` on an empty directory -/
def C1.empty : C1 := ⟨-1, fun _ => none, some ⟨0, fun _ => 0⟩, none⟩

/-- `load_metadata`: a fresh `metadata`, filled from the sstable file if there is one -/
def c1Init (c : C1) : C1 :=
  match c.sstable with
  | none => { c with metadata := some ⟨0, fun _ => 0⟩ }
  | some md => { c with metadata := some md, fileCounter := md.counterValue }

/-- opening the current file, `update_sstable` and `dump_metadata`; where the file cannot be
opened the source calls `fclose(NULL)` -/
def c1Publish (c : C1) : Option (Int × C1) :=
  match c.files c.fileCounter with
  | none => none
  | some currfile => do
    let md ← c.metadata
    let md ← updateSstable currfile c.fileCounter md
    some (0, { c with metadata := some md, sstable := some md })

def c1BatchInsert (c : C1) (nodes : List Entry) : Option (Int × C1) :=
  let n := c.fileCounter + 1
  let batch := nodes.map keyval
  let c := { c with fileCounter := n, files := Function.update c.files n (some batch) }
  if n > 0 then
    match c.files (n - 1) with
    | none => some (-1, c)
    | some old => do
      let out ← merge batch old
      c1Publish { c with fileCounter := n + 1, files := Function.update c.files (n + 1) (some out) }
  else c1Publish c

/-! ## the lookup -/

/-- The value found, `none` for NULL; each call halves `endline - startline + 1`. -/
def c1SearchFuel (file : List Line) (key : CStr) : Nat → Int → Int → Option (Option CStr)
  | 0, _, _ => none
  | fuel + 1, startline, endline =>
    if endline ≥ startline then
      let mid := (endline - startline) / 2 + startline
      match if 0 ≤ mid then file[mid.toNat]? else none with
      | none => none
      | some line =>
        match sscanf line with
        | (some rKey, some val, _) =>
          if strcmp rKey key = 0 then some (some val)
          else if strcmp rKey key > 0 then c1SearchFuel file key fuel startline (mid - 1)
          else c1SearchFuel file key fuel (mid + 1) endline
        | _ => none
    else some none

def c1Search (file : List Line) (key : CStr) (startline endline : Int) : Option (Option CStr) :=
  c1SearchFuel file key ((endline - startline + 1).toNat + 1) startline endline

def c1Get (c : C1) (key : CStr) : Option (Option CStr) :=
  match c.files c.fileCounter with
  | none => some none
  | some file => do
    let md ← c.metadata
    let numlines : Int := file.length
    let i ← slot (charToIdx (first key))
    let j ← slot (charToIdx (first key) + 1)
    let startline := if md.ssindex i = -1 then 0 else (md.ssindex i).tdiv lineSize
    let endline := if md.ssindex j = -1 then numlines else (md.ssindex j).tdiv lineSize
    let endline := if endline > numlines then numlines else endline
    c1Search file key startline (endline - 1)

end LsmKv
