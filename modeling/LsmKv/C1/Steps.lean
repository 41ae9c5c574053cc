import LsmKv.C1
import LsmKv.Lib.Crash
import Mathlib.Tactic.IntervalCases

/-!
# The calls of a batch insert (`c1.c`)

`c1_batch_insert`, `merge`, `update_sstable` and `dump_metadata` call by call.  A call may fail,
and the process may end before it; a record goes to its file in one call.

* `Dev`                  c1 and the calls that changed a file, in their order;
* `c1BatchInsertIo`      the source's path through `C1.lean`, with the error returns;
* `restart`              the process that comes up on the files left, after `c1_init`;
* `wp_writeLines` .. `wp_c1PublishIo`   the parts of a call, said once for all proofs.

Where the source uses a NULL pointer (`fclose(NULL)`, `md->ssindex`, a stream that was not opened)
the process dies.
-/

namespace LsmKv

open Crash Crash.Code

/-- a call that changed the files; `create` keeps the `counter_value` that the sstable file
held -/
inductive FsOp where
  | create (n : Int) (counter : Option Int)
  | write (n : Int)
  | truncateSstable
  | writeSstable
  deriving DecidableEq, Repr

structure Dev where
  c1 : C1
  log : List FsOp

/-- the `counter_value` in the sstable file -/
def C1.stored (c : C1) : Option Int := c.sstable.map C1Metadata.counterValue

namespace Dev

/-- `open(.., O_TRUNC)` of data file `n` -/
def create (n : Int) (d : Dev) : Dev :=
  ⟨{ d.c1 with files := Function.update d.c1.files n (some []) },
    d.log ++ [.create n d.c1.stored]⟩

/-- one `write` of `LINE_SIZE` bytes to the data file `n`, which is open -/
def write (n : Int) (line : Line) (d : Dev) : Dev :=
  ⟨{ d.c1 with files := Function.update d.c1.files n ((d.c1.files n).map (· ++ [line])) },
    d.log ++ [.write n]⟩

/-- `fopen(.., "w")` of the sstable file -/
def truncateSstable (d : Dev) : Dev :=
  ⟨{ d.c1 with sstable := none }, d.log ++ [.truncateSstable]⟩

/-- `fwrite` and `fclose` -/
def writeSstable (md : C1Metadata) (d : Dev) : Dev :=
  ⟨{ d.c1 with sstable := some md }, d.log ++ [.writeSstable]⟩

def setCounter (n : Int) (d : Dev) : Dev := { d with c1 := { d.c1 with fileCounter := n } }

def setMetadata (md : C1Metadata) (d : Dev) : Dev :=
  { d with c1 := { d.c1 with metadata := some md } }

end Dev

/-- `open` or `fopen` for reading: what the file holds -/
def openRead (n : Int) : Code Dev (Option (List Line)) := do
  let ok ← call id
  let d ← get
  return if ok then d.c1.files n else none

def writeLines (n : Int) : List Line → Code Dev Bool
  | [] => return true
  | line :: lines => do
    if ← call (Dev.write n line) then writeLines n lines else return false

/-- the loop over the nodes: `snprintf` and `write` -/
def writeRecords (n : Int) : List Entry → Code Dev Bool
  | [] => return true
  | e :: nodes => do
    if ← call id then
      if ← call (Dev.write n (keyval e)) then writeRecords n nodes else return false
    else return false

/-- what `merge` wrote between two states of its variables -/
def writeNew (n : Int) (old new : List Line) : Code Dev Bool := writeLines n (new.drop old.length)

/-- the loop of `merge`; no state is the `return -1` of a failed write -/
def mergeLoopIo (n : Int) : Nat → MergeState → Code Dev (Option MergeState)
  | 0, _ => ofOption none
  | fuel + 1, s =>
    match refill1 s with
    | (true, s) => return some s
    | (false, s) =>
      match refill2 s with
      | (true, s) => return some s
      | (false, s) => do
        let s' ← ofOption (mergeCompare s)
        if ← writeNew n s.out s'.out then mergeLoopIo n fuel s' else return none

def mergeIo (file1 file2 : List Line) : Code Dev Int := do
  let d ← get
  let n := d.c1.fileCounter + 1
  modify (Dev.setCounter n)
  if ← call (Dev.create n) then
    let s ← mergeLoopIo n (file1.length + file2.length + 1)
      ⟨none, none, file1, file2, 0, 0, none, none, []⟩
    match s with
    | none => return -1
    | some s => do
      let out ← ofOption (mergeTail s)
      if ← writeNew n s.out out then return 0 else return -1
  else return -1

/-- opening the current file, `update_sstable` and `dump_metadata`; the result of `fwrite` is not
looked at -/
def c1PublishIo : Code Dev Int := do
  let d ← get
  match ← openRead d.c1.fileCounter with
  | none => die
  | some currfile =>
    match d.c1.metadata with
    | none => die
    | some md => do
      let md ← ofOption (updateSstable currfile d.c1.fileCounter md)
      modify (Dev.setMetadata md)
      if ← call Dev.truncateSstable then
        let _ ← call (Dev.writeSstable md)
        return 0
      else die

/-- the merge with the file before; `file1` is read from its beginning again: the records just
written -/
def mergeOld (n : Int) (nodes : List Entry) : Code Dev Int := do
  match ← openRead (n - 1) with
  | none => return -1
  | some old => do
    -- the two calls of fdopen
    if ← call id then
      if ← call id then mergeIo (nodes.map keyval) old else return -1
    else return -1

def c1BatchInsertIo (nodes : List Entry) : Code Dev Int := do
  let d ← get
  let n := d.c1.fileCounter + 1
  modify (Dev.setCounter n)
  if ← call (Dev.create n) then
    if ← writeRecords n nodes then
      if n > 0 then
        let rc ← mergeOld n nodes
        if rc = -1 then return -1 else c1PublishIo
      else c1PublishIo
    else return -1
  else return -1

/-- `c1_init` in a new process -/
def restart (c : C1) : C1 := c1Init { c with fileCounter := -1, metadata := none }

/-! ## what the parts do -/

/-- `lines` appended to data file `n` -/
def Dev.wrote (n : Int) (lines : List Line) (d : Dev) : Dev :=
  ⟨{ d.c1 with files := Function.update d.c1.files n ((d.c1.files n).map (· ++ lines)) },
    d.log ++ List.replicate lines.length (.write n)⟩

theorem Dev.wrote_nil (n : Int) (d : Dev) : d.wrote n [] = d := by
  simp [Dev.wrote]

theorem Dev.wrote_wrote (n : Int) (lines lines' : List Line) (d : Dev) :
    (d.wrote n lines).wrote n lines' = d.wrote n (lines ++ lines') := by
  simp [Dev.wrote, ← List.replicate_append_replicate, Function.comp_def]

theorem Dev.write_eq (n : Int) (line : Line) (d : Dev) : d.write n line = d.wrote n [line] := rfl

/-- a write loop that was left early: by a failed call or by the end of the process -/
structure Cut (n : Int) (lines : List Line) (calls : ℕ) (os : List Outcome) (d t : Dev) :
    Prop where
  part : ∃ k, t = d.wrote n (lines.take k)
  notOks : ¬ Oks calls os

theorem Cut.head {n : Int} {lines : List Line} {calls : ℕ} {os : List Outcome} {d : Dev}
    (h : os.headD .ok ≠ .ok) : Cut n lines (calls + 1) os d d :=
  ⟨⟨0, (Dev.wrote_nil n d).symm⟩, fun ho => h ho.1⟩

theorem Cut.later {n : Int} {lines : List Line} {calls : ℕ} {os : List Outcome} {d t : Dev}
    (h : Cut n lines calls os.tail d t) : Cut n lines (calls + 1) os d t :=
  ⟨h.part, fun ho => h.notOks ho.2⟩

theorem Cut.cons {n : Int} {line : Line} {lines : List Line} {calls : ℕ} {os : List Outcome}
    {d t : Dev} (h : Cut n lines calls os (d.write n line) t) :
    Cut n (line :: lines) calls os d t := by
  obtain ⟨⟨k, rfl⟩, hn⟩ := h
  refine ⟨⟨k + 1, ?_⟩, hn⟩
  rw [Dev.write_eq, Dev.wrote_wrote]
  rfl

theorem wp_writeLines (n : Int) (lines : List Line) : ∀ (d : Dev) (os : List Outcome),
    wp (writeLines n lines)
      (fun b t os' => match b with
        | true => t = d.wrote n lines ∧ Oks lines.length os ∧ os' = os.drop lines.length
        | false => Cut n lines lines.length os d t ∧ ¬ NoFails os)
      (Cut n lines lines.length os d) d os := by
  induction lines with
  | nil => exact fun d os => ⟨(Dev.wrote_nil n d).symm, trivial, rfl⟩
  | cons line lines ih =>
    intro d os
    unfold writeLines
    rw [wp_bind, wp_call]
    refine ⟨fun hok => ?_, fun hf => ?_, fun hc => Cut.head (by rw [hc]; decide)⟩
    · refine wp_mono (ih (d.write n line) os.tail) (fun b t os' h => ?_) fun t h => h.cons.later
      cases b with
      | true =>
        obtain ⟨rfl, ho, rfl⟩ := h
        refine ⟨by rw [Dev.write_eq, Dev.wrote_wrote]; rfl, ⟨hok, ho⟩, ?_⟩
        rw [← List.drop_one, List.drop_drop, Nat.add_comm, List.length_cons]
      | false => exact ⟨h.1.cons.later, fun hn => h.2 hn.tail⟩
    · exact ⟨Cut.head (by rw [hf]; decide), not_noFails_of_head hf⟩

theorem wp_writeRecords (n : Int) (nodes : List Entry) : ∀ (d : Dev) (os : List Outcome),
    wp (writeRecords n nodes)
      (fun b t os' => match b with
        | true => t = d.wrote n (nodes.map keyval) ∧ Oks (2 * nodes.length) os ∧
            os' = os.drop (2 * nodes.length)
        | false => Cut n (nodes.map keyval) (2 * nodes.length) os d t ∧ ¬ NoFails os)
      (Cut n (nodes.map keyval) (2 * nodes.length) os d) d os := by
  induction nodes with
  | nil => exact fun d os => ⟨(Dev.wrote_nil n d).symm, trivial, rfl⟩
  | cons e nodes ih =>
    intro d os
    unfold writeRecords
    rw [wp_bind, wp_call, List.length_cons, Nat.mul_succ]
    refine ⟨fun hok => ?_, fun hf => ?_, fun hc => Cut.head (by rw [hc]; decide)⟩
    · show wp _ _ _ d os.tail
      rw [if_pos rfl, wp_bind, wp_call]
      refine ⟨fun hok' => ?_, fun hf => ?_, fun hc => (Cut.head (by rw [hc]; decide)).later⟩
      · refine wp_mono (ih (d.write n (keyval e)) os.tail.tail) (fun b t os' h => ?_)
          fun t h => h.cons.later.later
        cases b with
        | true =>
          obtain ⟨rfl, ho, rfl⟩ := h
          refine ⟨by rw [Dev.write_eq, Dev.wrote_wrote]; rfl, ⟨hok, hok', ho⟩, ?_⟩
          simp only [← List.drop_one, List.drop_drop]
          congr 1
          omega
        | false => exact ⟨h.1.cons.later.later, fun hn => h.2 hn.tail.tail⟩
      · exact ⟨(Cut.head (by rw [hf]; decide)).later,
          fun hn => not_noFails_of_head hf hn.tail⟩
    · exact ⟨Cut.head (by rw [hf]; decide), not_noFails_of_head hf⟩

/-! Each round of `merge` only adds to what was written. -/

theorem prefix_writeUnless (v : Int) (line : Line) (out : List Line) :
    out <+: writeUnless v line out := by
  unfold writeUnless
  split_ifs
  · exact List.prefix_append ..
  · exact List.prefix_rfl

theorem refill1_out (s : MergeState) : (refill1 s).2.out = s.out := by
  unfold refill1
  split <;> rfl

theorem refill2_out (s : MergeState) : (refill2 s).2.out = s.out := by
  unfold refill2
  split <;> rfl

theorem mergeCompare_out {s s' : MergeState} (h : mergeCompare s = some s') :
    s.out <+: s'.out := by
  unfold mergeCompare at h
  split at h
  · split at h
    · dsimp only at h
      split_ifs at h
      all_goals
        obtain ⟨v, -, rfl⟩ := Option.map_eq_some_iff.mp h
        exact prefix_writeUnless ..
    · cases h
  · cases h

theorem mergeTail_out {s : MergeState} {out : List Line} (h : mergeTail s = some out) :
    s.out <+: out := by
  unfold mergeTail at h
  obtain ⟨s1, h1, rfl⟩ := Option.map_eq_some_iff.mp h
  have h2 : s.out <+: s1.out := by
    split_ifs at h1
    · split at h1
      · cases h1
      · cases h1
        exact List.prefix_append ..
    · cases h1
      exact List.prefix_rfl
  split_ifs
  · exact h2.trans (List.prefix_append ..)
  · exact h2

theorem wp_writeNew {n : Int} {old new : List Line} (hp : old <+: new) (d : Dev)
    (os : List Outcome) : wp (writeNew n old new)
      (fun b t os' => ∃ w, t = d.wrote n w ∧ (b = true → new = old ++ w) ∧
        (b = false → ¬ NoFails os) ∧ (NoFails os → NoFails os'))
      (fun t => ∃ w, t = d.wrote n w) d os := by
  obtain ⟨w, rfl⟩ := hp
  unfold writeNew
  rw [List.drop_left]
  refine wp_mono (wp_writeLines n w d os) (fun b t os' h => ?_) fun t h => ?_
  · cases b with
    | true =>
      obtain ⟨rfl, -, rfl⟩ := h
      exact ⟨w, rfl, fun _ => rfl, by simp, fun hn => hn.drop _⟩
    | false =>
      obtain ⟨⟨⟨k, rfl⟩, -⟩, hn⟩ := h
      exact ⟨_, rfl, by simp, fun _ => hn, fun hn' => absurd hn' hn⟩
  · obtain ⟨⟨k, rfl⟩, -⟩ := h
    exact ⟨_, rfl⟩

theorem wp_mergeLoopIo (n : Int) : ∀ (fuel : Nat) (s : MergeState) (d : Dev) (os : List Outcome),
    wp (mergeLoopIo n fuel s)
      (fun r t os' => ∃ w, t = d.wrote n w ∧
        (∀ s', r = some s' → mergeLoop fuel s = some s' ∧ s'.out = s.out ++ w) ∧
        (r = none → ¬ NoFails os) ∧ (NoFails os → NoFails os'))
      (fun t => ∃ w, t = d.wrote n w) d os := by
  intro fuel
  induction fuel with
  | zero => exact fun s d os => trivial
  | succ fuel ih =>
    intro s d os
    have stop : ∀ {s1 : MergeState}, mergeLoop (fuel + 1) s = some s1 → s1.out = s.out →
        wp (pure (some s1) : Code Dev (Option MergeState))
          (fun r t os' => ∃ w, t = d.wrote n w ∧
            (∀ s', r = some s' → mergeLoop (fuel + 1) s = some s' ∧ s'.out = s.out ++ w) ∧
            (r = none → ¬ NoFails os) ∧ (NoFails os → NoFails os'))
          (fun t => ∃ w, t = d.wrote n w) d os := by
      intro s1 h1 h2
      refine ⟨[], (Dev.wrote_nil n d).symm, ?_, by simp, id⟩
      rintro s' rfl'
      cases rfl'
      exact ⟨h1, by rw [h2, List.append_nil]⟩
    unfold mergeLoopIo
    cases hr1 : refill1 s with
    | mk b1 s1 =>
      have ho1 : s1.out = s.out := by rw [← refill1_out s, hr1]
      cases b1 with
      | true => exact stop (by simp only [mergeLoop, hr1]) ho1
      | false =>
        cases hr2 : refill2 s1 with
        | mk b2 s2 =>
          have ho2 : s2.out = s.out := by rw [← ho1, ← refill2_out s1, hr2]
          simp only [hr2]
          cases b2 with
          | true => exact stop (by simp only [mergeLoop, hr1, hr2]) ho2
          | false =>
            simp only [wp_bind, wp_ofOption]
            intro s3 hc
            refine wp_mono (wp_writeNew (mergeCompare_out hc) d os) ?_ fun t h => h
            rintro b t os' ⟨w, rfl, hb, hf, hno⟩
            cases b with
            | false =>
              exact ⟨w, rfl, by simp, fun _ => hf rfl, hno⟩
            | true =>
              refine wp_mono (ih s3 (d.wrote n w) os') ?_ ?_
              · rintro r t os'' ⟨w', rfl, hr, hf', hno'⟩
                refine ⟨w ++ w', Dev.wrote_wrote .., fun s' hs => ?_,
                  fun hn hno'' => hf' hn (hno hno''), fun h => hno' (hno h)⟩
                obtain ⟨hl, ho⟩ := hr s' hs
                refine ⟨?_, by rw [ho, hb rfl, ho2, List.append_assoc]⟩
                simp only [mergeLoop, hr1, hr2, hc, Option.bind_some, hl]
              · rintro t ⟨w', rfl⟩
                exact ⟨w ++ w', Dev.wrote_wrote ..⟩

/-- `asprintf(.., ++file_counter)` and `open(.., O_TRUNC)` -/
def Dev.opened (n : Int) (d : Dev) : Dev := (d.setCounter n).create n

theorem wp_mergeIo {file1 file2 : List Line} {d : Dev} {n : Int} (hn : d.c1.fileCounter + 1 = n)
    (os : List Outcome) : wp (mergeIo file1 file2)
      (fun rc t os' => (NoFails os → NoFails os') ∧
        ((rc = 0 ∧ os.headD .ok = .ok ∧ ∃ out, merge file1 file2 = some out ∧
            t = (d.opened n).wrote n out) ∨
          (rc = -1 ∧ ¬ NoFails os ∧ (os.headD .ok ≠ .ok ∧ t = d.setCounter n ∨
            os.headD .ok = .ok ∧ ∃ w, t = (d.opened n).wrote n w))))
      (fun t => os.headD .ok ≠ .ok ∧ t = d.setCounter n ∨
        os.headD .ok = .ok ∧ ∃ w, t = (d.opened n).wrote n w) d os := by
  unfold mergeIo
  simp only [wp_bind, wp_get, wp_modify, hn]
  refine wp_call.mpr ⟨fun hok => ?_, fun hf => ?_, fun hc => Or.inl ⟨by rw [hc]; decide, rfl⟩⟩
  · simp only [if_pos, wp_bind]
    refine wp_mono (wp_mergeLoopIo n _ _ (d.opened n) os.tail) ?_ fun t ht => Or.inr ⟨hok, ht⟩
    rintro r t os1 ⟨w, rfl, hr, hf, hno⟩
    cases r with
    | none =>
      exact ⟨fun h => hno h.tail,
        Or.inr ⟨rfl, fun h => hf rfl h.tail, Or.inr ⟨hok, w, rfl⟩⟩⟩
    | some s =>
      obtain ⟨hl, ho⟩ := hr s rfl
      simp only [wp_bind, wp_ofOption]
      intro out hout
      refine wp_mono (wp_writeNew (mergeTail_out hout) _ os1) ?_ ?_
      · rintro b t os2 ⟨w', rfl, hb, hf', hno'⟩
        rw [Dev.wrote_wrote]
        cases b with
        | true =>
          refine ⟨fun h => hno' (hno h.tail), Or.inl ⟨rfl, hok, out, ?_, ?_⟩⟩
          · simp only [merge, hl, Option.bind_some, hout]
          · rw [hb rfl, ho, List.nil_append]
        | false =>
          exact ⟨fun h => hno' (hno h.tail), Or.inr ⟨rfl, fun h => hf' rfl (hno h.tail),
            Or.inr ⟨hok, _, rfl⟩⟩⟩
      · rintro t ⟨w', rfl⟩
        exact Or.inr ⟨hok, _, Dev.wrote_wrote ..⟩
  · exact ⟨fun h => absurd h (not_noFails_of_head hf),
      Or.inr ⟨rfl, not_noFails_of_head hf, Or.inl ⟨by rw [hf]; decide, rfl⟩⟩⟩

/-- `md` is what `update_sstable` computes from the current file -/
def Index (c : C1) (md : C1Metadata) : Prop := ∃ file md0, c.files c.fileCounter = some file ∧
  c.metadata = some md0 ∧ updateSstable file c.fileCounter md0 = some md

theorem Index.counter {c : C1} {md : C1Metadata} (h : Index c md) :
    md.counterValue = c.fileCounter := by
  obtain ⟨file, md0, -, -, h⟩ := h
  obtain ⟨f, -, rfl⟩ := Option.map_eq_some_iff.mp h
  rfl

theorem Index.publish {c : C1} {md : C1Metadata} (h : Index c md) :
    c1Publish c = some (0, { c with metadata := some md, sstable := some md }) := by
  obtain ⟨file, md0, hf, hm, hu⟩ := h
  simp [c1Publish, hf, hm, hu]

/-- the sstable file is empty: it was opened for writing and nothing is in it yet -/
def Dev.cleared (md : C1Metadata) (d : Dev) : Dev := (d.setMetadata md).truncateSstable

theorem wp_c1PublishIo (d : Dev) (os : List Outcome) : wp c1PublishIo
    (fun rc t os' => rc = 0 ∧ (NoFails os → NoFails os') ∧ ∃ md, Index d.c1 md ∧
      (t = (d.cleared md).writeSstable md ∨ ¬ NoFails os ∧ t = d.cleared md))
    (fun t => t = d ∨ ∃ md, Index d.c1 md ∧ (t = d.setMetadata md ∨ t = d.cleared md)) d os := by
  unfold c1PublishIo openRead
  simp only [wp_bind, wp_get, wp_pure]
  refine wp_call.mpr ⟨fun _ => ?_, fun _ => Or.inl rfl, fun _ => Or.inl rfl⟩
  simp only [id_eq, if_pos]
  cases hf : d.c1.files d.c1.fileCounter with
  | none => exact Or.inl rfl
  | some file =>
    cases hm : d.c1.metadata with
    | none => exact Or.inl rfl
    | some md0 =>
      simp only [wp_bind, wp_ofOption, wp_modify]
      intro md hmd
      have hi : Index d.c1 md := ⟨file, md0, hf, hm, hmd⟩
      refine wp_call.mpr ⟨fun _ => ?_, fun _ => Or.inr ⟨md, hi, Or.inl rfl⟩,
        fun _ => Or.inr ⟨md, hi, Or.inl rfl⟩⟩
      simp only [if_pos, wp_bind]
      refine wp_call.mpr ⟨fun _ => ⟨rfl, fun h => h.tail.tail.tail, md, hi, Or.inl rfl⟩,
        fun hw => ?_, fun _ => Or.inr ⟨md, hi, Or.inr rfl⟩⟩
      exact ⟨rfl, fun h => h.tail.tail.tail, md, hi,
        Or.inr ⟨fun hn => not_noFails_of_head hw hn.tail.tail, rfl⟩⟩

/-- `lines` in a data file just opened -/
def Dev.filled (n : Int) (lines : List Line) (d : Dev) : Dev := (d.opened n).wrote n lines

/-- what `mergeOld` leaves when it is not done -/
def MergeStopped (n : Int) (os : List Outcome) (d t : Dev) : Prop :=
  ¬ ((d.c1.files (n - 1)).isSome ∧ Oks 4 os) ∧ (t = d ∨ t = d.setCounter (n + 1)) ∨
    ((d.c1.files (n - 1)).isSome ∧ Oks 4 os) ∧ ∃ lines, t = d.filled (n + 1) lines

theorem wp_mergeOld {nodes : List Entry} {d : Dev} {n : Int} (hn : d.c1.fileCounter = n)
    (os : List Outcome) : wp (mergeOld n nodes)
      (fun rc t os' => (NoFails os → NoFails os') ∧
        ((rc = 0 ∧ Oks 4 os ∧ ∃ old out, d.c1.files (n - 1) = some old ∧
            merge (nodes.map keyval) old = some out ∧ t = d.filled (n + 1) out) ∨
          (rc = -1 ∧ (NoFails os → d.c1.files (n - 1) = none ∧ t = d) ∧ MergeStopped n os d t)))
      (MergeStopped n os d) d os := by
  have early : ∀ {k t}, k < 4 → (os.drop k).headD .ok ≠ .ok → t = d ∨ t = d.setCounter (n + 1) →
      MergeStopped n os d t := by
    intro k t hk h ht
    exact Or.inl ⟨fun ho => h (oks_iff.mp ho.2 k hk), ht⟩
  have failed : ∀ {k t} {P : Prop}, k < 4 → (os.drop k).headD .ok = .fails →
      t = d ∨ t = d.setCounter (n + 1) → (NoFails os → P) ∧ MergeStopped n os d t :=
    fun hk h ht => ⟨fun hno => absurd (hno.drop _) (not_noFails_of_head h),
      early hk (by rw [h]; decide) ht⟩
  have hcrash : ∀ {k}, (os.drop k).headD .ok = .crash → (os.drop k).headD .ok ≠ .ok :=
    fun h => by rw [h]; decide
  unfold mergeOld openRead
  simp only [wp_bind, wp_get, wp_pure]
  refine wp_call.mpr ⟨fun h0 => ?_, fun hf => ?_, fun hc => ?_⟩
  · simp only [id_eq, if_pos]
    cases hold : d.c1.files (n - 1) with
    | none =>
      exact ⟨NoFails.tail, Or.inr ⟨rfl, fun _ => ⟨rfl, rfl⟩,
        Or.inl ⟨by simp [hold], Or.inl rfl⟩⟩⟩
    | some old =>
      simp only [wp_bind]
      rw [show os.tail = os.drop 1 from List.drop_one.symm]
      refine wp_call.mpr ⟨fun h1 => ?_, fun hf => ?_, fun hc => ?_⟩
      · simp only [id_eq, if_pos, wp_bind, List.tail_drop]
        refine wp_call.mpr ⟨fun h2 => ?_, fun hf => ?_, fun hc => ?_⟩
        · simp only [id_eq, if_pos, List.tail_drop]
          have four : (os.drop 3).headD .ok = .ok → Oks 4 os := fun h3 =>
            oks_iff.mpr fun j hj => by interval_cases j <;> assumption
          refine wp_mono (wp_mergeIo (by rw [hn]) (os.drop (1 + 1 + 1))) ?_ ?_
          · rintro rc t os' ⟨hno, ⟨rfl, h3, out, hm, rfl⟩ | ⟨rfl, hf, h⟩⟩
            · exact ⟨fun h => hno (h.drop _), Or.inl ⟨rfl, four h3, old, out, rfl, hm, rfl⟩⟩
            · refine ⟨fun h => hno (h.drop _), Or.inr ⟨rfl, fun h => absurd (h.drop _) hf, ?_⟩⟩
              rcases h with ⟨h3, rfl⟩ | ⟨h3, w, rfl⟩
              · exact early (k := 3) (by omega) h3 (Or.inr rfl)
              · exact Or.inr ⟨⟨by simp [hold], four h3⟩, w, rfl⟩
          · rintro t (⟨h3, rfl⟩ | ⟨h3, w, rfl⟩)
            · exact early (k := 3) (by omega) h3 (Or.inr rfl)
            · exact Or.inr ⟨⟨by simp [hold], four h3⟩, w, rfl⟩
        · exact ⟨fun h => (h.drop _).tail, Or.inr ⟨rfl, failed (by omega) hf (Or.inl rfl)⟩⟩
        · exact early (by omega) (hcrash hc) (Or.inl rfl)
      · exact ⟨fun h => (h.drop _).tail, Or.inr ⟨rfl, failed (by omega) hf (Or.inl rfl)⟩⟩
      · exact early (by omega) (hcrash hc) (Or.inl rfl)
  · exact ⟨NoFails.tail, Or.inr ⟨rfl, failed (k := 0) (by omega) hf (Or.inl rfl)⟩⟩
  · exact early (k := 0) (by omega) (hcrash hc) (Or.inl rfl)

/-- the call gets as far as the O_TRUNC of the merged file -/
def Merges (c : C1) (nodes : List Entry) (os : List Outcome) : Prop :=
  0 ≤ c.fileCounter ∧ (c.files c.fileCounter).isSome ∧ Oks (2 * nodes.length + 5) os

instance decMerges (c : C1) (nodes : List Entry) (os : List Outcome) :
    Decidable (Merges c nodes os) := inferInstanceAs (Decidable (_ ∧ _))

/-- the new data file with some records -/
def Dev.batchFile (d : Dev) (lines : List Line) : Dev := d.filled (d.c1.fileCounter + 1) lines

/-- the merged file with some records, after the batch file -/
def Dev.mergeFile (d : Dev) (batch lines : List Line) : Dev :=
  (d.batchFile batch).filled (d.c1.fileCounter + 1 + 1) lines

/-- what `c1_batch_insert` can have done before `update_sstable` -/
inductive Stage (d : Dev) (nodes : List Entry) (os : List Outcome) : Dev → Prop where
  | counted : ¬ Oks 1 os → Stage d nodes os (d.setCounter (d.c1.fileCounter + 1))
  | batchFile (lines : List Line) : Oks 1 os → ¬ Merges d.c1 nodes os →
      Stage d nodes os (d.batchFile lines)
  | counted2 : Oks 1 os → ¬ Merges d.c1 nodes os → Stage d nodes os
      ((d.batchFile (nodes.map keyval)).setCounter (d.c1.fileCounter + 1 + 1))
  | mergeFile (lines : List Line) : Merges d.c1 nodes os →
      Stage d nodes os (d.mergeFile (nodes.map keyval) lines)

/-- the states in which the process can end during the call -/
inductive Midway (d : Dev) (nodes : List Entry) (os : List Outcome) : Dev → Prop where
  | stage {t : Dev} : Stage d nodes os t → Midway d nodes os t
  | indexed {t : Dev} (md : C1Metadata) : Stage d nodes os t → Index t.c1 md →
      Midway d nodes os (t.setMetadata md)
  | cleared {t : Dev} (md : C1Metadata) : Stage d nodes os t → Index t.c1 md →
      Midway d nodes os (t.cleared md)

/-- the states in which the call returns -/
inductive Returned (d : Dev) (nodes : List Entry) (os : List Outcome) : Int → Dev → Prop where
  | failed {t : Dev} : Stage d nodes os t → Returned d nodes os (-1) t
  | published {t : Dev} (md : C1Metadata) : Stage d nodes os t → Index t.c1 md →
      Returned d nodes os 0 ((t.cleared md).writeSstable md)
  | unwritten {t : Dev} (md : C1Metadata) : ¬ NoFails os → Stage d nodes os t → Index t.c1 md →
      Returned d nodes os 0 (t.cleared md)

/-- data file `n` with these records is the newest one -/
def C1.filled (n : Int) (lines : List Line) (c : C1) : C1 :=
  { c with fileCounter := n, files := Function.update c.files n (some lines) }

theorem c1_filled (d : Dev) (n : Int) (lines : List Line) :
    (d.filled n lines).c1 = d.c1.filled n lines := by
  simp [Dev.filled, Dev.opened, Dev.setCounter, Dev.create, Dev.wrote, C1.filled]

theorem c1BatchInsert_filled (c : C1) (nodes : List Entry) {u : C1}
    (hu : u = c.filled (c.fileCounter + 1) (nodes.map keyval)) :
    c1BatchInsert c nodes = if c.fileCounter + 1 > 0 then
      match u.files (c.fileCounter + 1 - 1) with
      | none => some (-1, u)
      | some old => (merge (nodes.map keyval) old).bind fun out =>
          c1Publish (u.filled (c.fileCounter + 1 + 1) out)
    else c1Publish u := by
  subst hu
  rfl

theorem wp_publish {d t : Dev} {nodes : List Entry} {os os1 : List Outcome}
    (hs : Stage d nodes os t) (hno : NoFails os → NoFails os1)
    (hpure : NoFails os → c1BatchInsert d.c1 nodes = c1Publish t.c1) : wp c1PublishIo
      (fun rc u os' => Returned d nodes os rc u ∧
        (NoFails os → NoFails os' ∧ c1BatchInsert d.c1 nodes = some (rc, u.c1)))
      (Midway d nodes os) t os1 := by
  refine wp_mono (wp_c1PublishIo t os1) ?_ ?_
  · rintro rc u os' ⟨rfl, hno', md, hi, rfl | ⟨hf, rfl⟩⟩
    · refine ⟨.published md hs hi, fun h => ⟨hno' (hno h), ?_⟩⟩
      rw [hpure h, hi.publish]
      rfl
    · exact ⟨.unwritten md (fun h => hf (hno h)) hs hi, fun h => absurd (hno h) hf⟩
  · rintro u (rfl | ⟨md, hi, rfl | rfl⟩)
    · exact .stage hs
    · exact .indexed md hs hi
    · exact .cleared md hs hi

/-- **`c1_batch_insert`, call by call**: where it returns and where it can end. -/
theorem wp_c1BatchInsertIo (d : Dev) (nodes : List Entry) (os : List Outcome) :
    wp (c1BatchInsertIo nodes)
      (fun rc t os' => Returned d nodes os rc t ∧
        (NoFails os → NoFails os' ∧ c1BatchInsert d.c1 nodes = some (rc, t.c1)))
      (Midway d nodes os) d os := by
  unfold c1BatchInsertIo
  simp only [wp_bind, wp_get, wp_modify]
  have late : os.headD .ok ≠ .ok → ¬ Oks 1 os := fun h ho => h ho.1
  refine wp_call.mpr ⟨fun hok => ?_, fun hf => ?_,
    fun hc => .stage (.counted (late (by rw [hc]; decide)))⟩
  · have h1 : Oks 1 os := ⟨hok, trivial⟩
    have hmerges : Merges d.c1 nodes os → Oks (2 * nodes.length) os.tail := by
      intro hm
      have h : Oks (1 + 2 * nodes.length) os := hm.2.2.le (by omega)
      simpa using (oks_add.mp h).2
    simp only [if_pos, wp_bind]
    refine wp_mono (wp_writeRecords _ nodes (d.opened (d.c1.fileCounter + 1)) os.tail) ?_ ?_
    · intro b t os1 h
      cases b with
      | false =>
        obtain ⟨⟨⟨k, rfl⟩, hno⟩, hf⟩ := h
        exact ⟨.failed (.batchFile _ h1 fun hm => hno (hmerges hm)), fun h => absurd h.tail hf⟩
      | true =>
        obtain ⟨rfl, h2, rfl⟩ := h
        have hno1 : NoFails os → NoFails (os.tail.drop (2 * nodes.length)) :=
          fun h => h.tail.drop _
        have hoks : Oks (2 * nodes.length + 5) os ↔ Oks 4 (os.tail.drop (2 * nodes.length)) := by
          rw [show 2 * nodes.length + 5 = 1 + (2 * nodes.length + 4) by omega, oks_add, oks_add,
            List.drop_one]
          simp [h1, h2]
        generalize os.tail.drop (2 * nodes.length) = os1 at hno1 hoks
        let u := d.batchFile (nodes.map keyval)
        have hu : u.c1 = d.c1.filled (d.c1.fileCounter + 1) (nodes.map keyval) := c1_filled ..
        show wp (if d.c1.fileCounter + 1 > 0 then _ else _) _ _ u os1
        by_cases hpos : d.c1.fileCounter + 1 > 0
        · have hold : u.c1.files (d.c1.fileCounter + 1 - 1) = d.c1.files d.c1.fileCounter := by
            rw [hu, Int.add_sub_cancel]
            exact Function.update_of_ne (by omega) ..
          rw [if_pos hpos, wp_bind]
          have hm : Merges d.c1 nodes os
              ↔ (u.c1.files (d.c1.fileCounter + 1 - 1)).isSome ∧ Oks 4 os1 := by
            rw [hold, ← hoks]
            exact ⟨fun h => h.2, fun h => ⟨by omega, h⟩⟩
          have hstop : ∀ t, MergeStopped (d.c1.fileCounter + 1) os1 u t → Stage d nodes os t := by
            rintro t (⟨h, rfl | rfl⟩ | ⟨h, w, rfl⟩)
            · exact .batchFile _ h1 (mt hm.mp h)
            · exact .counted2 h1 (mt hm.mp h)
            · exact .mergeFile w (hm.mpr h)
          refine wp_mono (wp_mergeOld (by rw [hu]; rfl) os1) ?_ fun t h => .stage (hstop t h)
          rintro rc t os2 ⟨hno2, ⟨rfl, h4, old, out, hf, hmerge, rfl⟩ | ⟨rfl, hnone, hs⟩⟩
          · refine wp_publish (.mergeFile out (hm.mpr ⟨by rw [hf]; rfl, h4⟩))
              (fun h => hno2 (hno1 h)) fun _ => ?_
            rw [c1BatchInsert_filled d.c1 nodes hu, if_pos hpos, hf, c1_filled]
            simp only [hmerge, Option.bind_some]
          · refine ⟨.failed (hstop t hs), fun h => ?_⟩
            obtain ⟨hf, rfl⟩ := hnone (hno1 h)
            refine ⟨hno2 (hno1 h), ?_⟩
            rw [c1BatchInsert_filled d.c1 nodes hu, if_pos hpos, hf]
        · rw [if_neg hpos]
          refine wp_publish (.batchFile _ h1 fun hm => hpos (by have := hm.1; omega)) hno1
            fun _ => ?_
          rw [c1BatchInsert_filled d.c1 nodes hu, if_neg hpos]
    · rintro t ⟨⟨k, rfl⟩, hno⟩
      exact .stage (.batchFile _ h1 fun hm => hno (hmerges hm))
  · exact ⟨.failed (.counted (late (by rw [hf]; decide))),
      fun h => absurd h (not_noFails_of_head hf)⟩

/-! ## what stays -/

theorem log_filled (d : Dev) (n : Int) (lines : List Line) : (d.filled n lines).log
    = d.log ++ .create n d.c1.stored :: List.replicate lines.length (.write n) := by
  simp only [Dev.filled, Dev.opened, Dev.create, Dev.wrote, Dev.setCounter, List.append_assoc]
  rfl

/-- what `c1_batch_insert` leaves alone before it publishes -/
structure Untouched (d t : Dev) : Prop where
  metadata : t.c1.metadata = d.c1.metadata
  sstable : t.c1.sstable = d.c1.sstable
  files : ∀ n ≤ d.c1.fileCounter, t.c1.files n = d.c1.files n
  counter : d.c1.fileCounter < t.c1.fileCounter

theorem Untouched.counted {d : Dev} {n : Int} (h : d.c1.fileCounter < n) :
    Untouched d (d.setCounter n) := ⟨rfl, rfl, fun _ _ => rfl, h⟩

theorem Untouched.filled {d t : Dev} (h : Untouched d t) {n : Int} (hn : d.c1.fileCounter < n)
    (lines : List Line) : Untouched d (t.filled n lines) := by
  refine ⟨?_, ?_, fun m hm => ?_, ?_⟩
  · rw [c1_filled]
    exact h.metadata
  · rw [c1_filled]
    exact h.sstable
  · rw [c1_filled, ← h.files m hm]
    exact Function.update_of_ne (by omega) ..
  · rw [c1_filled]
    exact hn

theorem Untouched.start {d : Dev} {n : Int} (hn : d.c1.fileCounter < n) (lines : List Line) :
    Untouched d (d.filled n lines) := by
  refine ⟨?_, ?_, fun m hm => ?_, ?_⟩ <;> rw [c1_filled]
  · rfl
  · rfl
  · exact Function.update_of_ne (by omega) ..
  · exact hn

section
variable {d t : Dev} {nodes : List Entry} {os : List Outcome}

theorem Stage.untouched (h : Stage d nodes os t) : Untouched d t := by
  cases h with
  | counted => exact .counted (by omega)
  | batchFile lines => exact .start (by omega) lines
  | counted2 =>
    obtain ⟨h1, h2, h3, -⟩ := Untouched.start (d := d) (by omega : _ < d.c1.fileCounter + 1)
      (nodes.map keyval)
    exact ⟨h1, h2, h3, by show _ < d.c1.fileCounter + 1 + 1; omega⟩
  | mergeFile lines => exact (Untouched.start (by omega) _).filled (by omega) lines

/-- the data files that the call opens with O_TRUNC -/
def Creates (c : C1) (nodes : List Entry) (os : List Outcome) (n : Int) : Prop :=
  n = c.fileCounter + 1 ∧ Oks 1 os ∨ n = c.fileCounter + 1 + 1 ∧ Merges c nodes os

/-- the calls of a batch before it publishes -/
structure DataOps (d : Dev) (nodes : List Entry) (os : List Outcome) (ops : List FsOp) : Prop where
  notCleared : .truncateSstable ∉ ops
  creates : ∀ n counter, .create n counter ∈ ops ↔
    Creates d.c1 nodes os n ∧ counter = d.c1.stored

theorem Stage.log (h : Stage d nodes os t) : ∃ ops, t.log = d.log ++ ops ∧
    DataOps d nodes os ops := by
  have hone : Merges d.c1 nodes os → Oks 1 os := fun h => h.2.2.le (by omega)
  cases h with
  | counted h1 =>
    refine ⟨[], (List.append_nil _).symm, by simp, fun n c => ?_⟩
    simp only [Creates, h1, mt hone h1, and_false, or_false, false_and, List.not_mem_nil]
  | batchFile lines h1 hm =>
    refine ⟨_, log_filled .., by simp, fun n c => ?_⟩
    simp [Creates, h1, hm]
  | counted2 h1 hm =>
    refine ⟨_, log_filled .., by simp, fun n c => ?_⟩
    simp [Creates, h1, hm]
  | mergeFile lines hm =>
    refine ⟨_, by rw [Dev.mergeFile, log_filled, Dev.batchFile, log_filled, List.append_assoc],
      by simp, fun n c => ?_⟩
    have hst : (d.filled (d.c1.fileCounter + 1) (nodes.map keyval)).c1.stored = d.c1.stored := by
      rw [c1_filled]
      rfl
    simp only [hst, List.mem_append, List.mem_cons, List.mem_replicate, FsOp.create.injEq,
      reduceCtorEq, and_false, or_false, Creates, hone hm, hm, and_true]
    tauto

/-- the process ended in the call or right after it -/
def Ended (d : Dev) (nodes : List Entry) (os : List Outcome) (t : Dev) : Prop :=
  Midway d nodes os t ∨ ∃ rc, Returned d nodes os rc t

/-- **The O_TRUNC opens of a call**, with the counter that was stored. -/
theorem Ended.creates (h : Ended d nodes os t) (n : Int) (counter : Option Int) :
    .create n counter ∈ t.log ↔ .create n counter ∈ d.log ∨
      Creates d.c1 nodes os n ∧ counter = d.c1.stored := by
  have hlog : ∀ {u : Dev} {l : List FsOp}, Stage d nodes os u → t.log = u.log ++ l →
      .create n counter ∉ l → (.create n counter ∈ t.log ↔ .create n counter ∈ d.log ∨
        Creates d.c1 nodes os n ∧ counter = d.c1.stored) := by
    intro u l hu ht hl
    obtain ⟨ops, ho, hops⟩ := hu.log
    rw [ht, List.mem_append, ho, List.mem_append, hops.creates]
    exact ⟨fun h => h.resolve_right hl, Or.inl⟩
  rcases h with h | ⟨rc, h⟩
  · cases h with
    | stage hu => exact hlog hu (List.append_nil _).symm (by simp)
    | indexed md hu => exact hlog hu (List.append_nil _).symm (by simp)
    | cleared md hu => exact hlog hu rfl (by simp)
  · cases h with
    | failed hu => exact hlog hu (List.append_nil _).symm (by simp)
    | published md hu => exact hlog hu (List.append_assoc ..) (by simp)
    | unwritten md _ hu => exact hlog hu rfl (by simp)

/-- what a call that returns leaves in the memory of a process -/
theorem Returned.counter {rc : Int} (h : Returned d nodes os rc t)
    (hd : ∀ m, d.c1.stored = some m → m ≤ d.c1.fileCounter) :
    ∀ m, t.c1.stored = some m → m ≤ t.c1.fileCounter := by
  intro m hm
  cases h with
  | failed hu =>
    have h1 := hu.untouched
    have h2 : t.c1.stored = d.c1.stored := by rw [C1.stored, h1.sstable, C1.stored]
    have h3 := hd m (h2 ▸ hm)
    have h4 := h1.counter
    omega
  | published md hu hi =>
    have h1 : md.counterValue = m := Option.some.inj hm
    exact h1 ▸ hi.counter.le
  | unwritten => cases hm

/-- without `metadata` nothing is published -/
theorem Returned.unloaded {rc : Int} (h : Returned d nodes os rc t) (hd : d.c1.metadata = none) :
    t.c1.metadata = none := by
  have hno : ∀ {u md}, Stage d nodes os u → ¬ Index u.c1 md := by
    rintro u md hu ⟨file, md0, -, hm, -⟩
    rw [hu.untouched.metadata, hd] at hm
    cases hm
  cases h with
  | failed hu => rw [hu.untouched.metadata, hd]
  | published md hu hi => exact absurd hi (hno hu)
  | unwritten md _ hu hi => exact absurd hi (hno hu)

end

end LsmKv
