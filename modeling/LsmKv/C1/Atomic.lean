import LsmKv.C1.Batch
import LsmKv.C1.Steps
import LsmKv.Lib.Run

/-!
# A crash during a flush

* `crashAfter c nodes i`   the batch cut off after its first `i` calls;
* `SameTables c r`     `r` has the counter, the index and the current data file of `c`;
* `Atomic c nodes r`   it has those from before the batch, or those of the completed batch;
* `Settled`            memory and files agree between two batches;
* `crash_atomic_iff`   a restart finds one of the two, unless the crash falls between the opening
                       of the sstable file and its write.
-/

namespace LsmKv

open Crash Crash.Code

/-- what is there after the first `i` calls of the batch -/
def crashAfter (c : C1) (nodes : List Entry) (i : ℕ) : Option Dev :=
  stateAfter (c1BatchInsertIo nodes) i ⟨c, []⟩

def C1.ssindex (c : C1) : Option (Nat → Int) := c.metadata.map C1Metadata.ssindex

/-- the same counter and index, and the data file they name is the same -/
structure SameTables (c r : C1) : Prop where
  counter : r.fileCounter = c.fileCounter
  ssindex : r.ssindex = c.ssindex
  file : r.files c.fileCounter = c.files c.fileCounter

/-- the tables before the batch or those after it -/
def Atomic (c : C1) (nodes : List Entry) (r : C1) : Prop :=
  SameTables c r ∨ ∃ c', c1BatchInsert c nodes = some (0, c') ∧ SameTables c' r

/-- no batch has been published: nothing is in the sstable file -/
structure Fresh (c : C1) : Prop where
  counter : c.fileCounter = -1
  sstable : c.sstable = none
  metadata : c.metadata = some ⟨0, fun _ => 0⟩

/-- the last batch has been published -/
structure Settled (c : C1) : Prop where
  counter : 0 ≤ c.fileCounter
  metadata : ∃ md, c.sstable = some md ∧ c.metadata = some md ∧ md.counterValue = c.fileCounter

/-! ## successful batches -/

theorem c1Publish_some {c c' : C1} {rc : Int} (h : c1Publish c = some (rc, c')) :
    ∃ md, Index c md ∧ c' = { c with metadata := some md, sstable := some md } := by
  unfold c1Publish at h
  split at h
  · cases h
  · rename_i file hf
    obtain ⟨md0, hm, h⟩ := Option.bind_eq_some_iff.mp h
    obtain ⟨md, hu, h⟩ := Option.bind_eq_some_iff.mp h
    cases h
    exact ⟨md, ⟨file, md0, hf, hm, hu⟩, rfl⟩

theorem settled_publish {c c' : C1} {rc : Int} (hn : 0 ≤ c.fileCounter)
    (h : c1Publish c = some (rc, c')) : Settled c' := by
  obtain ⟨md, hi, rfl⟩ := c1Publish_some h
  exact ⟨hn, md, rfl, rfl, hi.counter⟩

/-- a batch is published, or the file before it is not there -/
theorem settled_batch {c c' : C1} {nodes : List Entry} (hn : -1 ≤ c.fileCounter)
    (h : c1BatchInsert c nodes = some (0, c')) : Settled c' := by
  rw [c1BatchInsert_filled c nodes rfl] at h
  split_ifs at h with hpos
  · split at h
    · cases h
    · obtain ⟨out, -, h⟩ := Option.bind_eq_some_iff.mp h
      exact settled_publish (by simp only [C1.filled]; omega) h
  · exact settled_publish (by simp only [C1.filled]; omega) h

theorem settled_history {hist : List (List Entry)} {c : C1}
    (h : Run.run batchStep C1.empty hist = some c) :
    hist = [] ∧ Fresh c ∨ hist ≠ [] ∧ Settled c := by
  induction hist using List.reverseRecOn generalizing c with
  | nil =>
    cases h
    exact Or.inl ⟨rfl, rfl, rfl, rfl⟩
  | append_singleton hist nodes ih =>
    rw [Run.run_snoc] at h
    obtain ⟨c1, h1, h2⟩ := Option.bind_eq_some_iff.mp h
    refine Or.inr ⟨by simp, settled_batch ?_ (batchStep_eq h2)⟩
    rcases ih h1 with ⟨-, hf⟩ | ⟨-, hs⟩
    · rw [hf.counter]
    · have := hs.counter
      omega

/-! ## restarts -/

theorem restart_none {c : C1} (h : c.sstable = none) :
    restart c = { c with fileCounter := -1, metadata := some ⟨0, fun _ => 0⟩ } := by
  simp [restart, c1Init, h]

theorem restart_some {c : C1} {md : C1Metadata} (h : c.sstable = some md) :
    restart c = { c with fileCounter := md.counterValue, metadata := some md } := by
  simp [restart, c1Init, h]

theorem sameTables_fresh {c r : C1} (h : Fresh c) (hs : r.sstable = none)
    (hf : r.files c.fileCounter = c.files c.fileCounter) : SameTables c (restart r) := by
  rw [restart_none hs]
  exact ⟨h.counter.symm, by simp [C1.ssindex, h.metadata], hf⟩

theorem sameTables_settled {c r : C1} (h : Settled c) (hs : r.sstable = c.sstable)
    (hf : r.files c.fileCounter = c.files c.fileCounter) : SameTables c (restart r) := by
  obtain ⟨md, h1, h2, h3⟩ := h.metadata
  rw [restart_some (hs.trans h1)]
  exact ⟨h3, by simp [C1.ssindex, h2], hf⟩

/-- as long as the sstable file is untouched, a restart goes back behind the batch -/
theorem sameTables_before {hist : List (List Entry)} {c r : C1}
    (h : Run.run batchStep C1.empty hist = some c) (hs : r.sstable = c.sstable)
    (hf : r.files c.fileCounter = c.files c.fileCounter) : SameTables c (restart r) := by
  rcases settled_history h with ⟨-, hc⟩ | ⟨-, hc⟩
  · exact sameTables_fresh hc (hs.trans hc.sstable) hf
  · exact sameTables_settled hc hs hf

/-- an empty sstable file is the first run again -/
theorem atomic_cleared {hist : List (List Entry)} {c r : C1} {nodes : List Entry}
    (h : Run.run batchStep C1.empty hist = some c) (hs : r.sstable = none)
    (hf : r.files c.fileCounter = c.files c.fileCounter) :
    Atomic c nodes (restart r) ↔ hist = [] := by
  rcases settled_history h with ⟨rfl, hc⟩ | ⟨hne, hc⟩
  · exact iff_of_true (Or.inl (sameTables_fresh hc hs hf)) rfl
  · refine iff_of_false ?_ hne
    rw [restart_none hs]
    rintro (⟨h1, -, -⟩ | ⟨c', hb, ⟨h1, -, -⟩⟩)
    · have := hc.counter
      simp only at h1
      omega
    · have := (settled_batch (by have := hc.counter; omega) hb).counter
      simp only at h1
      omega

/-! ## the crash -/

theorem logged_last {l : List FsOp} {op : FsOp} (h : op ∉ l) : l.getLast? ≠ some op :=
  fun he => h (List.mem_of_getLast? he)

/-- **A flush is atomic unless the crash falls between `fopen` and `fwrite` of the sstable
file**; before the first batch it is atomic there too. -/
theorem crash_atomic_iff (hist : List (List Entry)) (c : C1) (nodes : List Entry) (i : ℕ)
    (t : Dev) (hh : Run.run batchStep C1.empty hist = some c)
    (ht : crashAfter c nodes i = some t) :
    Atomic c nodes (restart t.c1)
      ↔ hist = [] ∨ t.log.getLast? ≠ some .truncateSstable := by
  have early : ∀ {u : Dev}, Stage ⟨c, []⟩ nodes (List.replicate i .ok ++ [.crash]) u →
      ∀ {r : C1} {log : List FsOp}, r.sstable = u.c1.sstable → r.files = u.c1.files →
      log = u.log → (Atomic c nodes (restart r)
        ↔ hist = [] ∨ log.getLast? ≠ some .truncateSstable) := by
    intro u hu r log hs hf hl
    obtain ⟨ops, ho, hlog⟩ := hu.log
    refine iff_of_true (Or.inl (sameTables_before hh ?_ ?_)) (Or.inr ?_)
    · rw [hs, hu.untouched.sstable]
    · rw [hf, hu.untouched.files _ le_rfl]
    · rw [hl, ho]
      exact logged_last (by simpa using hlog.notCleared)
  have hno := noFails_crash i
  rcases stateAfter_of_wp (wp_c1BatchInsertIo ⟨c, []⟩ nodes _) ht with
    ⟨rc, os, hret, hpure⟩ | hmid
  · have hp := (hpure hno).2
    cases hret with
    | failed hu => exact early hu rfl rfl rfl
    | published md hu hi =>
      refine iff_of_true (Or.inr ⟨_, hp, ?_⟩) (Or.inr ?_)
      · refine sameTables_settled (settled_batch ?_ hp) rfl rfl
        rcases settled_history hh with ⟨-, hc⟩ | ⟨-, hc⟩
        · rw [hc.counter]
        · exact le_trans (by decide) hc.counter
      · simp [Dev.writeSstable]
    | unwritten md hf => exact absurd hno hf
  · cases hmid with
    | stage hu => exact early hu rfl rfl rfl
    | indexed md hu hi => exact early hu rfl rfl rfl
    | cleared md hu hi =>
      rename_i u
      have hcl : Atomic c nodes (restart (u.cleared md).c1) ↔ hist = [] :=
        atomic_cleared hh rfl (hu.untouched.files _ le_rfl)
      rw [hcl]
      simp [Dev.cleared, Dev.truncateSstable]

/-! ## two crashes -/

def flushedB : List Entry := [⟨['b'], ⟨['1'], false⟩, 0⟩]
def flushedA : List Entry := [⟨['a'], ⟨['2'], false⟩, 0⟩]

/-- the last call before the crash, the counters of the restart and of the batch before and after -/
def crashView (hist : List (List Entry)) (nodes : List Entry) (i : ℕ) :
    Option (Option FsOp × Int × Int × Option Int) := do
  let c ← Run.run batchStep C1.empty hist
  let t ← crashAfter c nodes i
  return (t.log.getLast?, (restart t.c1).fileCounter, c.fileCounter,
    (c1BatchInsert c nodes).map fun r => r.2.fileCounter)

theorem crashView_eq {hist : List (List Entry)} {nodes : List Entry} {i : ℕ}
    {op : Option FsOp} {n m : Int} {k : Option Int}
    (h : crashView hist nodes i = some (op, n, m, k)) : ∃ c t,
      Run.run batchStep C1.empty hist = some c ∧ crashAfter c nodes i = some t ∧
      t.log.getLast? = op ∧ (restart t.c1).fileCounter = n ∧ c.fileCounter = m ∧
      (c1BatchInsert c nodes).map (fun r => r.2.fileCounter) = k := by
  obtain ⟨c, hc, h⟩ := Option.bind_eq_some_iff.mp h
  obtain ⟨t, ht, h⟩ := Option.bind_eq_some_iff.mp h
  cases h
  exact ⟨c, t, hc, ht, rfl, rfl, rfl, rfl⟩

/-- in the middle of the merged file -/
theorem crash_in_merge : ∃ c t, Run.run batchStep C1.empty [flushedB] = some c ∧
    crashAfter c flushedA 9 = some t ∧ Atomic c flushedA (restart t.c1) := by
  obtain ⟨c, t, hc, ht, hop, -⟩ := crashView_eq (by decide +kernel :
    crashView [flushedB] flushedA 9 = some (some (.write 2), 0, 0, some 2))
  exact ⟨c, t, hc, ht, (crash_atomic_iff [flushedB] c flushedA 9 t hc ht).mpr
    (Or.inr (by rw [hop]; decide))⟩

/-- **The call between `fopen` and `fwrite`**: data file 0 was published and file 2 is complete,
and the restart counts from -1. -/
theorem crash_loses_counter : ∃ c t, Run.run batchStep C1.empty [flushedB] = some c ∧
    crashAfter c flushedA 11 = some t ∧ c.fileCounter = 0 ∧ (restart t.c1).fileCounter = -1 ∧
    ¬ Atomic c flushedA (restart t.c1) := by
  obtain ⟨c, t, hc, ht, -, hr, h0, h2⟩ := crashView_eq (by decide +kernel :
    crashView [flushedB] flushedA 11 = some (some .truncateSstable, -1, 0, some 2))
  refine ⟨c, t, hc, ht, h0, hr, ?_⟩
  rintro (⟨h1, -, -⟩ | ⟨c', hb, ⟨h1, -, -⟩⟩)
  · omega
  · rw [hb] at h2
    have : c'.fileCounter = 2 := by simpa using h2
    omega

end LsmKv
