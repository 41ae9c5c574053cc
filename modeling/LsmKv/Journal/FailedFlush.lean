import LsmKv.Journal.Steps

/-!
# A flush that fails

* `oldFile c`           the data file that the next batch is merged with, and what it holds;
* `NothingChanged`      c1 reads as before, the batch is in `_T`, the next one meets the same file;
* `failed_flush_changes`   a flush in which `c1_batch_insert` returns -1 never leaves that.
-/

namespace LsmKv

open Crash Crash.Code

/-- number and records of the file that `c1_batch_insert` opens as the old one, if it opens one -/
def oldFile (c : C1) : Option (Int × Option (List Line)) :=
  let n := c.fileCounter + 1
  if n > 0 then some (n - 1, c.files (n - 1)) else none

/-- what a failed flush of `nodes` is to leave as it was -/
structure NothingChanged (s t : Store) (nodes : List Entry) : Prop where
  reads : ∀ key, c1Get t.c1 key = c1Get s.c1 key
  found : ∀ e ∈ nodes, t.T.find e.key = some e
  oldFile : oldFile t.c1 = oldFile s.c1

theorem entries_ne_nil {T : C0Node} (h : T.c0Size ≠ 0) : T.entries ≠ [] := by
  rw [C0Node.c0Size_eq] at h
  exact fun he => h (by rw [he]; rfl)

/-- a request hands over no empty batch -/
theorem fullBatch_ne_nil {s : Store} {q : Req} {nodes : List Entry}
    (h : fullBatch s q = some nodes) : nodes ≠ [] := by
  have hfull : ∀ {T : C0Node}, T.c0Size = maxC0Size → T.entries ≠ [] :=
    fun hT => entries_ne_nil (by rw [hT]; decide)
  cases q with
  | put key value =>
    rw [fullBatch] at h
    split_ifs at h with hf
    exact Option.some.inj h ▸ hfull hf.2
  | insert key value =>
    rw [fullBatch] at h
    split_ifs at h with hf
    exact Option.some.inj h ▸ hfull hf.2.2
  | timer =>
    rw [fullBatch] at h
    split_ifs at h with hf
    exact Option.some.inj h ▸ entries_ne_nil hf
  | delete key => cases h
  | get key => cases h

/-- the counter is moved on before the first call -/
theorem oldFile_ne {c c' : C1} (hc : -1 ≤ c.fileCounter) (h : c.fileCounter < c'.fileCounter) :
    oldFile c' ≠ oldFile c := by
  unfold oldFile
  intro he
  dsimp only at he
  rw [if_pos (by omega)] at he
  split_ifs at he
  simp only [Option.some.injEq, Prod.mk.injEq] at he
  omega

theorem Returned.counter_lt {d t : Dev} {nodes : List Entry} {os : List Outcome} {rc : Int}
    (h : Returned d nodes os rc t) : d.c1.fileCounter < t.c1.fileCounter := by
  cases h with
  | failed hu => exact hu.untouched.counter
  | published md hu => exact hu.untouched.counter
  | unwritten md _ hu => exact hu.untouched.counter

/-- **A failed flush loses its batch and the file before it**: `_T` is empty, and the next batch
is merged with another file. -/
theorem failed_flush_changes (s t : Sys) (q : Req) (nodes : List Entry)
    (os os1 os2 : List Outcome) (d : Dev) (hq : fullBatch s.store q = some nodes)
    (hf : c1BatchInsertIo nodes s.dev os = .done (-1) d os1)
    (ht : serveIo q s os = .done () t os2) :
    t.dev = d ∧ (∀ e ∈ nodes, t.store.T.find e.key = none) ∧
    (-1 ≤ s.store.c1.fileCounter → oldFile t.store.c1 ≠ oldFile s.store.c1) ∧
    ¬ NothingChanged s.store t.store nodes := by
  have hw := wp_serveIo s q os
  unfold wp at hw
  rw [ht] at hw
  obtain ⟨hhand, hnull⟩ := hw.handed nodes hq
  have hlost : ∀ e ∈ nodes, t.store.T.find e.key = none := by
    intro e _
    rw [hnull]
    rfl
  refine ⟨?_, hlost, fun hn => ?_, fun h => ?_⟩
  · obtain ⟨rc, os', hrun⟩ := hhand
    rw [hf] at hrun
    cases hrun
    rfl
  · obtain ⟨rc, hret⟩ := hhand.returned
    exact oldFile_ne hn hret.counter_lt
  · obtain ⟨e, he⟩ := List.exists_mem_of_ne_nil nodes (fullBatch_ne_nil hq)
    have := h.found e he
    rw [hlost e he] at this
    cases this

/-! ## two failures -/

/-- `_T` holds one entry, nothing is flushed -/
def oneEntry : Sys := ⟨{ Store.empty with T := C0Node.null.insert ['b'] ['1'] 0 }, []⟩

/-- the new data file cannot be opened -/
theorem failed_open_changes : ∃ t os, serveIo .timer oneEntry [.fails] = .done () t os ∧
    (∀ e ∈ oneEntry.store.T.entries, t.store.T.find e.key = none) ∧
    ¬ NothingChanged oneEntry.store t.store oneEntry.store.T.entries := by
  refine ⟨_, _, rfl, ?_⟩
  obtain ⟨-, h1, -, h2⟩ := failed_flush_changes oneEntry _ .timer oneEntry.store.T.entries
    [.fails] [] [] _ rfl rfl rfl
  exact ⟨h1, h2⟩

/-- a published file with `b`, and `a` in `_T` -/
def publishedB : Code Sys Unit := do
  serveIo (.put ['b'] ['1'])
  serveIo .timer
  serveIo (.put ['a'] ['2'])

/-- **A `write` of the second flush fails**: `c1_get` of `b` misses, `a` is nowhere, and the next
batch is merged with data file 1 in place of 0. -/
theorem failed_write_loses : ∃ s t d os os1 os2,
    publishedB ⟨Store.empty, []⟩ [] = .done () s os ∧
    c1BatchInsertIo s.store.T.entries s.dev [.ok, .ok, .fails] = .done (-1) d os1 ∧
    serveIo .timer s [.ok, .ok, .fails] = .done () t os2 ∧
    c1Get s.store.c1 ['b'] = some (some ['1']) ∧ c1Get t.store.c1 ['b'] = some none ∧
    (oldFile s.store.c1).map Prod.fst = some 0 ∧ (oldFile t.store.c1).map Prod.fst = some 1 ∧
    ¬ NothingChanged s.store t.store s.store.T.entries := by
  refine ⟨_, _, _, _, _, _, rfl, rfl, rfl, by decide +kernel, by decide +kernel, rfl, rfl, ?_⟩
  intro h
  have := h.found ⟨['a'], ⟨['2'], false⟩, 0⟩ (by decide)
  cases this

end LsmKv
