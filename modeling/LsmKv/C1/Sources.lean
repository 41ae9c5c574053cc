import LsmKv.C1.Batch
import LsmKv.C1.Steps

/-!
# Records on the way to c1

What holds of every record in the data files while a batch is written, call by call.

* `C1.All A c`                `A` holds of every record of every data file;
* `upholds_c1BatchInsertIo`   a batch of such records keeps it so, whichever of its calls fail and
                              wherever it is watched.
-/

namespace LsmKv

open Crash Crash.Code

variable {A : Line → Prop}

/-- every record of every data file has `A` -/
def C1.All (A : Line → Prop) (c : C1) : Prop := ∀ n file, c.files n = some file → ∀ l ∈ file, A l

theorem C1.All.mono {B : Line → Prop} {c : C1} (h : c.All A) (hAB : ∀ l, A l → B l) : c.All B :=
  fun n file hf l hl => hAB l (h n file hf l hl)

theorem C1.All.empty : C1.empty.All A := fun _ _ h => by cases h

theorem C1.All.current {c : C1} (h : c.All A) : ∀ l ∈ c.current, A l := by
  intro l hl
  unfold C1.current at hl
  cases hf : c.files c.fileCounter with
  | none =>
    rw [hf] at hl
    cases hl
  | some file =>
    rw [hf] at hl
    exact h _ _ hf l hl

/-- a data file that gets other records -/
theorem C1.All.update {c : C1} (h : c.All A) (n : Int) {file : Option (List Line)}
    (hf : ∀ lines, file = some lines → ∀ l ∈ lines, A l) :
    C1.All A { c with files := Function.update c.files n file } := by
  intro m lines hm
  rcases eq_or_ne m n with rfl | hne
  · exact hf lines ((Function.update_self m file c.files).symm.trans hm)
  · exact h m lines ((Function.update_of_ne hne file c.files).symm.trans hm)

theorem all_create {d : Dev} (h : d.c1.All A) (n : Int) : (d.create n).c1.All A :=
  h.update n fun lines hl => by
    cases hl
    simp

theorem all_write {d : Dev} (h : d.c1.All A) (n : Int) {line : Line} (hl : A line) :
    (d.write n line).c1.All A := by
  refine h.update n fun lines hlines => ?_
  obtain ⟨file, hf, rfl⟩ := Option.map_eq_some_iff.mp hlines
  intro l hm
  rcases List.mem_append.mp hm with hm | hm
  · exact h n file hf l hm
  · exact List.mem_singleton.mp hm ▸ hl

/-! ## the parts of a batch -/

section
variable {n : Int}

theorem upholds_openRead :
    Upholds (fun d : Dev => d.c1.All A) (fun r => ∀ lines, r = some lines → ∀ l ∈ lines, A l)
      (openRead n) := by
  refine .bind (.call fun d h => h) fun ok _ => .bind .get fun d hd => .pure fun lines hl => ?_
  split_ifs at hl
  exact hd n lines hl

theorem upholds_writeLines {lines : List Line} (h : ∀ l ∈ lines, A l) :
    Upholds (fun d : Dev => d.c1.All A) (fun _ => True) (writeLines n lines) := by
  induction lines with
  | nil => exact .pure trivial
  | cons line lines ih =>
    refine .bind (.call fun d hd => all_write hd n (h line (by simp))) fun ok _ => ?_
    cases ok with
    | true => exact ih fun l hl => h l (List.mem_cons_of_mem _ hl)
    | false => exact .pure trivial

theorem upholds_writeRecords {nodes : List Entry} (h : ∀ e ∈ nodes, A (keyval e)) :
    Upholds (fun d : Dev => d.c1.All A) (fun _ => True) (writeRecords n nodes) := by
  induction nodes with
  | nil => exact .pure trivial
  | cons e nodes ih =>
    refine .bind (.call fun d hd => hd) fun ok _ => ?_
    cases ok with
    | false => exact .pure trivial
    | true =>
      refine .bind (.call fun d hd => all_write hd n (h e (by simp))) fun ok _ => ?_
      cases ok with
      | true => exact ih fun e he => h e (List.mem_cons_of_mem _ he)
      | false => exact .pure trivial

theorem upholds_writeNew (old : List Line) {new : List Line} (h : ∀ l ∈ new, A l) :
    Upholds (fun d : Dev => d.c1.All A) (fun _ => True) (writeNew n old new) :=
  upholds_writeLines fun l hl => h l (List.mem_of_mem_drop hl)

theorem upholds_mergeLoopIo (hb : A blank) : ∀ (fuel : Nat) {s : MergeState}, Within A s →
    Upholds (fun d : Dev => d.c1.All A) (fun r => ∀ s', r = some s' → Within A s')
      (mergeLoopIo n fuel s) := by
  intro fuel
  induction fuel with
  | zero => exact fun _ => .ofOption fun x hx => by cases hx
  | succ fuel ih =>
    intro s hs
    have h1 := hs.refill1 hb
    unfold mergeLoopIo
    split
    · rename_i s1 e
      rw [e] at h1
      exact .pure fun s' hs' => Option.some.inj hs' ▸ h1
    · rename_i s1 e
      rw [e] at h1
      have h2 := h1.refill2 hb
      split
      · rename_i s2 e2
        rw [e2] at h2
        exact .pure fun s' hs' => Option.some.inj hs' ▸ h2
      · rename_i s2 e2
        rw [e2] at h2
        refine .bind (.ofOption fun s3 h3 => h2.mergeCompare h3) fun s3 h3 => ?_
        refine .bind (upholds_writeNew s2.out h3.out) fun ok _ => ?_
        cases ok with
        | true => exact ih h3
        | false => exact .pure fun s' hs' => by cases hs'

theorem upholds_mergeIo (hb : A blank) {file1 file2 : List Line} (h1 : ∀ l ∈ file1, A l)
    (h2 : ∀ l ∈ file2, A l) :
    Upholds (fun d : Dev => d.c1.All A) (fun _ => True) (mergeIo file1 file2) := by
  have hstart : Within A ⟨none, none, file1, file2, 0, 0, none, none, []⟩ :=
    ⟨by simp, by simp, h1, h2, by simp⟩
  refine .bind .get fun d _ => .bind (.modify fun d hd => hd) fun _ _ => ?_
  refine .bind (.call fun d hd => all_create hd _) fun ok _ => ?_
  cases ok with
  | false => exact .pure trivial
  | true =>
    refine .bind (upholds_mergeLoopIo hb _ hstart) fun r hr => ?_
    cases r with
    | none => exact .pure trivial
    | some s =>
      refine .bind (.ofOption fun out ho => (hr s rfl).mergeTail hb ho) fun out hout => ?_
      refine .bind (upholds_writeNew s.out hout) fun ok _ => ?_
      cases ok <;> exact .pure trivial

theorem upholds_mergeOld (hb : A blank) {nodes : List Entry} (h : ∀ e ∈ nodes, A (keyval e)) :
    Upholds (fun d : Dev => d.c1.All A) (fun _ => True) (mergeOld n nodes) := by
  refine .bind upholds_openRead fun r hr => ?_
  cases r with
  | none => exact .pure trivial
  | some old =>
    refine .bind (.call fun d hd => hd) fun ok _ => ?_
    cases ok with
    | false => exact .pure trivial
    | true =>
      refine .bind (.call fun d hd => hd) fun ok _ => ?_
      cases ok with
      | false => exact .pure trivial
      | true => exact upholds_mergeIo hb (by simpa using h) (hr old rfl)

/-- no data file is written -/
theorem upholds_c1PublishIo : Upholds (fun d : Dev => d.c1.All A) (fun _ => True) c1PublishIo := by
  refine .bind .get fun d _ => .bind upholds_openRead fun r _ => ?_
  cases r with
  | none => exact .die
  | some currfile =>
    cases hm : d.c1.metadata with
    | none => exact .die
    | some md =>
      refine .bind (.ofOption fun _ _ => trivial) fun md _ => ?_
      refine .bind (.modify fun d hd => hd) fun _ _ => .bind (.call fun d hd => hd) fun ok _ => ?_
      cases ok with
      | false => exact .die
      | true => exact .bind (.call fun d hd => hd) fun _ _ => .pure trivial

end

/-- **A batch keeps what holds of all records**, at each of its calls and whichever of them
fail. -/
theorem upholds_c1BatchInsertIo (hb : A blank) {nodes : List Entry}
    (h : ∀ e ∈ nodes, A (keyval e)) :
    Upholds (fun d : Dev => d.c1.All A) (fun _ => True) (c1BatchInsertIo nodes) := by
  refine .bind .get fun d _ => .bind (.modify fun d hd => hd) fun _ _ => ?_
  refine .bind (.call fun d hd => all_create hd _) fun ok _ => ?_
  cases ok with
  | false => exact .pure trivial
  | true =>
    refine .bind (upholds_writeRecords h) fun ok _ => ?_
    cases ok with
    | false => exact .pure trivial
    | true =>
      show Upholds _ _ (if d.c1.fileCounter + 1 > 0 then _ else _)
      split_ifs with hn
      · refine .bind (upholds_mergeOld hb h) fun rc _ => ?_
        split_ifs
        · exact .pure trivial
        · exact upholds_c1PublishIo
      · exact upholds_c1PublishIo

end LsmKv
