import LsmKv.C0.Lookup
import LsmKv.Lib.Run
import LsmKv.Store

/-!
# The size of the table

* `grown`, `tombstoned`   the table after an insertion with its dump, and after a DELETE;
* `step_table`        the table after any request;
* `c0Size_insert`     an insertion adds a node exactly for a new key;
* `Overflows`         the one request after which the table is full: a DELETE of a new key;
* `bounded_iff`       the table stays below its limit exactly in runs without such a request.
-/

namespace LsmKv

open KeySorted Run

/-! ## the table after a request -/

/-- `_T = Insert(..)`, or NULL if that fills it -/
def grown (T : C0Node) (key value : CStr) : C0Node :=
  if (T.insert key value 0).c0Size = maxC0Size then .null else T.insert key value 0

/-- what `server_1_delete_request` makes of `_T` -/
def tombstoned (T : C0Node) (key : CStr) : C0Node :=
  match T.get key with
  | some lookUp => (T.update lookUp.key lookUp.value 1).1
  | none => T.insert key invalidDelete 1

theorem insertC0_table {s s' : Store} {key value : CStr} (h : insertC0 s key value = some s') :
    s'.T = grown s.T key value := by
  unfold grown
  rcases insertC0_cases h with ⟨hsize, rfl⟩ | ⟨hsize, hd⟩
  · rw [if_neg hsize]
  · rw [if_pos hsize, (c0Dump_frame hd).2]

theorem deleteC0_table (s : Store) (key : CStr) : (deleteC0 s key).T = tombstoned s.T key := by
  unfold deleteC0 tombstoned
  cases s.T.get key <;> rfl

/-- the table after a request -/
def tableAfter (s : Store) : Req → C0Node
  | .put key value =>
    if s.T.get key ≠ none then (s.T.update key ⟨value, true⟩ 0).2 else grown s.T key value
  | .insert key value =>
    if s.cache.Has key ∨ s.T.get key ≠ none then s.T else grown s.T key value
  | .delete key => tombstoned s.T key
  | .get _ => s.T
  | .timer => .null

/-- **What a request does to the table.** -/
theorem step_table {s s' : Store} {r : Req} (h : s.step r = some s') : s'.T = tableAfter s r := by
  obtain ⟨reply, hs, rfl⟩ := Option.map_eq_some_iff.mp h
  cases r with
  | put key value =>
    obtain ⟨s1, cache, h1, -, rfl⟩ := put_eq hs
    show s1.T = if _ then _ else _
    cases hg : s.T.get key with
    | none =>
      rw [putC0_insert hg] at h1
      rw [if_neg (not_not.mpr rfl), insertC0_table h1]
    | some e =>
      rw [putC0_root hg] at h1
      rw [if_pos (by simp), ← Option.some.inj h1]
  | insert key value =>
    show _ = if _ then _ else _
    rcases insert_eq hs with ⟨hdup, rfl⟩ | ⟨hno, hg, s1, cache, h1, -, rfl⟩
    · rw [if_pos hdup]
    · rw [if_neg (by simp [hno, hg]), ← insertC0_table h1]
  | delete key =>
    cases hs
    exact deleteC0_table s key
  | get key =>
    rcases get_eq hs with ⟨v, -, rfl⟩ | ⟨-, v, cache, -, rfl, -⟩
    · rfl
    · rfl
  | timer =>
    obtain ⟨s1, hd, rfl⟩ := Option.map_eq_some_iff.mp hs
    exact (c0Dump_frame hd).2

theorem bst_grown {T : C0Node} (hb : T.Bst) (key value : CStr) : (grown T key value).Bst := by
  unfold grown
  split_ifs
  · exact C0Node.bst_null
  · exact hb.insert key value 0

/-- `Update` of the node that `Get` found -/
theorem tombstoned_root {T : C0Node} {key : CStr} {e : Entry} (hg : T.get key = some e) :
    tombstoned T key = (T.update key e.value 1).2 := by
  obtain ⟨a, b, -, heq, -⟩ := C0Node.update_root hg e.value 1
  unfold tombstoned
  rw [hg]
  simp only [(C0Node.get_mem hg).2, heq]

theorem tombstoned_insert {T : C0Node} {key : CStr} (hg : T.get key = none) :
    tombstoned T key = T.insert key invalidDelete 1 := by
  unfold tombstoned
  rw [hg]

theorem bst_tombstoned {T : C0Node} (hb : T.Bst) (key : CStr) : (tombstoned T key).Bst := by
  cases hg : T.get key with
  | none =>
    rw [tombstoned_insert hg]
    exact hb.insert _ _ _
  | some e =>
    rw [tombstoned_root hg]
    exact hb.update hg _ _

/-- The table is a search tree in every state of a run. -/
theorem bst_step {s s' : Store} {r : Req} (hb : s.T.Bst) (h : s.step r = some s') : s'.T.Bst := by
  rw [step_table h]
  cases r with
  | put key value =>
    show C0Node.Bst (if _ then _ else _)
    cases hg : s.T.get key with
    | none =>
      rw [if_neg (not_not.mpr rfl)]
      exact bst_grown hb key value
    | some e =>
      rw [if_pos (by simp)]
      exact hb.update hg _ _
  | insert key value =>
    show C0Node.Bst (if _ then _ else _)
    split_ifs
    · exact hb
    · exact bst_grown hb key value
  | delete key => exact bst_tombstoned hb key
  | get key => exact hb
  | timer => exact C0Node.bst_null

/-! ## sizes -/

theorem c0Size_insert {T : C0Node} (hb : T.Bst) (key value : CStr) (flag : Int) :
    (T.insert key value flag).c0Size = T.c0Size + if key ∈ T.keys then 0 else 1 := by
  rw [C0Node.c0Size_eq, C0Node.c0Size_eq]
  split_ifs with hk
  · rw [C0Node.entries_insert_of_mem hb hk]
    rfl
  · rw [C0Node.entries_insert hb, length_insertNew]
    intro e he hek
    exact hk (C0Node.mem_keys.mpr ⟨e, he, hek⟩)

theorem c0Size_update {T : C0Node} (hb : T.Bst) (key : CStr) (value : CPtr) (flag : Int) :
    (T.update key value flag).2.c0Size = T.c0Size := by
  rw [C0Node.c0Size_eq, C0Node.c0Size_eq, C0Node.entries_update hb, List.length_map]

theorem c0Size_grown {T : C0Node} (hb : T.Bst) (hT : T.c0Size < maxC0Size) (key value : CStr) :
    (grown T key value).c0Size < maxC0Size := by
  unfold grown
  split_ifs with hfull
  · decide
  · have := c0Size_insert hb key value 0
    split_ifs at this <;> omega

/-- the key of the root is a key of the tree -/
theorem mem_keys_of_get {T : C0Node} {key : CStr} {e : Entry} (hg : T.get key = some e) :
    key ∈ T.keys := by
  obtain ⟨hm, hk⟩ := C0Node.get_mem hg
  exact C0Node.mem_keys.mpr ⟨e, hm, hk⟩

theorem c0Size_tombstoned {T : C0Node} (hb : T.Bst) (key : CStr) :
    (tombstoned T key).c0Size = T.c0Size + if key ∈ T.keys then 0 else 1 := by
  cases hg : T.get key with
  | none => rw [tombstoned_insert hg, c0Size_insert hb]
  | some e => rw [tombstoned_root hg, c0Size_update hb, if_pos (mem_keys_of_get hg), Nat.add_zero]

/-- **DELETE loses no entry**: the assignment `_T = Update(_T, ..)` is made for the key of the
root alone. -/
theorem mem_keys_tombstoned {T : C0Node} (hb : T.Bst) (key k : CStr) :
    k ∈ (tombstoned T key).keys ↔ k ∈ T.keys ∨ k = key := by
  cases hg : T.get key with
  | none => rw [tombstoned_insert hg, C0Node.mem_keys_insert hb]
  | some e =>
    rw [tombstoned_root hg]
    have hkeys : (T.update key e.value 1).2.keys = T.keys := by
      rw [C0Node.keys, C0Node.keys, C0Node.entries_update hb, List.map_map]
      exact List.map_congr_left fun x _ => C0Node.key_overwrite key e.value 1 x
    rw [hkeys]
    constructor
    · exact Or.inl
    · intro h
      rcases h with h | rfl
      · exact h
      · exact mem_keys_of_get hg

/-! ## the limit -/

/-- a DELETE of a new key when one node is missing to the limit: it inserts and does not dump -/
def Overflows (s : Store) : Req → Prop
  | .delete key => s.T.c0Size + 1 = maxC0Size ∧ key ∉ s.T.keys
  | _ => False

/-- one request after which the table is full -/
theorem overflows_iff {s : Store} (hb : s.T.Bst) (hT : s.T.c0Size < maxC0Size) (r : Req) :
    ¬ Overflows s r ↔ ∀ s', s.step r = some s' → s'.T.c0Size < maxC0Size := by
  cases r with
  | put key value =>
    refine iff_of_true id fun s' h => ?_
    rw [step_table h]
    show C0Node.c0Size (if _ then _ else _) < _
    split_ifs
    · rw [c0Size_update hb]
      exact hT
    · exact c0Size_grown hb hT key value
  | insert key value =>
    refine iff_of_true id fun s' h => ?_
    rw [step_table h]
    show C0Node.c0Size (if _ then _ else _) < _
    split_ifs
    · exact hT
    · exact c0Size_grown hb hT key value
  | delete key =>
    have hsize : ∀ s', s.step (.delete key) = some s' →
        s'.T.c0Size = s.T.c0Size + if key ∈ s.T.keys then 0 else 1 := by
      intro s' h
      rw [step_table h]
      exact c0Size_tombstoned hb key
    constructor
    · intro hno s' h
      rw [hsize s' h]
      by_cases hk : key ∈ s.T.keys
      · rw [if_pos hk]
        exact hT
      · have hne : s.T.c0Size + 1 ≠ maxC0Size := fun he => hno ⟨he, hk⟩
        rw [if_neg hk]
        omega
    · intro h hov
      have hlt := h _ rfl
      rw [hsize _ rfl, if_neg hov.2] at hlt
      exact absurd hov.1 hlt.ne
  | get key =>
    refine iff_of_true id fun s' h => ?_
    rw [step_table h]
    exact hT
  | timer =>
    refine iff_of_true id fun s' h => ?_
    rw [step_table h]
    exact Nat.zero_lt_succ _

/-- **The table stays below its limit** after every request of a run exactly if no DELETE of the
run overflows it. -/
theorem bounded_iff (rs : List Req) :
    (∀ qs, qs <+: rs → ∀ s, run Store.step Store.empty qs = some s → s.T.c0Size < maxC0Size) ↔
      Guarded Store.step (fun s r => ¬ Overflows s r) Store.empty rs := by
  have hstep : ∀ (s : Store) (r : Req) (s' : Store), s.T.Bst → s.step r = some s' → s'.T.Bst :=
    fun _ _ _ hb h => bst_step hb h
  refine guarded_iff_forall hstep (fun s r hb hT => ?_) C0Node.bst_null ?_
  · exact overflows_iff hb hT r
  · show C0Node.c0Size .null < maxC0Size
    decide

/-- a hundred keys deleted, none of which is there -/
def deletions : List Req :=
  "0123456789".toList.flatMap fun c => "abcdefghij".toList.map fun d => .delete [c, d]

theorem deletions_size :
    (run Store.step Store.empty deletions).map (fun s => s.T.c0Size) = some 100 := by
  decide +kernel

/-- The hundredth tombstone fills the table, and nothing is dumped. -/
theorem deletions_overflow :
    (∃ s, run Store.step Store.empty deletions = some s ∧ s.T.c0Size = maxC0Size) ∧
    ¬ ∀ qs, qs <+: deletions → ∀ s, run Store.step Store.empty qs = some s →
      s.T.c0Size < maxC0Size := by
  obtain ⟨s, hs, hsize⟩ := Option.map_eq_some_iff.mp deletions_size
  refine ⟨⟨s, hs, hsize⟩, fun h => ?_⟩
  exact absurd hsize (h deletions (List.prefix_refl _) s hs).ne

end LsmKv
