import Mathlib.Data.List.TakeDrop
import Mathlib.Data.List.Flatten
import Mathlib.Tactic

/-!
# Files of records of one size

* `leBytes n x`, `leVal`   the `n` bytes of a number, least significant first, and back;
* `slice buf pos n`        `n` bytes of a buffer, if they are all inside;
* `readAll N decode`       records of `N` bytes read until one is short;
* `readAll_take`           a prefix of a file of whole records gives those that lie in it;
* `slice_field`            reading a field, by what stands before it;
* `pieces_eq_records`      a stream of records in as many pieces as records.
-/

namespace FixedRecords

/-! ## numbers -/

/-- the bytes of a number in memory -/
def leBytes : ℕ → ℕ → List UInt8
  | 0, _ => []
  | n + 1, x => UInt8.ofNat x :: leBytes n (x / 256)

/-- the number with these bytes -/
def leVal (bs : List UInt8) : ℕ := bs.foldr (fun b v => b.toNat + 256 * v) 0

@[simp] theorem length_leBytes (n x : ℕ) : (leBytes n x).length = n := by
  induction n generalizing x with
  | zero => rfl
  | succ n ih => rw [leBytes, List.length_cons, ih]

theorem leVal_leBytes (n : ℕ) : ∀ x, x < 256 ^ n → leVal (leBytes n x) = x := by
  induction n with
  | zero =>
    intro x hx
    exact (Nat.lt_one_iff.mp hx).symm
  | succ n ih =>
    intro x hx
    have hq : x / 256 < 256 ^ n := by
      rw [Nat.div_lt_iff_lt_mul (by decide), ← pow_succ]
      exact hx
    show (UInt8.ofNat x).toNat + 256 * leVal (leBytes n (x / 256)) = x
    rw [ih _ hq, UInt8.toNat_ofNat']
    omega

/-- a byte bounds the number from below -/
theorem le_leVal {bs : List UInt8} {i : ℕ} {b : UInt8} (h : bs[i]? = some b) :
    b.toNat * 256 ^ i ≤ leVal bs := by
  induction bs generalizing i with
  | nil => simp at h
  | cons a bs ih =>
    show _ ≤ a.toNat + 256 * leVal bs
    cases i with
    | zero =>
      obtain rfl : a = b := by simpa using h
      omega
    | succ i =>
      have := ih (i := i) (by simpa using h)
      rw [pow_succ]
      calc b.toNat * (256 ^ i * 256) = 256 * (b.toNat * 256 ^ i) := by ring
        _ ≤ 256 * leVal bs := Nat.mul_le_mul_left _ this
        _ ≤ a.toNat + 256 * leVal bs := Nat.le_add_left _ _

theorem leVal_lt (bs : List UInt8) : leVal bs < 256 ^ bs.length := by
  induction bs with
  | nil => exact Nat.one_pos
  | cons a bs ih =>
    have ha : a.toNat < 256 := a.toNat_lt
    show a.toNat + 256 * leVal bs < 256 ^ (bs.length + 1)
    rw [pow_succ]
    omega

/-- the greatest number has all bytes 255 -/
theorem leVal_succ_lt {bs : List UInt8} {i : ℕ} {b : UInt8} (h : bs[i]? = some b) (hb : b ≠ 255) :
    leVal bs + 1 < 256 ^ bs.length := by
  induction bs generalizing i with
  | nil => simp at h
  | cons a bs ih =>
    have ha : a.toNat < 256 := a.toNat_lt
    show a.toNat + 256 * leVal bs + 1 < 256 ^ (bs.length + 1)
    rw [pow_succ]
    cases i with
    | zero =>
      obtain rfl : a = b := by simpa using h
      have hne : a.toNat ≠ 255 := fun he => hb (UInt8.toNat_inj.mp he)
      have := leVal_lt bs
      omega
    | succ i =>
      have := ih (i := i) (by simpa using h)
      omega

/-! ## fields of a buffer -/

/-- the `n` bytes from `pos` on, if the buffer has them -/
def slice (buf : List UInt8) (pos n : ℕ) : Option (List UInt8) :=
  if pos + n ≤ buf.length then some ((buf.drop pos).take n) else none

/-- a field, by what stands before it -/
theorem slice_field {a b rest : List UInt8} {pos n : ℕ} (ha : a.length = pos) (hb : b.length = n) :
    slice (a ++ (b ++ rest)) pos n = some b := by
  subst ha hb
  rw [slice, if_pos (by simp only [List.length_append]; omega), List.drop_left, List.take_left]

/-! ## records -/

section records
variable {β γ : Type*} (N : ℕ) (decode : List β → Option γ)

/-- the records read one after the other, until fewer than `N` bytes are left -/
def readAll (file : List β) : Option (List γ) :=
  if _h : 0 < N ∧ N ≤ file.length then do
    let r ← decode (file.take N)
    let rs ← readAll (file.drop N)
    some (r :: rs)
  else some []
termination_by file.length

variable {N decode}

theorem readAll_short {file : List β} (h : file.length < N) : readAll N decode file = some [] := by
  rw [readAll, dif_neg fun hn => absurd hn.2 (by omega)]

theorem readAll_append {b rest : List β} (hN : 0 < N) (hb : b.length = N) :
    readAll N decode (b ++ rest) = (decode b).bind fun r =>
      (readAll N decode rest).bind fun rs => some (r :: rs) := by
  have htake : (b ++ rest).take N = b := by rw [← hb, List.take_left]
  have hdrop : (b ++ rest).drop N = rest := by rw [← hb, List.drop_left]
  rw [readAll, dif_pos ⟨hN, by rw [List.length_append]; omega⟩, htake, hdrop]
  rfl

/-- **Every prefix of a file of whole records** gives the records that lie in it; a torn rest is
left alone. -/
theorem readAll_take {ρ : Type*} {encode : ρ → List β} {f : ρ → γ} (hN : 0 < N)
    (rs : List ρ) (hlen : ∀ r ∈ rs, (encode r).length = N)
    (hdec : ∀ r ∈ rs, decode (encode r) = some (f r)) (n : ℕ) :
    readAll N decode ((rs.map encode).flatten.take n) = some ((rs.take (n / N)).map f) := by
  induction rs generalizing n with
  | nil => simpa using readAll_short hN
  | cons r rs ih =>
    have hr := hlen r (by simp)
    rw [List.map_cons, List.flatten_cons]
    by_cases hn : n < N
    · rw [readAll_short, Nat.div_eq_of_lt hn, List.take_zero, List.map_nil]
      rw [List.length_take]
      omega
    · obtain ⟨m, rfl⟩ : ∃ m, n = N + m := ⟨n - N, by omega⟩
      rw [List.take_append, List.take_of_length_le (by omega), hr, Nat.add_sub_cancel_left,
        readAll_append hN hr, hdec r (by simp), ih (fun x hx => hlen x (List.mem_cons_of_mem _ hx))
          (fun x hx => hdec x (List.mem_cons_of_mem _ hx)), Nat.add_div_left _ hN]
      rfl

end records

/-! ## streams -/

section streams
variable {β : Type*} {N : ℕ}

theorem length_flatten_records {ys : List (List β)} (h : ∀ y ∈ ys, y.length = N) :
    ys.flatten.length = N * ys.length := by
  induction ys with
  | nil => rfl
  | cons y ys ih =>
    rw [List.flatten_cons, List.length_append, h y (List.mem_cons_self ..),
      ih fun z hz => h z (List.mem_cons_of_mem _ hz), List.length_cons]
    ring

/-- a record of the stream, by its number -/
theorem take_drop_flatten {ys : List (List β)} (h : ∀ y ∈ ys, y.length = N) {i : ℕ} {y : List β}
    (hy : ys[i]? = some y) : (ys.flatten.drop (N * i)).take N = y := by
  induction ys generalizing i with
  | nil => simp at hy
  | cons x ys ih =>
    have hx := h x (List.mem_cons_self ..)
    rw [List.flatten_cons]
    cases i with
    | zero =>
      obtain rfl : x = y := by simpa using hy
      rw [Nat.mul_zero, List.drop_zero, List.take_left' hx]
    | succ i =>
      rw [Nat.mul_succ, Nat.add_comm, ← List.drop_drop, List.drop_left' hx]
      exact ih (fun z hz => h z (List.mem_cons_of_mem _ hz)) (by simpa using hy)

theorem length_flatten_le {xs : List (List β)} (h : ∀ x ∈ xs, x.length ≤ N) :
    xs.flatten.length ≤ N * xs.length := by
  induction xs with
  | nil => exact Nat.zero_le _
  | cons x xs ih =>
    have hx := h x (List.mem_cons_self ..)
    have hxs := ih fun z hz => h z (List.mem_cons_of_mem _ hz)
    have hmul : N * (xs.length + 1) = N * xs.length + N := Nat.mul_succ ..
    rw [List.flatten_cons, List.length_append, List.length_cons, hmul]
    omega

/-- **A stream of records in as many pieces**, none longer than a record, is cut between the
records. -/
theorem pieces_eq_records {xs ys : List (List β)} (hx : ∀ x ∈ xs, x.length ≤ N)
    (hy : ∀ y ∈ ys, y.length = N) (hlen : xs.length = ys.length)
    (h : xs.flatten = ys.flatten) : xs = ys := by
  induction xs generalizing ys with
  | nil => exact (List.length_eq_zero_iff.mp hlen.symm).symm
  | cons x xs ih =>
    cases ys with
    | nil => cases hlen
    | cons y ys =>
      have hxs : ∀ z ∈ xs, z.length ≤ N := fun z hz => hx z (List.mem_cons_of_mem _ hz)
      have hys : ∀ z ∈ ys, z.length = N := fun z hz => hy z (List.mem_cons_of_mem _ hz)
      have hlen' : xs.length = ys.length := Nat.succ.inj hlen
      have h1 : xs.flatten.length ≤ N * ys.length := hlen' ▸ length_flatten_le hxs
      have h2 := length_flatten_records hys
      have h3 := hx x (List.mem_cons_self ..)
      have h4 := hy y (List.mem_cons_self ..)
      -- the other pieces hold no more than the other records
      have hfirst : x.length = y.length := by
        have htotal := congrArg List.length h
        rw [List.flatten_cons, List.flatten_cons, List.length_append, List.length_append] at htotal
        omega
      obtain ⟨rfl, hrest⟩ := List.append_inj (by simpa using h) hfirst
      rw [ih hxs hys hlen' hrest]

end streams

end FixedRecords
