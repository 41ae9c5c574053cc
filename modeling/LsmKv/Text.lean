import Mathlib.Data.Char
import Mathlib.Data.List.Lex
import Mathlib.Data.List.TakeWhile
import Mathlib.Tactic

/-!
# C strings and the library functions the store calls on them

A C string is the list of its characters without the terminator; a `Char` stands for one byte,
and `strcmp` compares by character code.

* `strcmp`, `strncmp`            comparison of strings and of prefixes;
* `strtokR`                      one token up to the next space;
* `scanWord`, `scanInt`          the conversions `%s` / `%ms` and `%d` of `sscanf`;
* `longToInt`                    a number out of range in an `int`;
* `fmtInt`                       the conversion `%d` of `snprintf`;
* `scanWord_append`, `scanInt_fmtInt`   what is printed is read back.
-/

namespace LsmKv

/-- a C string without its terminator -/
abbrev CStr := List Char

def maxKeySize : Nat := 128
def maxValueSize : Nat := 256
def maxTagSize : Nat := 20
def maxEntrySize : Nat := maxValueSize + maxKeySize + maxTagSize
def lineSize : Nat := maxEntrySize + 3 + 4 + 10 + 10

theorem maxEntrySize_eq : maxEntrySize = 404 := rfl

theorem lineSize_eq : lineSize = 431 := rfl

def exitSuccess : Int := 0
def exitFailure : Int := 1

/-! ## comparison -/

def strcmp : CStr → CStr → Int
  | [], [] => 0
  | [], _ :: _ => -1
  | _ :: _, [] => 1
  | a :: s, b :: t => if a < b then -1 else if b < a then 1 else strcmp s t

/-- `strncmp(s, p, strlen(p)) == 0` -/
def strncmp (s p : CStr) : Bool := p.isPrefixOf s

theorem strcmp_neg (s t : CStr) : strcmp s t < 0 ↔ s < t := by
  induction s generalizing t with
  | nil => cases t <;> simp [strcmp]
  | cons a s ih =>
    cases t with
    | nil => simp [strcmp]
    | cons b t =>
      rw [List.cons_lt_cons_iff]
      unfold strcmp
      split_ifs with h1 h2
      · simp [h1]
      · simp [h1, h2.ne']
      · have e : a = b := le_antisymm (not_lt.mp h2) (not_lt.mp h1)
        simp [e, ih t]

theorem strcmp_zero (s t : CStr) : strcmp s t = 0 ↔ s = t := by
  induction s generalizing t with
  | nil => cases t <;> simp [strcmp]
  | cons a s ih =>
    cases t with
    | nil => simp [strcmp]
    | cons b t =>
      unfold strcmp
      split_ifs with h1 h2
      · simp [h1.ne]
      · simp [h2.ne']
      · have e : a = b := le_antisymm (not_lt.mp h2) (not_lt.mp h1)
        simp [e, ih t]

theorem strcmp_pos (s t : CStr) : 0 < strcmp s t ↔ t < s := by
  have h1 := strcmp_neg s t
  have h2 := strcmp_zero s t
  constructor
  · intro h
    have hn : ¬ s < t := fun hs => by have := h1.mpr hs; omega
    have he : s ≠ t := fun hs => by have := h2.mpr hs; omega
    exact lt_of_le_of_ne (not_lt.mp hn) (Ne.symm he)
  · intro h
    have hn : ¬ strcmp s t < 0 := fun hs => absurd (h1.mp hs) (not_lt.mpr h.le)
    have he : strcmp s t ≠ 0 := fun hs => h.ne' (h2.mp hs)
    omega

/-! ## tokens -/

/-- `strtok_r(s, " ", &save_ptr)`: the token (`none` is NULL) and what `save_ptr` points to -/
def strtokR (s : CStr) : Option CStr × CStr :=
  let r := s.dropWhile (· = ' ')
  match r.takeWhile (· ≠ ' ') with
  | [] => (none, [])
  | t => (some t, (r.dropWhile (· ≠ ' ')).drop 1)

/-- behind the last token there is nothing -/
theorem strtokR_none {s : CStr} (h : (strtokR s).1 = none) : (strtokR s).2 = [] := by
  unfold strtokR at h ⊢
  cases ht : (s.dropWhile (· = ' ')).takeWhile (· ≠ ' ') with
  | nil => simp only [ht]
  | cons c t =>
    simp only [ht] at h
    cases h

/-! ## sscanf and snprintf -/

/-- the white space that `sscanf` skips -/
def isspace (c : Char) : Bool :=
  c = ' ' || c = '\t' || c = '\n' || c = '\x0b' || c = '\x0c' || c = '\r'

/-- one `%s` or `%ms`: the word and the rest of the input -/
def scanWord (s : CStr) : Option (CStr × CStr) :=
  let r := s.dropWhile isspace
  match r.takeWhile (!isspace ·) with
  | [] => none
  | w => some (w, r.dropWhile (!isspace ·))

/-- `strtol` stops at the bounds of a `long`, and an `int` keeps the low 32 bits -/
def longToInt (i : Int) : Int :=
  (BitVec.ofInt 32 (max (-2 ^ 63) (min i (2 ^ 63 - 1)))).toInt

/-- the values of an `int` -/
def IsInt (i : Int) : Prop := -2 ^ 31 ≤ i ∧ i < 2 ^ 31

instance (i : Int) : Decidable (IsInt i) := inferInstanceAs (Decidable (_ ∧ _))

theorem toInt_ofInt_of_isInt {x : Int} (h : IsInt x) : (BitVec.ofInt 32 x).toInt = x :=
  BitVec.toInt_ofInt_eq_self (by decide) h.1 h.2

theorem longToInt_of_isInt {i : Int} (h : IsInt i) : longToInt i = i := by
  have hmin : min i (2 ^ 63 - 1) = i := min_eq_left (by have := h.2; omega)
  have hmax : max (-2 ^ 63) i = i := max_eq_right (by have := h.1; omega)
  rw [longToInt, hmin, hmax, toInt_ofInt_of_isInt h]

theorem isInt_flag {i : Int} (h : i = 0 ∨ i = 1) : IsInt i := by
  rcases h with rfl | rfl <;> decide

theorem isInt_toInt (x : BitVec 32) : IsInt x.toInt :=
  ⟨BitVec.le_toInt x, BitVec.toInt_lt⟩

/-- the digits of a `%d`, after the sign -/
def scanDigits (neg : Bool) (r : CStr) : Option (Int × CStr) :=
  match r.takeWhile Char.isDigit with
  | [] => none
  | ds => some (longToInt (if neg then -(Nat.ofDigitChars 10 ds 0 : Int)
      else Nat.ofDigitChars 10 ds 0), r.dropWhile Char.isDigit)

/-- one `%d`: the number and the rest of the input -/
def scanInt (s : CStr) : Option (Int × CStr) :=
  match s.dropWhile isspace with
  | '-' :: r => scanDigits true r
  | '+' :: r => scanDigits false r
  | r => scanDigits false r

/-- what `%d` prints -/
def fmtInt : Int → CStr
  | .ofNat n => Nat.toDigits 10 n
  | .negSucc n => '-' :: Nat.toDigits 10 (n + 1)

/-- a word that one `%s` reads whole: no white space and no terminator in it -/
def Word (s : CStr) : Prop := s ≠ [] ∧ ∀ c ∈ s, isspace c = false ∧ c ≠ '\x00'

instance (s : CStr) : Decidable (Word s) :=
  have : Decidable (∀ c ∈ s, isspace c = false ∧ c ≠ '\x00') := List.decidableBAll _ s
  instDecidableAnd

/-- the input ends or goes on with white space -/
def Stops (r : CStr) : Prop := ∀ c ∈ r.head?, isspace c = true

theorem dropWhile_isspace_word {w : CStr} (hne : w ≠ []) (hw : ∀ c ∈ w, isspace c = false)
    (r : CStr) : (w ++ r).dropWhile isspace = w ++ r := by
  cases w with
  | nil => exact absurd rfl hne
  | cons c w => simp [hw c (by simp)]

theorem takeWhile_word {w : CStr} (hw : ∀ c ∈ w, isspace c = false) {r : CStr} (hr : Stops r) :
    (w ++ r).takeWhile (!isspace ·) = w := by
  rw [List.takeWhile_append_of_pos (by simpa using hw)]
  cases r with
  | nil => simp
  | cons c r => simp [hr c (by simp)]

theorem dropWhile_word {w : CStr} (hw : ∀ c ∈ w, isspace c = false) {r : CStr} (hr : Stops r) :
    (w ++ r).dropWhile (!isspace ·) = r := by
  rw [List.dropWhile_append_of_pos (by simpa using hw)]
  cases r with
  | nil => simp
  | cons c r => simp [hr c (by simp)]

theorem scanWord_nonspace {w : CStr} (hne : w ≠ []) (hw : ∀ c ∈ w, isspace c = false) {r : CStr}
    (hr : Stops r) : scanWord (w ++ r) = some (w, r) := by
  unfold scanWord
  simp only [dropWhile_isspace_word hne hw, takeWhile_word hw hr, dropWhile_word hw hr]

/-- **A printed word is read back**, and the scan stops behind it. -/
theorem scanWord_append {w : CStr} (hw : Word w) {r : CStr} (hr : Stops r) :
    scanWord (w ++ r) = some (w, r) :=
  scanWord_nonspace hw.1 (fun c hc => (hw.2 c hc).1) hr

/-- what a scan finds is no white space -/
theorem scanWord_mem {s w r : CStr} (h : scanWord s = some (w, r)) :
    w ≠ [] ∧ ∀ c ∈ w, isspace c = false := by
  unfold scanWord at h
  dsimp only at h
  split at h
  · cases h
  · rename_i hne
    cases h
    refine ⟨fun hnil => hne hnil, fun c hc => ?_⟩
    simpa using List.mem_takeWhile_imp hc

/-- the scan skips the white space in front -/
theorem scanWord_space {c : Char} (hc : isspace c = true) (s : CStr) :
    scanWord (c :: s) = scanWord s := by
  simp [scanWord, hc]

theorem scanInt_space {c : Char} (hc : isspace c = true) (s : CStr) :
    scanInt (c :: s) = scanInt s := by
  simp [scanInt, hc]

/-- the input ends or goes on with something that is no digit -/
def NoDigit (r : CStr) : Prop := ∀ c ∈ r.head?, c.isDigit = false

theorem scanDigits_toDigits (neg : Bool) (n : Nat) {r : CStr} (hr : NoDigit r) :
    scanDigits neg (Nat.toDigits 10 n ++ r)
      = some (longToInt (if neg then -(n : Int) else n), r) := by
  have hd : ∀ c ∈ Nat.toDigits 10 n, c.isDigit = true :=
    fun c hc => Nat.isDigit_of_mem_toDigits (by norm_num) (by norm_num) hc
  have h1 : (Nat.toDigits 10 n ++ r).takeWhile Char.isDigit = Nat.toDigits 10 n := by
    rw [List.takeWhile_append_of_pos hd]
    cases r with
    | nil => simp
    | cons c r => simp [hr c (by simp)]
  have h2 : (Nat.toDigits 10 n ++ r).dropWhile Char.isDigit = r := by
    rw [List.dropWhile_append_of_pos hd]
    cases r with
    | nil => simp
    | cons c r => simp [hr c (by simp)]
  unfold scanDigits
  rw [h1, h2]
  have h3 := Nat.ofDigitChars_toDigits (n := n) (b := 10) (by norm_num) (by norm_num)
  cases e : Nat.toDigits 10 n with
  | nil => exact absurd e Nat.toDigits_ne_nil
  | cons c ds =>
    rw [e] at h3
    simp only [h3]

theorem isDigit_not_isspace {c : Char} (h : c.isDigit = true) : isspace c = false := by
  unfold isspace
  by_contra hc
  simp only [Bool.not_eq_false, Bool.or_eq_true, decide_eq_true_eq] at hc
  rcases hc with ((((rfl | rfl) | rfl) | rfl) | rfl) | rfl <;> revert h <;> decide

/-- **A printed number is read back.** -/
theorem scanInt_fmtInt {i : Int} (hi : IsInt i) {r : CStr} (hr : NoDigit r) :
    scanInt (fmtInt i ++ r) = some (i, r) := by
  suffices h : scanInt (fmtInt i ++ r) = some (longToInt i, r) by rwa [longToInt_of_isInt hi] at h
  clear hi
  cases i with
  | ofNat n =>
    cases e : Nat.toDigits 10 n with
    | nil => exact absurd e Nat.toDigits_ne_nil
    | cons c ds =>
      have hc : c.isDigit = true := Nat.isDigit_of_mem_toDigits (b := 10) (n := n) (by norm_num)
        (by norm_num) (by rw [e]; simp)
      have hm : c ≠ '-' := by rintro rfl; revert hc; decide
      have hp : c ≠ '+' := by rintro rfl; revert hc; decide
      have h := scanDigits_toDigits false n hr
      rw [e] at h
      show scanInt (Nat.toDigits 10 n ++ r) = _
      rw [e, scanInt, List.cons_append, List.dropWhile_cons_of_neg
        (by simp [isDigit_not_isspace hc])]
      simpa [hm, hp] using h
  | negSucc n =>
    have h := scanDigits_toDigits true (n + 1) hr
    show scanInt ('-' :: (Nat.toDigits 10 (n + 1) ++ r)) = _
    rw [scanInt, List.dropWhile_cons_of_neg (by decide)]
    simpa [Int.negSucc_eq] using h

end LsmKv
