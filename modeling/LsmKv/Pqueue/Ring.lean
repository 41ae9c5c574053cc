import LsmKv.Pqueue
import LsmKv.Lib.RingSlots

/-!
# The circular buffer of the lock queue (`pqueue.c`)

* `Pqueue`                        `data`, `rear` and `front`, with slots never written;
* `enqueue`, `dequeue`, `peek`    as the source computes them; the shifting loop has fuel;
* `Rep p q`                       the slots from `front` to `rear` hold the list `q`;
* `shift_spec`                    the loop moves the elements above `x` one slot on;
* `enqueue_rep`, `dequeue_rep`, `peek_rep`   each call does to `q` what the list's call does;
* `pqueue_run`                    any sequence of calls on an initialized queue.
-/

namespace LsmKv

open SortedQueue RingSlots LamportLock

instance neZero_maxPqueue : NeZero maxPqueue := ⟨by decide⟩

/-- `pqueue`; a slot of `data` that was never written is `none` -/
structure Pqueue where
  data : Fin maxPqueue → Option PqueueData
  rear : Int
  front : Int

namespace Pqueue

/-- the slot with an index, if the index is inside `data` -/
def index (i : Int) : Option (Fin maxPqueue) :=
  if h : 0 ≤ i ∧ i < maxPqueue then some ⟨i.toNat, by omega⟩ else none

def reset (p : Pqueue) : Pqueue := { p with rear := -1, front := -1 }

/-- `initialize` on memory with any contents -/
def initializeQueue (data : Fin maxPqueue → Option PqueueData) (rear front : Int) : Pqueue :=
  reset ⟨data, rear, front⟩

def empty (p : Pqueue) : Bool := p.rear = -1

def full (p : Pqueue) : Bool := (p.rear + 1) % maxPqueue = p.front

/-- The `while` loop of `enqueue`: the array and `i` when it ends.  `none` where the fuel runs
out, an index lies outside `data` or a slot was never written. -/
def shift (front : Int) (x : PqueueData) :
    ℕ → (Fin maxPqueue → Option PqueueData) → Int →
      Option ((Fin maxPqueue → Option PqueueData) × Int)
  | 0, _, _ => none
  | fuel + 1, data, i => do
    let y ← data (← index i)
    if pqueueDataCmp x y = -1 then
      let data := Function.update data (← index ((i + 1) % maxPqueue)) (some y)
      let i := (i - 1 + maxPqueue) % maxPqueue
      if (i + 1) % maxPqueue = front then some (data, i) else shift front x fuel data i
    else some (data, i)

/-- the value returned and the queue after the call -/
def enqueue (fuel : ℕ) (p : Pqueue) (x : PqueueData) : Option (Int × Pqueue) :=
  if p.full then some (-1, p)
  else if p.empty then do
    let data := Function.update p.data (← index 0) (some x)
    some (0, { p with data := data, rear := 0, front := 0 })
  else do
    let (data, i) ← shift p.front x fuel p.data p.rear
    let i := (i + 1) % maxPqueue
    let data := Function.update data (← index i) (some x)
    some (0, { p with data := data, rear := (p.rear + 1) % maxPqueue })

/-- the value returned, `none` for NULL, and the queue after the call -/
def dequeue (p : Pqueue) : Option (Option PqueueData × Pqueue) :=
  if p.empty then some (none, p)
  else do
    let x ← p.data (← index p.front)
    if p.rear = p.front then some (some x, p.reset)
    else some (some x, { p with front := (p.front + 1) % maxPqueue })

def peek (p : Pqueue) : Option (Option PqueueData) :=
  if p.empty then some none
  else do
    let x ← p.data (← index p.front)
    some (some x)

/-- `data` from `front` to `rear`, modulo `MAX`, as `print` goes through it -/
def readOut (p : Pqueue) : List (Option PqueueData) :=
  if p.rear = -1 then []
  else (List.range ((p.rear - p.front) % maxPqueue + 1).toNat).map fun j =>
    p.data (cell maxPqueue (p.front.toNat + j))

/-! ## the list in the buffer -/

/-- The queue holds the list `q`. -/
inductive Rep (p : Pqueue) : List PqueueData → Prop
  | nil (rear : p.rear = -1) (front : p.front = -1) : Rep p []
  | cons {q : List PqueueData} (s : ℕ) (ne : q ≠ []) (len : q.length ≤ maxPqueue)
      (lt : s < maxPqueue) (front : p.front = s)
      (rear : p.rear = ((s + q.length + 49) % maxPqueue : ℕ))
      (holds : Holds p.data s q) : Rep p q

theorem index_mod (m : ℕ) : index ((m % maxPqueue : ℕ) : Int) = some (cell maxPqueue m) := by
  have h : m % maxPqueue < maxPqueue := Nat.mod_lt _ (NeZero.pos _)
  rw [index, dif_pos ⟨by omega, by omega⟩]
  rfl

theorem index_lt {m : ℕ} (h : m < maxPqueue) : index (m : Int) = some (cell maxPqueue m) := by
  have := index_mod m
  rwa [Nat.mod_eq_of_lt h] at this

theorem rep_initializeQueue (data : Fin maxPqueue → Option PqueueData) (rear front : Int) :
    Rep (initializeQueue data rear front) [] := Rep.nil rfl rfl

theorem Rep.length_le {p : Pqueue} {q : List PqueueData} (h : Rep p q) :
    q.length ≤ maxPqueue := by
  cases h with
  | nil => simp
  | cons s ne len => exact len

theorem Rep.empty_iff {p : Pqueue} {q : List PqueueData} (h : Rep p q) :
    p.empty = true ↔ q = [] := by
  unfold empty
  cases h with
  | nil rear => simp [rear]
  | cons s ne len lt front rear =>
    rw [decide_eq_true_iff, rear]
    exact ⟨fun h => by omega, fun h => absurd h ne⟩

theorem Rep.full_iff {p : Pqueue} {q : List PqueueData} (h : Rep p q) :
    p.full = true ↔ maxPqueue ≤ q.length := by
  unfold full
  rw [decide_eq_true_iff]
  cases h with
  | nil rear front => rw [rear, front]; decide
  | cons s ne len lt front rear =>
    have hpos := List.length_pos_of_ne_nil ne
    rw [rear, front]
    unfold maxPqueue at *
    constructor <;> intro <;> omega

theorem Rep.readOut {p : Pqueue} {q : List PqueueData} (h : Rep p q) :
    p.readOut = q.map some := by
  unfold Pqueue.readOut
  cases h with
  | nil rear => rw [if_pos rear]; rfl
  | cons s ne len lt front rear holds =>
    have hpos := List.length_pos_of_ne_nil ne
    have hcount : ((p.rear - p.front) % maxPqueue + 1).toNat = q.length := by
      rw [rear, front]
      unfold maxPqueue at *
      omega
    rw [if_neg (by rw [rear]; omega), hcount, front, Int.toNat_natCast]
    exact holds.readOut

/-! ## the shifting loop -/

/-- A slot behind the list, as long as the list is short. -/
theorem holds_update_behind {d : Fin maxPqueue → Option PqueueData} {s m : ℕ}
    {l : List PqueueData} (h : Holds d s l) (hm : s + l.length ≤ m) (hm' : m < s + maxPqueue)
    (v : Option PqueueData) : Holds (Function.update d (cell maxPqueue m) v) s l :=
  h.update (fun j hj => cell_ne (by omega) (by omega)) v

/-- A slot before the list. -/
theorem holds_update_before {d : Fin maxPqueue → Option PqueueData} {s m : ℕ}
    {l : List PqueueData} (h : Holds d s l) (hm : m < s) (hm' : s + l.length ≤ m + maxPqueue)
    (v : Option PqueueData) : Holds (Function.update d (cell maxPqueue m) v) s l :=
  h.update (fun j hj => (cell_ne (by omega) (by omega)).symm) v

/-- **The shifting loop terminates** within as many rounds as there are elements, and leaves a gap
in front of the elements above `x`.  `a` is the part not yet compared, `b` the part moved. -/
theorem shift_spec {s : ℕ} (hs : s < maxPqueue) (x : PqueueData) (a : List PqueueData) :
    ∀ (b : List PqueueData) (d : Fin maxPqueue → Option PqueueData) (fuel : ℕ), a ≠ [] →
      a.length + b.length < maxPqueue → a.length ≤ fuel → Holds d s a →
      Holds d (s + a.length + 1) b →
      let a' := a.rdropWhile (x.rank < PqueueData.rank ·)
      ∃ d', shift s x fuel d ((s + a.length + 49) % maxPqueue : ℕ)
          = some (d', (((s + a'.length + 49) % maxPqueue : ℕ) : Int)) ∧
        Holds d' s a' ∧
        Holds d' (s + a'.length + 1) (a.rtakeWhile (x.rank < PqueueData.rank ·) ++ b) := by
  induction a using List.reverseRecOn with
  | nil =>
    intro b d fuel ha
    exact absurd rfl ha
  | append_singleton a y ih =>
    intro b d fuel ha hlen hfuel hha hhb
    obtain ⟨fuel, rfl⟩ : ∃ n, fuel = n + 1 := by
      cases fuel with
      | zero => simp at hfuel
      | succ n => exact ⟨n, rfl⟩
    rw [List.length_append, List.length_singleton] at hlen hfuel hhb
    obtain ⟨hha', hy⟩ := holds_snoc.mp hha
    have hi : (s + (a ++ [y]).length + 49) % maxPqueue = (s + a.length) % maxPqueue := by
      rw [List.length_append, List.length_singleton]
      unfold maxPqueue
      omega
    have hnext : (((s + a.length) % maxPqueue : ℕ) + 1 : Int) % maxPqueue
        = ((s + a.length + 1) % maxPqueue : ℕ) := by
      unfold maxPqueue
      omega
    rw [hi, shift, index_mod]
    simp only [Option.bind_eq_bind, Option.bind_some, hy]
    by_cases hlt : x.rank < y.rank
    · rw [if_pos (pqueueDataCmp_lt.mpr hlt), hnext, index_mod, Option.bind_some,
        List.rdropWhile_concat_pos _ _ _ (by simpa using hlt),
        List.rtakeWhile_concat_pos _ _ _ (by simpa using hlt)]
      have hdec : (((s + a.length) % maxPqueue : ℕ) - 1 + maxPqueue : Int) % maxPqueue
          = ((s + a.length + 49) % maxPqueue : ℕ) := by
        unfold maxPqueue
        omega
      -- the array after the move
      have hha2 := holds_update_behind (m := s + a.length + 1) hha' (by omega) (by omega) (some y)
      have hhb2 : Holds (Function.update d (cell maxPqueue (s + a.length + 1)) (some y))
          (s + a.length + 1) (y :: b) := by
        refine ⟨Function.update_self _ _ _, ?_⟩
        exact holds_update_before hhb (by omega) (by omega) _
      rw [hdec]
      by_cases hfront : (((s + a.length + 49) % maxPqueue : ℕ) + 1 : Int) % maxPqueue = s
      · rw [if_pos hfront]
        have hnil : a = [] := by
          apply List.eq_nil_of_length_eq_zero
          unfold maxPqueue at *
          omega
        subst hnil
        exact ⟨_, rfl, hha2, hhb2⟩
      · rw [if_neg hfront]
        have hne : a ≠ [] := by
          rintro rfl
          apply hfront
          unfold maxPqueue at *
          simp only [List.length_nil]
          omega
        obtain ⟨d', h1, h2, h3⟩ := ih (y :: b) _ fuel hne
          (by rw [List.length_cons]; omega) (by omega) hha2 hhb2
        refine ⟨d', h1, h2, ?_⟩
        rwa [List.append_assoc]
    · rw [if_neg fun h => hlt (pqueueDataCmp_lt.mp h),
        List.rdropWhile_concat_neg _ _ _ (by simpa using hlt),
        List.rtakeWhile_concat_neg _ _ _ (by simpa using hlt), ← hi]
      refine ⟨d, rfl, hha, ?_⟩
      rw [List.length_append, List.length_singleton]
      exact hhb

/-! ## the calls -/

/-- **`enqueue` on the buffer is `enqueue` on the list.** -/
theorem enqueue_rep {p : Pqueue} {q : List PqueueData} (h : Rep p q) (fuel : ℕ)
    (x : PqueueData) :
    match LsmKv.enqueue q x with
    | none => enqueue (fuel + maxPqueue) p x = some (-1, p)
    | some q' => ∃ p', enqueue (fuel + maxPqueue) p x = some (0, p') ∧ Rep p' q' := by
  rw [enqueue_eq]
  by_cases hfull : maxPqueue ≤ q.length
  · rw [if_pos hfull]
    show enqueue _ p x = _
    rw [enqueue, if_pos (h.full_iff.mpr hfull)]
  rw [if_neg hfull]
  show ∃ p', enqueue _ p x = some (0, p') ∧ Rep p' (SortedQueue.insert _ x q)
  rw [enqueue, if_neg fun hf => hfull (h.full_iff.mp hf)]
  by_cases hempty : q = []
  · rw [if_pos (h.empty_iff.mpr hempty)]
    subst hempty
    rw [insert_nil]
    have hx : Holds (Function.update p.data ⟨0, by decide⟩ (some x)) 0 [x] :=
      ⟨Function.update_self _ _ _, trivial⟩
    exact ⟨_, rfl, Rep.cons 0 (by simp) (by simp [maxPqueue]) (by decide) rfl
      (by simp [maxPqueue]) hx⟩
  · rw [if_neg fun he => hempty (h.empty_iff.mp he)]
    cases h with
    | nil => exact absurd rfl hempty
    | cons s ne len lt front rear holds =>
      obtain ⟨d', h1, h2, h3⟩ := shift_spec lt x q [] p.data (fuel + maxPqueue) hempty
        (by simpa using hfull) (by omega) holds trivial
      have hparts := congrArg List.length
        (List.rdropWhile_append_rtakeWhile (p := (x.rank < PqueueData.rank ·)) (l := q))
      rw [List.append_nil] at h3
      rw [List.length_append] at hparts
      unfold SortedQueue.insert
      generalize q.rdropWhile (x.rank < PqueueData.rank ·) = a at *
      generalize q.rtakeWhile (x.rank < PqueueData.rank ·) = b at *
      have hi : (((s + a.length + 49) % maxPqueue : ℕ) + 1 : Int) % maxPqueue
          = ((s + a.length) % maxPqueue : ℕ) := by
        unfold maxPqueue
        omega
      rw [front, rear, h1]
      simp only [Option.bind_eq_bind, Option.bind_some]
      rw [hi, index_mod]
      refine ⟨_, rfl, Rep.cons s (by simp) ?_ lt rfl ?_ ?_⟩
      · simp only [List.length_append, List.length_cons]
        omega
      · show ((_ : Int) + 1) % _ = _
        simp only [List.length_append, List.length_cons]
        unfold maxPqueue at *
        omega
      · rw [holds_append]
        refine ⟨holds_update_behind h2 (by omega) (by omega) _, Function.update_self _ _ _, ?_⟩
        exact holds_update_before h3 (by omega) (by omega) _

/-- **`dequeue` takes the first element.** -/
theorem dequeue_rep {p : Pqueue} {q : List PqueueData} (h : Rep p q) :
    ∃ p', dequeue p = some (q.head?, p') ∧ Rep p' q.tail ∧ (q = [] → p' = p) := by
  unfold dequeue
  by_cases hempty : q = []
  · rw [if_pos (h.empty_iff.mpr hempty)]
    subst hempty
    exact ⟨p, rfl, h, fun _ => rfl⟩
  rw [if_neg fun he => hempty (h.empty_iff.mp he)]
  cases h with
  | nil => exact absurd rfl hempty
  | cons s ne len lt front rear holds =>
    obtain ⟨x, q, rfl⟩ := List.exists_cons_of_ne_nil ne
    obtain ⟨hx, hq⟩ := holds
    rw [front, index_lt lt]
    simp only [Option.bind_eq_bind, Option.bind_some, hx]
    have hone : p.rear = s ↔ q = [] := by
      rw [rear, ← List.length_eq_zero_iff]
      rw [List.length_cons] at *
      unfold maxPqueue at *
      omega
    by_cases hq0 : q = []
    · rw [if_pos (hone.mpr hq0)]
      subst hq0
      exact ⟨_, rfl, Rep.nil rfl rfl, fun h => absurd h hempty⟩
    · rw [if_neg fun he => hq0 (hone.mp he)]
      have hpos := List.length_pos_of_ne_nil hq0
      refine ⟨_, rfl, Rep.cons ((s + 1) % maxPqueue) hq0 ?_ (Nat.mod_lt _ (NeZero.pos _)) ?_ ?_ ?_,
        fun h => absurd h hempty⟩
      · rw [List.length_cons] at len
        exact Nat.le_of_succ_le len
      · show ((s : Int) + 1) % maxPqueue = _
        push_cast
        rfl
      · show p.rear = _
        rw [rear, List.length_cons, List.tail_cons]
        unfold maxPqueue at *
        omega
      · exact holds_mod.mpr hq

/-- **`peek` reads the first element.** -/
theorem peek_rep {p : Pqueue} {q : List PqueueData} (h : Rep p q) : peek p = some q.head? := by
  unfold peek
  cases h with
  | nil rear => rw [if_pos (by simp [empty, rear])]; rfl
  | cons s ne len lt front rear holds =>
    obtain ⟨x, q, rfl⟩ := List.exists_cons_of_ne_nil ne
    have hrear : p.rear ≠ -1 := by rw [rear]; omega
    rw [if_neg (by simpa [empty] using hrear), front, index_lt lt]
    simp only [Option.bind_eq_bind, Option.bind_some, holds.1, List.head?_cons]

/-! ## sequences of calls -/

/-- a call on the queue -/
inductive Call where
  | enqueue (x : PqueueData)
  | dequeue
  | peek
  deriving DecidableEq, Repr

/-- what a call returns: a code, or a pointer with `none` for NULL -/
inductive Answer where
  | code (c : Int)
  | data (x : Option PqueueData)
  deriving DecidableEq, Repr

def call (fuel : ℕ) (p : Pqueue) : Call → Option (Pqueue × Answer)
  | .enqueue x => (enqueue fuel p x).map fun (c, p) => (p, .code c)
  | .dequeue => (dequeue p).map fun (x, p) => (p, .data x)
  | .peek => (peek p).map fun x => (p, .data x)

/-- the queue and the answers after a sequence of calls -/
def calls (fuel : ℕ) : Pqueue → List Call → Option (Pqueue × List Answer)
  | p, [] => some (p, [])
  | p, c :: cs => do
    let (p, a) ← call fuel p c
    let (p, as) ← calls fuel p cs
    some (p, a :: as)

/-- what one call puts in, of the elements of rank `r` -/
def arrives (r : Rank) : Call × Answer → List PqueueData
  | (.enqueue x, .code 0) => [x].filter (·.rank = r)
  | _ => []

/-- what one call takes out, of the elements of rank `r` -/
def leaves (r : Rank) : Call × Answer → List PqueueData
  | (.dequeue, .data x) => x.toList.filter (·.rank = r)
  | _ => []

/-- the elements of rank `r` that the calls put in -/
def arrived (r : Rank) (cs : List Call) (as : List Answer) : List PqueueData :=
  (cs.zip as).flatMap (arrives r)

/-- the elements of rank `r` that the calls took out -/
def removed (r : Rank) (cs : List Call) (as : List Answer) : List PqueueData :=
  (cs.zip as).flatMap (leaves r)

/-- One call: the buffer goes on holding a list in order, and for each rank what was held and
what arrives is what is taken out and what is held. -/
theorem call_rep {p : Pqueue} {q : List PqueueData} (h : Rep p q)
    (hs : (q.map PqueueData.rank).Pairwise (· ≤ ·)) (fuel : ℕ) (c : Call) :
    ∃ p' q' a, call (fuel + maxPqueue) p c = some (p', a) ∧ Rep p' q' ∧
      (q'.map PqueueData.rank).Pairwise (· ≤ ·) ∧
      ∀ r, q.filter (·.rank = r) ++ arrives r (c, a)
        = leaves r (c, a) ++ q'.filter (·.rank = r) := by
  cases c with
  | enqueue x =>
    have he := enqueue_rep h fuel x
    rw [enqueue_eq] at he
    by_cases hfull : maxPqueue ≤ q.length
    · rw [if_pos hfull] at he
      refine ⟨p, q, .code (-1), ?_, h, hs, fun r => by simp [arrives, leaves]⟩
      rw [call, he]
      rfl
    · rw [if_neg hfull] at he
      obtain ⟨p', he, hp'⟩ := he
      refine ⟨p', _, .code 0, ?_, hp', ?_, fun r => ?_⟩
      · rw [call, he]
        rfl
      · rw [map_insert]
        exact sorted_insert _ hs
      · rw [filter_insert]
        simp [arrives, leaves, List.filter_singleton]
  | dequeue =>
    obtain ⟨p', he, hp', -⟩ := dequeue_rep h
    refine ⟨p', _, .data q.head?, ?_, hp', ?_, fun r => ?_⟩
    · rw [call, he]
      rfl
    · rw [List.map_tail]
      exact hs.tail
    · cases q with
      | nil => rfl
      | cons x q =>
        simp only [arrives, leaves, List.filter_cons, List.head?_cons, Option.toList_some,
          List.filter_nil, List.append_nil, List.tail_cons]
        split_ifs <;> rfl
  | peek =>
    refine ⟨p, q, .data q.head?, ?_, h, hs, fun r => by simp [arrives, leaves]⟩
    rw [call, peek_rep h]
    rfl

theorem arrived_cons (r : Rank) (c : Call) (cs : List Call) (a : Answer) (as : List Answer) :
    arrived r (c :: cs) (a :: as) = arrives r (c, a) ++ arrived r cs as := by
  simp [arrived]

theorem removed_cons (r : Rank) (c : Call) (cs : List Call) (a : Answer) (as : List Answer) :
    removed r (c :: cs) (a :: as) = leaves r (c, a) ++ removed r cs as := by
  simp [removed]

theorem calls_rep (fuel : ℕ) (cs : List Call) : ∀ {p : Pqueue} {q : List PqueueData}, Rep p q →
    (q.map PqueueData.rank).Pairwise (· ≤ ·) →
    ∃ p' q' as, calls (fuel + maxPqueue) p cs = some (p', as) ∧ Rep p' q' ∧
      (q'.map PqueueData.rank).Pairwise (· ≤ ·) ∧
      ∀ r, q.filter (·.rank = r) ++ arrived r cs as
        = removed r cs as ++ q'.filter (·.rank = r) := by
  induction cs with
  | nil =>
    intro p q h hs
    exact ⟨p, q, [], rfl, h, hs, fun r => by simp [arrived, removed]⟩
  | cons c cs ih =>
    intro p q h hs
    obtain ⟨p1, q1, a, hc, h1, hs1, hr1⟩ := call_rep h hs fuel c
    obtain ⟨p2, q2, as, hcs, h2, hs2, hr2⟩ := ih h1 hs1
    refine ⟨p2, q2, a :: as, ?_, h2, hs2, fun r => ?_⟩
    · rw [calls, hc]
      simp only [Option.bind_eq_bind, Option.bind_some, hcs]
    · calc q.filter (·.rank = r) ++ arrived r (c :: cs) (a :: as)
          = (q.filter (·.rank = r) ++ arrives r (c, a)) ++ arrived r cs as := by
            rw [arrived_cons, List.append_assoc]
        _ = leaves r (c, a) ++ (q1.filter (·.rank = r) ++ arrived r cs as) := by
            rw [hr1, List.append_assoc]
        _ = removed r (c :: cs) (a :: as) ++ q2.filter (·.rank = r) := by
            rw [hr2, removed_cons, List.append_assoc]

/-- **The lock queue is a bounded list in order.**  Any sequence of calls on an initialized queue
ends, whatever its memory held, and `data` read from `front` to `rear` is then a list sorted by
timestamp and node; elements of one rank leave in the order in which they arrived.  One more call
does to that list what it should. -/
theorem pqueue_run (data : Fin maxPqueue → Option PqueueData) (rear front : Int) (fuel : ℕ)
    (cs : List Call) :
    ∃ (p : Pqueue) (q : List PqueueData) (as : List Answer),
      calls (fuel + maxPqueue) (initializeQueue data rear front) cs = some (p, as) ∧
      p.readOut = q.map some ∧ q.length ≤ maxPqueue ∧
      q.Pairwise (fun x y => x.rank ≤ y.rank) ∧
      (∀ r, arrived r cs as = removed r cs as ++ q.filter (·.rank = r)) ∧
      (∀ x, if q.length < maxPqueue then
          ∃ (p' : Pqueue) (q' : List PqueueData),
            enqueue (fuel + maxPqueue) p x = some (0, p') ∧ p'.readOut = q'.map some ∧
            q'.Perm (x :: q) ∧ q'.Pairwise (fun x y => x.rank ≤ y.rank) ∧
            ∀ r, q'.filter (·.rank = r) = q.filter (·.rank = r) ++ [x].filter (·.rank = r)
        else enqueue (fuel + maxPqueue) p x = some (-1, p)) ∧
      (∃ p', dequeue p = some (q.head?, p') ∧ p'.readOut = q.tail.map some ∧
        (q = [] → p' = p)) ∧
      peek p = some q.head? := by
  obtain ⟨p, q, as, hcs, hp, hs, hr⟩ :=
    calls_rep fuel cs (rep_initializeQueue data rear front) List.Pairwise.nil
  have hsorted : ∀ {q : List PqueueData}, (q.map PqueueData.rank).Pairwise (· ≤ ·) →
      q.Pairwise fun x y => x.rank ≤ y.rank := fun h => List.pairwise_map.mp h
  refine ⟨p, q, as, hcs, hp.readOut, hp.length_le, hsorted hs, fun r => ?_, fun x => ?_, ?_,
    peek_rep hp⟩
  · simpa using hr r
  · have he := enqueue_rep hp fuel x
    rw [enqueue_eq] at he
    split_ifs with hlt
    · rw [if_neg (by omega)] at he
      obtain ⟨p', he, hp'⟩ := he
      refine ⟨p', _, he, hp'.readOut, insert_perm q, hsorted ?_, fun r => ?_⟩
      · rw [map_insert]
        exact sorted_insert _ hs
      · rw [filter_insert]
        simp [List.filter_singleton]
    · rwa [if_pos (by omega)] at he
  · obtain ⟨p', he, hp', hnil⟩ := dequeue_rep hp
    exact ⟨p', he, hp'.readOut, hnil⟩

end Pqueue

end LsmKv
