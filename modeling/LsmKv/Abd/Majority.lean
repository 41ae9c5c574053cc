import Mathlib.Data.Finset.Card
import LsmKv.Lib.Run
import LsmKv.Abd.Client

/-!
# How long a query waits (`client.c`)

One client calls `abd_read_query` and `abd_write_query`, one after the other.  Each call starts a
thread for each of the `n` nodes and returns when its semaphore shows a majority.  The semaphores
are shared by all calls of a kind, and the threads of a call read their node from the one argument
of the call, whenever they run.  What is asked and answered does not matter here.

* `Calls`, `Calls.step`   the calls, their threads, the semaphores, and one step;
* `Quorate`               each call that has returned had the answers of a majority of its own;
* `Calls.Inv`             a semaphore counts the posts of all calls of its kind;
* `quorate_of_apart`      if no kind is called twice and the threads of a call have read different
                          nodes, each call has waited for its own majority;
* `StepOk`                the condition on a step that keeps this so;
* `every_order_iff`       the sequences of calls for which it is so in every order of steps.
-/

namespace LsmKv

open Run

/-- where a thread is: it has read its node and asked it, has the reply, has posted, or found the
connection closed -/
inductive SenderPhase (n : ℕ) where
  | created
  | asked (i : Fin n)
  | replied (i : Fin n)
  | posted (i : Fin n)
  | closed (i : Fin n)
  deriving DecidableEq, Repr

/-- one thread, `send_abd_read_query` or `send_abd_write_query`, and the number of its call -/
structure Sender (n : ℕ) where
  kind : Kind
  call : ℕ
  phase : SenderPhase n
  deriving DecidableEq, Repr

/-- where the call under way is -/
inductive CallProg where
  | idle
  | spawning (kind : Kind) (call : ℕ) (i : ℕ)
  | waiting (kind : Kind) (call : ℕ)
  deriving DecidableEq, Repr

structure Calls (n : ℕ) where
  /-- `rq_sem` and `wq_sem` -/
  sem : Kind → ℕ
  /-- `arg->node_id` of each call -/
  nodeId : ℕ → Option (Fin n)
  senders : List (Sender n)
  calls : List Kind
  prog : CallProg
  /-- the nodes that had answered a call when it returned -/
  returned : List (Finset (Fin n))

inductive CallAct where
  | start (kind : Kind)
  | spawn
  | run (j : ℕ)
  | reply (j : ℕ)
  | close (j : ℕ)
  | post (j : ℕ)
  | proceed
  deriving DecidableEq, Repr

section phase
variable {n : ℕ}

/-- the call under way -/
def CallProg.current : CallProg → Option (Kind × ℕ)
  | .idle => none
  | .spawning kind call _ => some (kind, call)
  | .waiting kind call => some (kind, call)

/-- the node that was read -/
def SenderPhase.node : SenderPhase n → Option (Fin n)
  | .created => none
  | .asked i => some i
  | .replied i => some i
  | .posted i => some i
  | .closed i => some i

/-- the node that has answered -/
def SenderPhase.answer : SenderPhase n → Option (Fin n)
  | .replied i => some i
  | .posted i => some i
  | _ => none

/-- it has posted -/
def Sender.hasPosted (q : Sender n) : Bool :=
  match q.phase with
  | .posted _ => true
  | _ => false

end phase

namespace Calls
variable {n : ℕ}

def init : Calls n := ⟨fun _ => 0, fun _ => none, [], [], .idle, []⟩

def setSender (s : Calls n) (j : ℕ) (q : Sender n) : Calls n :=
  { s with senders := s.senders.set j q }

/-- the nodes that have answered a call -/
def answered (s : Calls n) (call : ℕ) : Finset (Fin n) :=
  (s.senders.filterMap fun q => if q.call = call then q.phase.answer else none).toFinset

def step (s : Calls n) : CallAct → Option (Calls n)
  | .start kind =>
    match s.prog with
    | .idle => some { s with
        calls := s.calls ++ [kind], prog := .spawning kind s.calls.length 0 }
    | _ => none
  | .spawn =>
    match s.prog with
    | .spawning kind call i =>
      if h : i < n then some { s with
        nodeId := Function.update s.nodeId call (some ⟨i, h⟩)
        senders := s.senders ++ [⟨kind, call, .created⟩]
        prog := .spawning kind call (i + 1) }
      else some { s with prog := .waiting kind call }
    | _ => none
  | .run j =>
    -- int i = _arg->node_id, when the thread runs
    match s.senders[j]? with
    | some ⟨kind, call, .created⟩ =>
      (s.nodeId call).map fun i => s.setSender j ⟨kind, call, .asked i⟩
    | _ => none
  | .reply j =>
    match s.senders[j]? with
    | some ⟨kind, call, .asked i⟩ => some (s.setSender j ⟨kind, call, .replied i⟩)
    | _ => none
  | .close j =>
    match s.senders[j]? with
    | some ⟨kind, call, .asked i⟩ => some (s.setSender j ⟨kind, call, .closed i⟩)
    | _ => none
  | .post j =>
    match s.senders[j]? with
    | some ⟨kind, call, .replied i⟩ => some { s.setSender j ⟨kind, call, .posted i⟩ with
        sem := Function.update s.sem kind (s.sem kind + 1) }
    | _ => none
  | .proceed =>
    -- the semaphore is only read
    match s.prog with
    | .waiting kind call =>
      if s.sem kind < n / 2 + 1 then none
      else some { s with prog := .idle, returned := s.answered call :: s.returned }
    | _ => none

/-- what one step does; a thread stands between those created before and behind it -/
inductive Step (s : Calls n) : CallAct → Calls n → Prop where
  | start (kind : Kind) (hp : s.prog = .idle) : Step s (.start kind)
      { s with calls := s.calls ++ [kind], prog := .spawning kind s.calls.length 0 }
  | create (kind : Kind) (call : ℕ) (i : Fin n) (hp : s.prog = .spawning kind call i) :
      Step s .spawn { s with
        nodeId := Function.update s.nodeId call (some i)
        senders := s.senders ++ [⟨kind, call, .created⟩]
        prog := .spawning kind call (i + 1) }
  | created (kind : Kind) (call i : ℕ) (hp : s.prog = .spawning kind call i) :
      Step s .spawn { s with prog := .waiting kind call }
  | run (j : ℕ) (kind : Kind) (call : ℕ) (i : Fin n) (l1 l2 : List (Sender n))
      (hj : s.senders[j]? = some ⟨kind, call, .created⟩)
      (hs : s.senders = l1 ++ ⟨kind, call, .created⟩ :: l2) (hi : s.nodeId call = some i) :
      Step s (.run j) { s with senders := l1 ++ ⟨kind, call, .asked i⟩ :: l2 }
  | move (a : CallAct) (kind : Kind) (call : ℕ) (i : Fin n) (phase : SenderPhase n)
      (l1 l2 : List (Sender n)) (hs : s.senders = l1 ++ ⟨kind, call, .asked i⟩ :: l2)
      (hphase : phase = .replied i ∨ phase = .closed i) :
      Step s a { s with senders := l1 ++ ⟨kind, call, phase⟩ :: l2 }
  | post (j : ℕ) (kind : Kind) (call : ℕ) (i : Fin n) (l1 l2 : List (Sender n))
      (hs : s.senders = l1 ++ ⟨kind, call, .replied i⟩ :: l2) :
      Step s (.post j) { s with
        senders := l1 ++ ⟨kind, call, .posted i⟩ :: l2
        sem := Function.update s.sem kind (s.sem kind + 1) }
  | proceed (kind : Kind) (call : ℕ) (hp : s.prog = .waiting kind call)
      (hsem : n / 2 + 1 ≤ s.sem kind) :
      Step s .proceed { s with prog := .idle, returned := s.answered call :: s.returned }

/-- an element and what stands before and behind it -/
theorem split_set {α : Type} {l : List α} {j : ℕ} {a : α} (h : l[j]? = some a) (b : α) :
    ∃ l1 l2, l = l1 ++ a :: l2 ∧ l.set j b = l1 ++ b :: l2 := by
  obtain ⟨hj, rfl⟩ := List.getElem?_eq_some_iff.mp h
  refine ⟨l.take j, l.drop (j + 1), ?_, ?_⟩
  · rw [← List.drop_eq_getElem_cons hj, List.take_append_drop]
  · exact List.set_eq_take_append_cons_drop.trans (if_pos hj)

/-- **The steps are those of `Step`.** -/
theorem step_cases {s s' : Calls n} {a : CallAct} (h : s.step a = some s') : Step s a s' := by
  cases a with
  | start kind =>
    cases hp : s.prog with
    | idle => simp only [step, hp] at h; cases h; exact .start kind hp
    | spawning | waiting => simp only [step, hp] at h; cases h
  | spawn =>
    cases hp : s.prog with
    | spawning kind call i =>
      simp only [step, hp] at h
      split_ifs at h with hi
      · cases h
        exact .create kind call ⟨i, hi⟩ hp
      · cases h
        exact .created kind call i hp
    | idle | waiting => simp only [step, hp] at h; cases h
  | run j =>
    simp only [step] at h
    split at h
    · rename_i kind call hj
      obtain ⟨i, hi, rfl⟩ := Option.map_eq_some_iff.mp h
      obtain ⟨l1, l2, hs, hset⟩ := split_set hj ⟨kind, call, .asked i⟩
      rw [setSender, hset]
      exact .run j kind call i l1 l2 hj hs hi
    · cases h
  | reply j =>
    simp only [step] at h
    split at h
    · rename_i kind call i hj
      cases h
      obtain ⟨l1, l2, hs, hset⟩ := split_set hj ⟨kind, call, .replied i⟩
      rw [setSender, hset]
      exact .move _ kind call i _ l1 l2 hs (Or.inl rfl)
    · cases h
  | close j =>
    simp only [step] at h
    split at h
    · rename_i kind call i hj
      cases h
      obtain ⟨l1, l2, hs, hset⟩ := split_set hj ⟨kind, call, .closed i⟩
      rw [setSender, hset]
      exact .move _ kind call i _ l1 l2 hs (Or.inr rfl)
    · cases h
  | post j =>
    simp only [step] at h
    split at h
    · rename_i kind call i hj
      cases h
      obtain ⟨l1, l2, hs, hset⟩ := split_set hj ⟨kind, call, .posted i⟩
      rw [setSender, hset]
      exact .post j kind call i l1 l2 hs
    · cases h
  | proceed =>
    cases hp : s.prog with
    | waiting kind call =>
      simp only [step, hp] at h
      split_ifs at h with hsem
      cases h
      exact .proceed kind call hp (by omega)
    | idle | spawning => simp only [step, hp] at h; cases h

/-! ## what holds in every run -/

structure Inv (s : Calls n) : Prop where
  /-- a thread belongs to a call of its kind -/
  own : ∀ q ∈ s.senders, s.calls[q.call]? = some q.kind
  current : ∀ kind call, s.prog.current = some (kind, call) → s.calls[call]? = some kind
  sem : ∀ kind, s.sem kind = s.senders.countP fun q => q.kind = kind ∧ q.hasPosted

theorem inv_init : Inv (init (n := n)) where
  own := fun q hq => absurd hq List.not_mem_nil
  current := fun _ _ h => by cases h
  sem := fun _ => rfl

/-- a thread that goes on within its call, and posts or not -/
theorem Inv.replace {s : Calls n} (hi : Inv s) {kind : Kind} {call : ℕ} {phase : SenderPhase n}
    {l1 l2 : List (Sender n)} (hs : s.senders = l1 ++ ⟨kind, call, phase⟩ :: l2)
    (hold : (⟨kind, call, phase⟩ : Sender n).hasPosted = false) (q : Sender n)
    (hk : q.kind = kind) (hc : q.call = call) :
    Inv { s with
      senders := l1 ++ q :: l2
      sem := if q.hasPosted then Function.update s.sem kind (s.sem kind + 1) else s.sem } where
  own := by
    intro p hp
    have hown := hi.own
    rw [hs] at hown
    rcases List.mem_append.mp hp with h | h
    · exact hown p (List.mem_append_left _ h)
    · rcases List.mem_cons.mp h with rfl | h
      · rw [hk, hc]
        exact hown _ (List.mem_append_right _ List.mem_cons_self)
      · exact hown p (List.mem_append_right _ (List.mem_cons_of_mem _ h))
  current := hi.current
  sem := by
    intro k
    have hsem := hi.sem k
    rw [hs, List.countP_append, List.countP_cons] at hsem
    simp only [hold] at hsem
    show (if q.hasPosted then Function.update s.sem kind (s.sem kind + 1) else s.sem) k = _
    rw [List.countP_append, List.countP_cons]
    cases hq : q.hasPosted with
    | false => simpa [hq] using hsem
    | true =>
      by_cases h : k = kind
      · subst h
        simp [hk, hsem]
        omega
      · have h' : ¬ kind = k := fun e => h e.symm
        simp [hk, h, h', hsem]

theorem Inv.step {s s' : Calls n} {a : CallAct} (hi : Inv s) (h : s.step a = some s') :
    Inv s' := by
  cases step_cases h with
  | start kind hp =>
    refine ⟨fun q hq => ?_, fun k c hc => ?_, hi.sem⟩
    · have hown := hi.own q hq
      obtain ⟨hlt, -⟩ := List.getElem?_eq_some_iff.mp hown
      exact (List.getElem?_append_left hlt).trans hown
    · cases hc
      exact List.getElem?_concat_length
  | create kind call i hp =>
    have hcur := hi.current kind call (by rw [hp]; rfl)
    refine ⟨fun q hq => ?_, fun k c hc => ?_, fun k => ?_⟩
    · rcases List.mem_append.mp hq with hq | hq
      · exact hi.own q hq
      · rw [List.mem_singleton] at hq
        rw [hq]
        exact hcur
    · cases hc
      exact hcur
    · rw [hi.sem k]
      simp [Sender.hasPosted]
  | created kind call i hp =>
    refine ⟨hi.own, fun k c hc => ?_, hi.sem⟩
    cases hc
    exact hi.current kind call (by rw [hp]; rfl)
  | run j kind call i l1 l2 hj hs hn => exact hi.replace hs rfl ⟨kind, call, .asked i⟩ rfl rfl
  | move _ kind call i phase l1 l2 hs hphase =>
    have hr := hi.replace hs rfl ⟨kind, call, phase⟩ rfl rfl
    rcases hphase with rfl | rfl
    · exact hr
    · exact hr
  | post j kind call i l1 l2 hs => exact hi.replace hs rfl ⟨kind, call, .posted i⟩ rfl rfl
  | proceed kind call hp hsem => exact ⟨hi.own, fun _ _ hc => (by cases hc), hi.sem⟩

/-- **The invariant of every run.** -/
theorem inv_of_run {es : List CallAct} {s : Calls n} (hr : run step init es = some s) :
    Inv s := by
  have hstep : ∀ (s : Calls n) a t, Inv s → True → step s a = some t → Inv t :=
    fun _ _ _ hi _ h => hi.step h
  exact inv_of_guarded hstep inv_init (guarded_of_forall fun _ _ _ => trivial) hr

/-! ## which posts a call has seen -/

/-- each call that has returned had the answers of a majority of its own -/
def Quorate (s : Calls n) : Prop := ∀ x ∈ s.returned, n / 2 + 1 ≤ x.card

/-- two threads of a call have not read the same node -/
def Apart (s : Calls n) : Prop :=
  s.senders.Pairwise fun p q => p.call = q.call → ∀ i, p.phase.node = some i →
    q.phase.node ≠ some i

theorem node_of_answer {phase : SenderPhase n} {i : Fin n} (h : phase.answer = some i) :
    phase.node = some i := by
  cases phase with
  | replied | posted => exact h
  | created | asked | closed => cases h

theorem answer_of_hasPosted {q : Sender n} (h : q.hasPosted = true) :
    q.phase.answer.isSome = true := by
  obtain ⟨kind, call, phase⟩ := q
  cases phase with
  | posted i => rfl
  | created | asked | replied | closed => cases h

/-- the answers to a call, one for each thread that has one -/
def answers (s : Calls n) (call : ℕ) : List (Fin n) :=
  s.senders.filterMap fun q => if q.call = call then q.phase.answer else none

theorem answered_eq (s : Calls n) (call : ℕ) : s.answered call = (s.answers call).toFinset := rfl

/-- **No kind called twice**: what the semaphore shows are posts of the call under way. -/
theorem sem_le_answers {s : Calls n} (hi : Inv s) (hn : s.calls.Nodup) {kind : Kind} {call : ℕ}
    (hp : s.prog.current = some (kind, call)) : s.sem kind ≤ (s.answers call).length := by
  rw [hi.sem kind, answers, List.length_filterMap_eq_countP]
  apply List.countP_mono_left
  intro q hq hpost
  simp only [Bool.decide_and, Bool.and_eq_true, decide_eq_true_eq] at hpost
  obtain ⟨hk, hpost⟩ := hpost
  have hown := hi.own q hq
  have hcur := hi.current kind call hp
  have hcall : q.call = call := by
    obtain ⟨hlt, -⟩ := List.getElem?_eq_some_iff.mp hown
    apply (List.getElem?_inj hlt hn).mp
    rw [hown, hcur, hk]
  simp only [hcall, if_true]
  exact answer_of_hasPosted (by simpa using hpost)

/-- one element of a list in which every two are related -/
theorem pairwise_replace {α : Type} {R : α → α → Prop} {l1 l2 : List α} {p q : α}
    (h : (l1 ++ p :: l2).Pairwise R) (hl : ∀ r ∈ l1, R r p → R r q)
    (hr : ∀ r ∈ l2, R p r → R q r) : (l1 ++ q :: l2).Pairwise R := by
  rw [List.pairwise_append, List.pairwise_cons] at h ⊢
  obtain ⟨h1, ⟨hp, h2⟩, h12⟩ := h
  refine ⟨h1, ⟨fun r hr' => hr r hr' (hp r hr'), h2⟩, fun r hr' t ht => ?_⟩
  rcases List.mem_cons.mp ht with rfl | ht
  · exact hl r hr' (h12 r hr' p List.mem_cons_self)
  · exact h12 r hr' t (List.mem_cons_of_mem _ ht)

/-- threads that were apart still are when one of them has read no more than before -/
theorem apart_replace {s s' : Calls n} {l1 l2 : List (Sender n)} {p q : Sender n} (h : s.Apart)
    (hs : s.senders = l1 ++ p :: l2) (hs' : s'.senders = l1 ++ q :: l2) (hcall : q.call = p.call)
    (hnode : ∀ i, q.phase.node = some i → p.phase.node = some i) : s'.Apart := by
  unfold Apart at h ⊢
  rw [hs] at h
  rw [hs']
  apply pairwise_replace h
  · intro r _ hrp hc i hi hq
    exact hrp (hc.trans hcall) i hi (hnode i hq)
  · intro r _ hpr hc i hi
    exact hpr (hcall.symm.trans hc) i (hnode i hi)

/-- the threads that were apart later were so before -/
theorem apart_of_step {s s' : Calls n} {a : CallAct} (h : s.step a = some s')
    (hs' : s'.Apart) : s.Apart := by
  cases step_cases h with
  | start | created | proceed => exact hs'
  | create kind call i hp => exact (List.pairwise_append.mp hs').1
  | run j kind call i l1 l2 hj hs hn =>
    exact apart_replace hs' rfl hs rfl (fun _ hk => by cases hk)
  | move _ kind call i phase l1 l2 hs hphase =>
    refine apart_replace hs' rfl hs rfl (fun k hk => ?_)
    rcases hphase with rfl | rfl
    · exact hk
    · exact hk
  | post j kind call i l1 l2 hs => exact apart_replace hs' rfl hs rfl (fun _ hk => hk)

/-- the calls are only added to -/
theorem calls_prefix_of_step {s s' : Calls n} {a : CallAct} (h : s.step a = some s') :
    s.calls <+: s'.calls := by
  cases step_cases h with
  | start => exact List.prefix_append _ _
  | create | created | run | move | post | proceed => exact List.prefix_rfl

/-- **The induction over a run.**  `P` is kept backwards, and where it holds a call whose
semaphore shows a majority has one. -/
theorem quorate_of_run {P : Calls n → Prop}
    (hback : ∀ s s' a, step s a = some s' → P s' → P s)
    (hcard : ∀ s kind call, Inv s → P s → s.prog.current = some (kind, call) →
      n / 2 + 1 ≤ s.sem kind → n / 2 + 1 ≤ (s.answered call).card)
    {es : List CallAct} {s : Calls n} (hr : run step init es = some s) (hP : P s) :
    Quorate s := by
  induction es using List.reverseRecOn generalizing s with
  | nil =>
    cases hr
    exact fun x hx => absurd hx List.not_mem_nil
  | append_singleton es a ih =>
    rw [run_snoc] at hr
    obtain ⟨u, hu, hstep⟩ := Option.bind_eq_some_iff.mp hr
    have hPu := hback u s a hstep hP
    have hq := ih hu hPu
    cases step_cases hstep with
    | start | create | created | run | move | post => exact hq
    | proceed kind call hp hsem =>
      intro x hx
      rcases List.mem_cons.mp hx with rfl | hx
      · exact hcard u kind call (inv_of_run hu) hPu (by rw [hp]; rfl) hsem
      · exact hq x hx

theorem answers_nodup {s : Calls n} (h : s.Apart) (call : ℕ) : (s.answers call).Nodup := by
  apply List.Pairwise.filterMap _ ?_ h
  intro p q hpq i hi j hj hij
  split_ifs at hi hj with hp hq
  rw [hij] at hi
  exact hpq (hp.trans hq.symm) j (node_of_answer hi) (node_of_answer hj)

/-- **Each call waits for its own majority** while no kind is called twice and the threads of a
call have read different nodes. -/
theorem quorate_of_apart {es : List CallAct} {s : Calls n} (hr : run step init es = some s)
    (hn : s.calls.Nodup) (hapart : s.Apart) : Quorate s := by
  refine quorate_of_run (P := fun s => s.calls.Nodup ∧ s.Apart) ?_ ?_ hr ⟨hn, hapart⟩
  · intro s s' a h hs'
    exact ⟨hs'.1.sublist (calls_prefix_of_step h).sublist, apart_of_step h hs'.2⟩
  · intro s kind call hi hP hp hsem
    rw [answered_eq, List.toFinset_card_of_nodup (answers_nodup hP.2 call)]
    exact hsem.trans (sem_le_answers hi hP.1 hp)

/-- No kind is called twice, and a thread runs only while no other thread of its call has read the
node that it is about to read. -/
def StepOk (s : Calls n) : CallAct → Prop
  | .start kind => kind ∉ s.calls
  | .run j => ∀ q ∈ s.senders[j]?, ∀ i ∈ s.nodeId q.call, ∀ p ∈ s.senders,
      p.call = q.call → p.phase.node ≠ some i
  | _ => True

instance (s : Calls n) : ∀ a, Decidable (StepOk s a)
  | .start kind => inferInstanceAs (Decidable (kind ∉ s.calls))
  | .run j => inferInstanceAs (Decidable (∀ q ∈ s.senders[j]?, ∀ i ∈ s.nodeId q.call,
      ∀ p ∈ s.senders, p.call = q.call → p.phase.node ≠ some i))
  | .spawn | .reply _ | .close _ | .post _ | .proceed => isTrue trivial

theorem apart_step {s s' : Calls n} {a : CallAct} (hn : s.calls.Nodup) (ha : s.Apart)
    (ho : StepOk s a) (h : s.step a = some s') : s'.calls.Nodup ∧ s'.Apart := by
  cases step_cases h with
  | start kind hp =>
    refine ⟨List.nodup_append.mpr ⟨hn, List.nodup_singleton _, fun b hb c hc => ?_⟩, ha⟩
    rw [List.mem_singleton.mp hc]
    exact fun he => ho (he ▸ hb)
  | create kind call i hp =>
    refine ⟨hn, List.pairwise_append.mpr ⟨ha, List.pairwise_singleton _ _, ?_⟩⟩
    intro p hp q hq _ i _ hi
    rw [List.mem_singleton.mp hq] at hi
    cases hi
  | run j kind call i l1 l2 hj hs hi =>
    refine ⟨hn, ?_⟩
    have hfresh := ho _ hj i hi
    rw [hs] at hfresh
    unfold Apart at ha ⊢
    rw [hs] at ha
    apply pairwise_replace ha
    · intro p hp _ hc k hk hik
      rw [← hik] at hk
      exact hfresh p (List.mem_append_left _ hp) hc hk
    · intro q hq _ hc k hk
      obtain rfl := Option.some.inj hk
      exact hfresh q (List.mem_append_right _ (List.mem_cons_of_mem _ hq)) hc.symm
  | move a kind call i phase l1 l2 hs hphase =>
    refine ⟨hn, apart_replace ha hs rfl rfl (fun k hk => ?_)⟩
    rcases hphase with rfl | rfl
    · exact hk
    · exact hk
  | post j kind call i l1 l2 hs =>
    exact ⟨hn, apart_replace ha hs rfl rfl (fun _ hk => hk)⟩
  | created | proceed => exact ⟨hn, ha⟩

/-- **In every run whose steps meet the condition** each call waits for its own majority. -/
theorem quorate_of_guarded {es : List CallAct} {s : Calls n}
    (hg : Guarded step StepOk (init : Calls n) es) (hr : run step init es = some s) :
    Quorate s := by
  have hstep : ∀ (s : Calls n) a t, (s.calls.Nodup ∧ s.Apart) → StepOk s a → step s a = some t →
      t.calls.Nodup ∧ t.Apart := fun s a t hi ho h => apart_step hi.1 hi.2 ho h
  have h0 : (init : Calls n).calls.Nodup ∧ (init : Calls n).Apart :=
    ⟨List.nodup_nil, List.Pairwise.nil⟩
  obtain ⟨hn, ha⟩ := inv_of_guarded hstep h0 hg hr
  exact quorate_of_apart hr hn ha

/-! ## the calls for which it does in every order -/

/-- a thread runs, is answered and posts -/
theorem run_answer (s : Calls n) {kind : Kind} {call : ℕ} {x : Fin n} {l1 l2 : List (Sender n)}
    (hs : s.senders = l1 ++ ⟨kind, call, .created⟩ :: l2) (hx : s.nodeId call = some x) :
    run step s [.run l1.length, .reply l1.length, .post l1.length] = some { s with
      senders := l1 ++ ⟨kind, call, .posted x⟩ :: l2
      sem := Function.update s.sem kind (s.sem kind + 1) } := by
  simp [step, hs, hx, setSender]

/-- `k` threads in a row, which all read the same node -/
theorem run_answers (k : ℕ) (s : Calls n) {kind : Kind} {call : ℕ} {x : Fin n}
    (l1 l2 : List (Sender n))
    (hs : s.senders = l1 ++ (List.replicate k ⟨kind, call, .created⟩ ++ l2))
    (hx : s.nodeId call = some x) :
    ∃ es, run step s es = some { s with
      senders := l1 ++ (List.replicate k ⟨kind, call, .posted x⟩ ++ l2)
      sem := Function.update s.sem kind (s.sem kind + k) } := by
  induction k generalizing s l1 with
  | zero =>
    have h0 : l1 ++ (List.replicate 0 ⟨kind, call, .posted x⟩ ++ l2) = s.senders := hs.symm
    refine ⟨[], ?_⟩
    rw [run_nil, h0, Nat.add_zero, Function.update_eq_self]
  | succ k ih =>
    rw [List.replicate_succ, List.cons_append] at hs
    have hone := run_answer s hs hx
    obtain ⟨es, hes⟩ := ih { s with
      senders := l1 ++ ⟨kind, call, .posted x⟩ ::
        (List.replicate k ⟨kind, call, .created⟩ ++ l2)
      sem := Function.update s.sem kind (s.sem kind + 1) } (l1 ++ [⟨kind, call, .posted x⟩])
      (by simp) hx
    refine ⟨[.run l1.length, .reply l1.length, .post l1.length] ++ es, ?_⟩
    rw [run_append, hone, Option.bind_some, hes]
    simp [List.replicate_succ, Nat.add_assoc, Nat.add_comm]

/-- the threads are created -/
theorem run_spawns (k : ℕ) (s : Calls n) {kind : Kind} {call i : ℕ} (hin : i + k = n)
    (hp : s.prog = .spawning kind call i) :
    ∃ es nodeId, run step s es = some { s with
        nodeId := nodeId
        senders := s.senders ++ List.replicate k ⟨kind, call, .created⟩
        prog := .waiting kind call } ∧
      (0 < k ∨ (s.nodeId call).isSome → (nodeId call).isSome) := by
  induction k generalizing s i with
  | zero =>
    refine ⟨[.spawn], s.nodeId, ?_, fun h => h.resolve_left (lt_irrefl 0)⟩
    have hi : ¬ i < n := by omega
    simp [step, hp, hi]
  | succ k ih =>
    have hi : i < n := by omega
    have hone : s.step .spawn = some { s with
        nodeId := Function.update s.nodeId call (some ⟨i, hi⟩)
        senders := s.senders ++ [⟨kind, call, .created⟩]
        prog := .spawning kind call (i + 1) } := by
      simp [step, hp, hi]
    obtain ⟨es, nodeId, hes, hsome⟩ := ih _ (by omega : i + 1 + k = n)
      (rfl : (Calls.mk s.sem (Function.update s.nodeId call (some ⟨i, hi⟩))
        (s.senders ++ [⟨kind, call, .created⟩]) s.calls (.spawning kind call (i + 1))
        s.returned).prog = _)
    refine ⟨.spawn :: es, nodeId, ?_, fun _ => hsome (Or.inr (by simp))⟩
    rw [run_cons, hone, Option.bind_some, hes]
    simp [List.replicate_succ]

/-- a call of `s` that waits; `l` are its threads -/
structure Waiting (s : Calls n) (kind : Kind) (l : List (Sender n)) (t : Calls n) : Prop where
  prog : t.prog = .waiting kind s.calls.length
  calls : t.calls = s.calls ++ [kind]
  senders : t.senders = s.senders ++ l
  returned : t.returned = s.returned

/-- a call, up to where it waits -/
theorem run_start (s : Calls n) (hn : 1 ≤ n) (kind : Kind) (hp : s.prog = .idle) :
    ∃ es t x, run step s es = some t ∧
      Waiting s kind (List.replicate n ⟨kind, s.calls.length, .created⟩) t ∧
      t.sem = s.sem ∧ t.nodeId s.calls.length = some x := by
  obtain ⟨es, nodeId, hes, hsome⟩ := run_spawns n
    { s with calls := s.calls ++ [kind], prog := .spawning kind s.calls.length 0 }
    (Nat.zero_add n) rfl
  obtain ⟨x, hx⟩ := Option.isSome_iff_exists.mp (hsome (Or.inl hn))
  have hone : s.step (.start kind) = some { s with
      calls := s.calls ++ [kind], prog := .spawning kind s.calls.length 0 } := by
    simp only [step, hp]
  have hrun := run_cons step s (.start kind) es
  rw [hone, Option.bind_some, hes] at hrun
  exact ⟨.start kind :: es, _, x, hrun, ⟨rfl, rfl, rfl, rfl⟩, rfl, hx⟩

/-- the threads of earlier calls do not answer this one -/
theorem Waiting.answered {s t : Calls n} {kind : Kind} {l : List (Sender n)}
    (h : Waiting s kind l t) (hi : Inv s) : t.answered s.calls.length =
      (l.filterMap fun q => if q.call = s.calls.length then q.phase.answer else none).toFinset := by
  have hold : (s.senders.filterMap fun q =>
      if q.call = s.calls.length then q.phase.answer else none) = [] := by
    rw [List.filterMap_eq_nil_iff]
    intro q hq
    obtain ⟨hlt, -⟩ := List.getElem?_eq_some_iff.mp (hi.own q hq)
    rw [if_neg hlt.ne]
  rw [answered_eq, answers, h.senders, List.filterMap_append, hold, List.nil_append]

theorem Waiting.step_proceed {s t : Calls n} {kind : Kind} {l : List (Sender n)}
    (h : Waiting s kind l t) (hsem : n / 2 + 1 ≤ t.sem kind) : t.step .proceed = some { t with
      prog := .idle, returned := t.answered s.calls.length :: t.returned } := by
  simp only [step, h.prog]
  rw [if_neg (not_lt.mpr hsem)]

/-- threads that all ask the same node -/
theorem Waiting.run_answers {s t : Calls n} {kind : Kind} {k : ℕ} {x : Fin n}
    {l : List (Sender n)}
    (h : Waiting s kind (List.replicate k ⟨kind, s.calls.length, .created⟩ ++ l) t)
    (hx : t.nodeId s.calls.length = some x) :
    ∃ es u, run step t es = some u ∧
      Waiting s kind (List.replicate k ⟨kind, s.calls.length, .posted x⟩ ++ l) u ∧
      u.sem = Function.update t.sem kind (t.sem kind + k) := by
  obtain ⟨es, hes⟩ := Calls.run_answers k t s.senders l h.senders hx
  exact ⟨es, _, hes, ⟨h.prog, h.calls, rfl, h.returned⟩, rfl⟩

/-- **A call in which all threads ask the same node** returns when a majority of them has posted,
and the semaphore keeps their posts. -/
theorem run_call {s : Calls n} (hi : Inv s) (hn : 1 ≤ n) (kind : Kind) (hp : s.prog = .idle) :
    ∃ es s' x, run step s es = some s' ∧ s'.prog = .idle ∧ s'.calls = s.calls ++ [kind] ∧
      s'.sem = Function.update s.sem kind (s.sem kind + (n / 2 + 1)) ∧
      s'.returned = {x} :: s.returned := by
  obtain ⟨es, t, x, hes, ht, htsem, hx⟩ := run_start s hn kind hp
  have hsplit : List.replicate n (⟨kind, s.calls.length, .created⟩ : Sender n)
      = List.replicate (n / 2 + 1) ⟨kind, s.calls.length, .created⟩
        ++ List.replicate (n - (n / 2 + 1)) ⟨kind, s.calls.length, .created⟩ := by
    rw [← List.replicate_add, Nat.add_sub_cancel' (by omega)]
  rw [hsplit] at ht
  obtain ⟨es', u, hes', huw, husem⟩ := ht.run_answers hx
  rw [htsem] at husem
  have hanswered : u.answered s.calls.length = {x} := by
    rw [huw.answered hi]
    simp [SenderPhase.answer, List.toFinset_replicate_of_ne_zero]
  have hproceed := huw.step_proceed (by rw [husem, Function.update_self]; omega)
  rw [hanswered, huw.returned] at hproceed
  have hrun : run step s (es ++ (es' ++ [.proceed])) = u.step .proceed := by
    rw [run_append, hes, Option.bind_some, run_snoc, hes', Option.bind_some]
  exact ⟨_, _, x, hrun.trans hproceed, rfl, huw.calls, husem, rfl⟩

/-- the calls, one after the other -/
theorem run_calls (hn : 1 ≤ n) (calls : List Kind) :
    ∃ es s, run step init es = some s ∧ s.prog = .idle ∧ s.calls = calls ∧
      ∀ kind ∈ calls, n / 2 + 1 ≤ (s : Calls n).sem kind := by
  induction calls using List.reverseRecOn with
  | nil => exact ⟨[], init, rfl, rfl, rfl, fun _ h => absurd h List.not_mem_nil⟩
  | append_singleton calls kind ih =>
    obtain ⟨es, s, hr, hp, hc, hsem⟩ := ih
    obtain ⟨es', s', x, hr', hp', hc', hsem', -⟩ := run_call (inv_of_run hr) hn kind hp
    refine ⟨es ++ es', s', ?_, hp', hc'.trans (by rw [hc]), fun k hk => ?_⟩
    · rw [run_append, hr, Option.bind_some, hr']
    · rw [hsem']
      by_cases h : k = kind
      · rw [h, Function.update_self]
        omega
      · rw [Function.update_of_ne h]
        apply hsem k
        simpa [h] using hk

/-- **A kind that has been called before**: the next call returns with no answer at all. -/
theorem run_again {s : Calls n} (hi : Inv s) (hn : 1 ≤ n) (kind : Kind) (hp : s.prog = .idle)
    (hsem : n / 2 + 1 ≤ s.sem kind) :
    ∃ es s', run step s es = some s' ∧ s'.calls = s.calls ++ [kind] ∧
      s'.returned = ∅ :: s.returned := by
  obtain ⟨es, t, x, hes, ht, htsem, -⟩ := run_start s hn kind hp
  have hanswered : t.answered s.calls.length = ∅ := by
    rw [ht.answered hi]
    simp [SenderPhase.answer]
  have hproceed := ht.step_proceed (by rw [htsem]; exact hsem)
  rw [hanswered, ht.returned] at hproceed
  have hrun : run step s (es ++ [.proceed]) = t.step .proceed := by
    rw [run_snoc, hes, Option.bind_some]
  exact ⟨_, _, hrun.trans hproceed, ht.calls, rfl⟩

/-- where the first kind is called again -/
theorem exists_again {calls : List Kind} (h : ¬ calls.Nodup) :
    ∃ l kind, l ++ [kind] <+: calls ∧ kind ∈ l := by
  induction calls using List.reverseRecOn with
  | nil => exact absurd List.nodup_nil h
  | append_singleton l kind ih =>
    by_cases hl : l.Nodup
    · refine ⟨l, kind, List.prefix_rfl, ?_⟩
      by_contra hk
      exact h (List.nodup_append.mpr ⟨hl, List.nodup_singleton _, fun a ha b hb => by
        rw [List.mem_singleton.mp hb]
        exact fun he => hk (he ▸ ha)⟩)
    · obtain ⟨l', k, hpre, hk⟩ := ih hl
      exact ⟨l', k, hpre.trans (List.prefix_append _ _), hk⟩

/-- **The calls for which each waits for its own majority in every order of steps**: none, or one
node and no kind called twice. -/
theorem every_order_iff (hn : 1 ≤ n) (calls : List Kind) :
    (∀ es (s : Calls n), run step init es = some s → s.calls <+: calls → Quorate s) ↔
      calls = [] ∨ n = 1 ∧ calls.Nodup := by
  constructor
  · intro h
    cases hc : calls with
    | nil => exact Or.inl rfl
    | cons kind rest =>
      rw [← hc]
      refine Or.inr ⟨?_, ?_⟩
      · obtain ⟨es, s, x, hr, -, hcalls, -, hret⟩ := run_call inv_init hn kind rfl
        have hq := h es s hr (by rw [hcalls, hc]; exact List.prefix_append [kind] rest) {x}
          (by rw [hret]; exact List.mem_cons_self)
        rw [Finset.card_singleton] at hq
        omega
      · by_contra hdup
        obtain ⟨l, k, hpre, hk⟩ := exists_again hdup
        obtain ⟨es, s, hr, hp, hcalls, hsem⟩ := run_calls hn l
        obtain ⟨es', s', hr', hcalls', hret⟩ := run_again (inv_of_run hr) hn k hp (hsem k hk)
        have hq := h (es ++ es') s' (by rw [run_append, hr, Option.bind_some, hr'])
          (by rw [hcalls', hcalls]; exact hpre) ∅ (by rw [hret]; exact List.mem_cons_self)
        rw [Finset.card_empty] at hq
        omega
  · intro h es s hr hpre
    rcases h with rfl | ⟨rfl, hnodup⟩
    · refine quorate_of_run (P := fun s => s.calls = []) ?_ ?_ hr (List.prefix_nil.mp hpre)
      · intro s s' a hstep hs'
        apply List.prefix_nil.mp
        rw [← hs']
        exact calls_prefix_of_step hstep
      · intro s kind call hi hs hp hsem
        have hcur := hi.current kind call hp
        rw [hs] at hcur
        cases hcur
    · refine quorate_of_run (P := fun s => s.calls.Nodup) ?_ ?_ hr
        (hnodup.sublist hpre.sublist)
      · intro s s' a hstep hs'
        exact hs'.sublist (calls_prefix_of_step hstep).sublist
      · intro s kind call hi hs hp hsem
        -- one answer is a majority
        have hlen := hsem.trans (sem_le_answers hi hs hp)
        rw [answered_eq, Nat.succ_le_iff, Finset.card_pos, List.toFinset_nonempty_iff]
        intro hnil
        rw [hnil] at hlen
        exact absurd hlen (by decide)

/-- **When each call waits for its own majority**: in every run whose steps meet `StepOk`.  The
calls that do so in every order are none, or those of one node with no kind twice. -/
theorem quorate_iff (n : ℕ) (hn : 1 ≤ n) :
    (∀ es (s : Calls n), Guarded step StepOk (init : Calls n) es → run step init es = some s →
      Quorate s) ∧
      ∀ calls, (∀ es (s : Calls n), run step init es = some s → s.calls <+: calls → Quorate s) ↔
        calls = [] ∨ n = 1 ∧ calls.Nodup :=
  ⟨fun _ _ hg hr => quorate_of_guarded hg hr, every_order_iff hn⟩

/-- A read query and a write query of three nodes.  Each thread reads its node before the next is
created; of the read query the connection to node 1 is closed, of the write query node 0 is slow. -/
def quorateRun : List CallAct :=
  [.start .read, .spawn, .run 0, .spawn, .run 1, .spawn, .run 2, .spawn,
    .reply 2, .close 1, .post 2, .reply 0, .post 0, .proceed,
    .start .write, .spawn, .run 3, .spawn, .run 4, .spawn, .run 5, .spawn,
    .reply 4, .reply 5, .post 5, .post 4, .proceed, .reply 3, .post 3]

/-- The run of three nodes, and one node's read query and write query in every order. -/
theorem quorate_single : 1 ≤ 3 ∧ Guarded step StepOk (init : Calls 3) quorateRun ∧
    (∃ s, run step (init : Calls 3) quorateRun = some s ∧ s.returned = [{1, 2}, {0, 2}] ∧
      Quorate s) ∧
    ∀ es (s : Calls 1), run step init es = some s → s.calls <+: [.read, .write] → Quorate s := by
  have hg : Guarded step StepOk (init : Calls 3) quorateRun := by decide +kernel
  have h : (run step (init : Calls 3) quorateRun).map (fun s =>
      decide (s.returned = [{1, 2}, {0, 2}])) = some true := by decide +kernel
  obtain ⟨s, hr, he⟩ := Option.map_eq_some_iff.mp h
  exact ⟨by decide, hg, ⟨s, hr, of_decide_eq_true he, (quorate_iff 3 (by decide)).1 _ _ hg hr⟩,
    ((quorate_iff 1 le_rfl).2 [.read, .write]).mpr (Or.inr ⟨rfl, by decide⟩)⟩

/-- one node: the second read query returns before its thread has run -/
theorem second_query_unanswered : ¬ ∀ n, 1 ≤ n → ∀ es (s : Calls n), run step init es = some s →
    Quorate s := by
  intro h
  have hq := h 1 le_rfl
    [.start .read, .spawn, .spawn, .run 0, .reply 0, .post 0, .proceed,
      .start .read, .spawn, .spawn, .proceed] _ rfl ∅ List.mem_cons_self
  exact absurd hq (by decide)

end Calls

end LsmKv
