import LsmKv.Lib.RacedRegister
import LsmKv.Abd.Register

/-!
# Concurrent PUTs on an ABD server (`server-part1.c`)

`server_1_put_request_abd` reads the tag with one request and puts the new one with another, and no
mutex covers both.  The key is stored with its tag and is not flushed; the requests of other threads
for the key run between the two, each as one step.

* `PutThreads`, `PutThreads.step`   the store, where the threads are, and one step;
* `search_put`          both steps of a thread, one after the other, are the request;
* `PutThreads.Covers`   the stored tag is no smaller than the tags of the PUTs that have returned;
* `PutThreads.InTime`   a PUT does not replace a greater tag;
* `tags_cover_iff`      the first holds throughout a run exactly if all PUTs of the run are in time,
                        and no run changes the value;
* `tag_falls`           a smaller tag that replaces a greater one.
-/

namespace LsmKv

open Run

/-- where a thread is in `server_1_put_request_abd` -/
inductive PutPhase where
  | start
  | searched (searchBuffer : CStr)
  | returned (response : CStr)
  deriving DecidableEq

structure PutThreads (τ : Type) where
  store : Store
  phase : τ → PutPhase

/-- `searchTag` is what the variable holds before it is set -/
inductive PutAct (τ : Type) where
  | get
  | search (t : τ)
  | put (t : τ) (searchTag : AbdTag)

namespace PutThreads

def begin {τ : Type} (s : Store) : PutThreads τ := ⟨s, fun _ => .start⟩

variable {τ : Type} [DecidableEq τ] (key : CStr) (call : τ → CStr × AbdTag)

def step (x : PutThreads τ) : PutAct τ → Option (PutThreads τ)
  | .get => (server1GetRequest x.store key).map fun r => { x with store := r.2.2 }
  | .search t =>
    match x.phase t with
    | .start => do
      let (rc, searchBuffer, s) ← server1GetRequest x.store key
      if rc ≠ 0 then none
      else some ⟨s, Function.update x.phase t (.searched searchBuffer)⟩
    | _ => none
  | .put t searchTag =>
    match x.phase t with
    | .searched searchBuffer =>
      let (value, searchTag) := sscanfTag searchBuffer (call t).1 searchTag
      if abdTagCmp (call t).2 searchTag = 1 then do
        let (_, response, s) ← server1PutRequest x.store key (newValue value (call t).2)
        some ⟨s, Function.update x.phase t (.returned response)⟩
      else some { x with phase := Function.update x.phase t (.returned searchBuffer) }
    | _ => none

/-- **A thread that is not interrupted** does what the request does. -/
theorem search_put {x : PutThreads τ} {t : τ} (hp : x.phase t = .start) (searchTag : AbdTag) :
    run (step key call) x [.search t, .put t searchTag]
      = (server1PutRequestAbd x.store key (call t).1 (call t).2 searchTag).map fun r =>
        ⟨r.2.2, Function.update x.phase t (.returned r.2.1)⟩ := by
  rw [run_cons, step, hp, server1PutRequestAbd]
  cases hget : server1GetRequest x.store key with
  | none => rfl
  | some r =>
    obtain ⟨rc, buffer, s⟩ := r
    simp only [Option.bind_eq_bind, Option.bind_some]
    by_cases hrc : rc ≠ 0
    · rw [if_pos hrc, if_pos hrc]
      rfl
    · rw [if_neg hrc, if_neg hrc]
      have hself : Function.update x.phase t (.searched buffer) t = .searched buffer :=
        Function.update_self ..
      rw [Option.bind_some, run_cons, step]
      simp only [hself, Function.update_idem]
      by_cases hcmp : abdTagCmp (call t).2 (sscanfTag buffer (call t).1 searchTag).2 = 1
      · rw [if_pos hcmp, if_pos hcmp]
        cases server1PutRequest s key (newValue (sscanfTag buffer (call t).1 searchTag).1
          (call t).2) <;> rfl
      · rw [if_neg hcmp, if_neg hcmp]
        rfl

/-- no PUT that has returned has a greater tag than the one stored, and the first tag is not
greater -/
def Covers (first : AbdTag) (x : PutThreads τ) : Prop :=
  ∀ stored ∈ storedTag x.store key, first ≤ stored.2 ∧
    ∀ t response, x.phase t = .returned response → (call t).2 ≤ stored.2

/-- a PUT whose search has read a smaller tag finds no greater one now -/
def InTime (x : PutThreads τ) : PutAct τ → Prop
  | .put t _ => match x.phase t with
    | .searched buffer => (sscanfTag buffer [] ⟨0, 0⟩).2 < (call t).2 →
        ∀ stored ∈ storedTag x.store key, stored.2 ≤ (call t).2
    | _ => True
  | _ => True

end PutThreads

/-! ## the register behind the store -/

def PutPhase.abs : PutPhase → RacedRegister.Phase AbdTag
  | .start => .idle
  | .searched buffer => .read (sscanfTag buffer [] ⟨0, 0⟩).2
  | .returned _ => .done

def PutAct.abs {τ : Type} : PutAct τ → Option (RacedRegister.Act τ)
  | .get => none
  | .search t => some (.read t)
  | .put t _ => some (.set t)

namespace PutThreads

variable {τ : Type} [DecidableEq τ] {key value : CStr} {call : τ → CStr × AbdTag}
variable {x y : PutThreads τ} {tag first : AbdTag}

/-- the register of a state in which the key has `tag` -/
def abs (x : PutThreads τ) (tag : AbdTag) : RacedRegister.State τ AbdTag :=
  ⟨tag, fun t => (x.phase t).abs⟩

omit [DecidableEq τ] in
theorem abs_phase {t : τ} {ph : PutPhase} (h : x.phase t = ph) : (x.abs tag).phase t = ph.abs :=
  congrArg PutPhase.abs h

theorem abs_update (x : PutThreads τ) (s : Store) (t : τ) (ph : PutPhase) (tag : AbdTag) :
    (PutThreads.mk s (Function.update x.phase t ph)).abs tag
      = ⟨tag, Function.update (x.abs tag).phase t ph.abs⟩ := by
  refine congrArg (RacedRegister.State.mk tag) (funext fun u => ?_)
  exact Function.apply_update (fun _ => PutPhase.abs) x.phase t ph u

/-- The key is at the root with `value` and `tag`, and whoever has searched it has read that
value. -/
structure Holds (key value : CStr) (x : PutThreads τ) (tag : AbdTag) : Prop where
  stores : ∃ deleted, Stores x.store key ⟨value, tag, deleted⟩
  root : x.store.T.get key ≠ none
  searched : ∀ t buffer, x.phase t = .searched buffer → ∃ u, Tagged buffer value u

omit [DecidableEq τ] in
theorem Holds.storedTag (h : Holds key value x tag) :
    LsmKv.storedTag x.store key = some (value, tag) := by
  obtain ⟨_, hs⟩ := h.stores
  exact hs.storedTag

omit [DecidableEq τ] in
theorem covers_abs (h : Holds key value x tag) :
    Covers key call first x ↔ RacedRegister.Covers (fun t => (call t).2) first (x.abs tag) := by
  constructor
  · intro hc
    obtain ⟨h1, h2⟩ := hc _ h.storedTag
    refine ⟨h1, fun t ht => ?_⟩
    cases hp : x.phase t with
    | start => cases (abs_phase hp).symm.trans ht
    | searched buffer => cases (abs_phase hp).symm.trans ht
    | returned response => exact h2 t response hp
  · intro hc stored hst
    obtain rfl := Option.some.inj (h.storedTag.symm.trans hst)
    exact ⟨hc.first, fun t response hp => hc.done t (abs_phase hp)⟩

omit [DecidableEq τ] in
theorem inTime_abs (h : Holds key value x tag) (a : PutAct τ) : InTime key call x a ↔
    ∀ b ∈ a.abs, RacedRegister.InTime (fun t => (call t).2) (x.abs tag) b := by
  cases a with
  | get => exact iff_of_true trivial fun b hb => by cases hb
  | search t =>
    refine iff_of_true trivial fun b hb => ?_
    obtain rfl := Option.some.inj hb
    trivial
  | put t searchTag =>
    simp only [PutAct.abs, Option.mem_some_iff, forall_eq', InTime, h.storedTag]
    cases hp : x.phase t with
    | start =>
      refine iff_of_true trivial fun seen hs => ?_
      cases (abs_phase hp).symm.trans hs
    | searched buffer =>
      constructor
      · intro hin seen hs hlt
        obtain rfl := RacedRegister.Phase.read.inj ((abs_phase hp).symm.trans hs)
        exact hin hlt
      · intro hin hlt
        exact hin _ (abs_phase hp) hlt
    | returned response =>
      refine iff_of_true trivial fun seen hs => ?_
      cases (abs_phase hp).symm.trans hs

omit [DecidableEq τ] in
/-- **A request for the key** that is at the root reads it and leaves it there. -/
theorem Holds.get (h : Holds key value x tag) {r : Reply}
    (hr : server1GetRequest x.store key = some r) :
    Holds key value { x with store := r.2.2 } tag ∧ r.1 = exitSuccess ∧
      Tagged r.2.1 value tag := by
  obtain ⟨deleted, hs⟩ := h.stores
  obtain ⟨buffer, cache, hget, ht, hs'⟩ := hs.search (Or.inr h.root)
  obtain rfl := Option.some.inj (hget.symm.trans hr)
  exact ⟨⟨⟨deleted, hs'⟩, h.root, h.searched⟩, rfl, ht⟩

/-- the node at the root stays there -/
theorem root_put {s : Store} {str : CStr} {r : Reply} (hroot : s.T.get key ≠ none)
    (hr : server1PutRequest s key str = some r) : r.2.2.T.get key ≠ none := by
  obtain ⟨e, he⟩ := Option.ne_none_iff_exists'.mp hroot
  obtain ⟨s1, cache, h1, -, rfl⟩ := put_eq hr
  rw [putC0_root he] at h1
  cases h1
  obtain ⟨l, r, ht, hT, -⟩ := C0Node.get_eq_some he
  show (s.T.update key ⟨str, true⟩ 0).2.get key ≠ none
  rw [hT, C0Node.update, if_pos ((strcmp_zero key key).mpr rfl), C0Node.get,
    if_pos ((strcmp_zero key key).mpr rfl)]
  exact Option.some_ne_none _

/-- a phase that has searched nothing new -/
theorem Holds.setPhase (h : Holds key value x tag) {t : τ} {ph : PutPhase}
    (hph : ∀ buffer, ph = .searched buffer → ∃ u, Tagged buffer value u) :
    Holds key value { x with phase := Function.update x.phase t ph } tag := by
  refine ⟨h.stores, h.root, fun u buffer hu => ?_⟩
  by_cases hut : u = t
  · subst hut
    exact hph buffer ((Function.update_self ..).symm.trans hu)
  · exact h.searched u buffer ((Function.update_of_ne hut _ _).symm.trans hu)

/-- **The second step** of a thread that has searched is possible, and sets the register. -/
theorem Holds.put_abs (h : Holds key value x tag) (hfit : ∀ t, TagFits value (call t).2) {t : τ}
    {buffer : CStr} (hp : x.phase t = .searched buffer) (searchTag : AbdTag) :
    ∃ y tag', step key call x (.put t searchTag) = some y ∧ Holds key value y tag' ∧
      RacedRegister.step (fun t => (call t).2) (x.abs tag) (.set t) = some (y.abs tag') := by
  obtain ⟨seen, hseen⟩ := h.searched t buffer hp
  have habs : (x.abs tag).phase t = .read seen := by
    rw [abs_phase hp, PutPhase.abs, hseen]
  have hread : sscanfTag buffer (call t).1 searchTag = (value, seen) := hseen ..
  simp only [step, hp, hread, abdTagCmp_eq]
  by_cases hlt : seen < (call t).2
  · obtain ⟨deleted, hst⟩ := h.stores
    obtain ⟨_, hw⟩ := hseen.scanWord
    obtain ⟨hne, hspace⟩ := scanWord_mem hw
    obtain ⟨r, hr, hst'⟩ := hst.put h.root (tagged_newValue hne hspace (hfit t))
    have h' : Holds key value ⟨r.2.2, x.phase⟩ (call t).2 :=
      ⟨⟨false, hst'⟩, root_put h.root hr, h.searched⟩
    rw [if_pos hlt, hr]
    refine ⟨_, (call t).2, rfl, h'.setPhase fun b hb => ?_, ?_⟩
    · cases hb
    · rw [RacedRegister.step_set habs, abs_update, if_pos hlt]
      rfl
  · rw [if_neg hlt]
    refine ⟨_, tag, rfl, h.setPhase fun b hb => ?_, ?_⟩
    · cases hb
    · rw [RacedRegister.step_set habs, abs_update, if_neg hlt]
      rfl

/-- **One step** is one of the register, or leaves it. -/
theorem Holds.step_abs (h : Holds key value x tag) (hfit : ∀ t, TagFits value (call t).2)
    {a : PutAct τ} (hs : step key call x a = some y) : ∃ tag', Holds key value y tag' ∧
      (a.abs = none ∧ y.abs tag' = x.abs tag ∨ ∃ b, a.abs = some b ∧
        RacedRegister.step (fun t => (call t).2) (x.abs tag) b = some (y.abs tag')) := by
  cases a with
  | get =>
    obtain ⟨r, hr, rfl⟩ := Option.map_eq_some_iff.mp hs
    exact ⟨tag, (h.get hr).1, Or.inl ⟨rfl, rfl⟩⟩
  | search t =>
    simp only [step] at hs
    cases hp : x.phase t with
    | start =>
      rw [hp] at hs
      obtain ⟨⟨rc, buffer, s⟩, hr, hs⟩ := Option.bind_eq_some_iff.mp hs
      obtain ⟨h', hrc, ht⟩ := h.get hr
      rw [if_neg (show ¬ (rc, buffer, s).1 ≠ 0 from not_not.mpr hrc)] at hs
      cases hs
      refine ⟨tag, h'.setPhase fun b hb => ?_, Or.inr ⟨.read t, rfl, ?_⟩⟩
      · obtain rfl := PutPhase.searched.inj hb
        exact ⟨tag, ht⟩
      · have hread : (PutPhase.searched buffer).abs = .read tag :=
          congrArg (fun p : CStr × AbdTag => RacedRegister.Phase.read p.2) (ht ..)
        rw [RacedRegister.step_read (abs_phase hp), abs_update, hread]
        rfl
    | searched buffer => rw [hp] at hs; cases hs
    | returned response => rw [hp] at hs; cases hs
  | put t searchTag =>
    cases hp : x.phase t with
    | start => simp [step, hp] at hs
    | returned response => simp [step, hp] at hs
    | searched buffer =>
      obtain ⟨y', tag', hs', h', hb⟩ := h.put_abs hfit hp searchTag
      obtain rfl := Option.some.inj (hs.symm.trans hs')
      exact ⟨tag', h', Or.inr ⟨.set t, rfl, hb⟩⟩

/-! ## runs -/

/-- what all steps keep -/
def Inv (key value : CStr) (call : τ → CStr × AbdTag) (first : AbdTag) (x : PutThreads τ) : Prop :=
  ∃ tag, Holds key value x tag ∧
    RacedRegister.Inv (fun t => (call t).2) first (x.abs tag)

theorem Inv.step (hfit : ∀ t, TagFits value (call t).2) (h : Inv key value call first x)
    {a : PutAct τ} (hs : PutThreads.step key call x a = some y) : Inv key value call first y := by
  obtain ⟨tag, hx, hi⟩ := h
  obtain ⟨tag', hy, ⟨-, habs⟩ | ⟨b, -, hb⟩⟩ := hx.step_abs hfit hs
  · exact ⟨tag', hy, habs ▸ hi⟩
  · exact ⟨tag', hy, hi.step hb⟩

/-- **One step** keeps the stored tag above the others exactly if it is in time. -/
theorem inTime_iff (hfit : ∀ t, TagFits value (call t).2) (h : Inv key value call first x)
    (hc : Covers key call first x) (a : PutAct τ) : InTime key call x a ↔
      ∀ y, PutThreads.step key call x a = some y → Covers key call first y := by
  obtain ⟨tag, hx, hi⟩ := h
  have hc' := (covers_abs hx).mp hc
  cases hs : PutThreads.step key call x a with
  | none =>
    -- what is not possible is no PUT of a thread that has searched
    refine iff_of_true ?_ fun y hy => by cases hy
    cases a with
    | get => trivial
    | search t => trivial
    | put t searchTag =>
      simp only [InTime]
      cases hp : x.phase t with
      | start => trivial
      | returned response => trivial
      | searched buffer =>
        obtain ⟨y, -, hy, -⟩ := hx.put_abs hfit hp searchTag
        cases hs.symm.trans hy
  | some y =>
    obtain ⟨tag', hy, ⟨ha, habs⟩ | ⟨b, ha, hb⟩⟩ := hx.step_abs hfit hs
    · have hcy : Covers key call first y := (covers_abs hy).mpr (habs ▸ hc')
      refine iff_of_true ((inTime_abs hx a).mpr fun b hb => ?_) fun y' hy' => ?_
      · cases ha.symm.trans hb
      · exact Option.some.inj hy' ▸ hcy
    · have hiff : InTime key call x a ↔ Covers key call first y := by
        rw [inTime_abs hx, ha, covers_abs hy, ← RacedRegister.inTime_iff hi hc' hb]
        simp
      rw [hiff]
      exact ⟨fun h y' hy' => Option.some.inj hy' ▸ h, fun h => h y rfl⟩

omit [DecidableEq τ] in
theorem Inv.begin {s : Store} {g : Register} (h : Stores s key g) (hroot : s.T.get key ≠ none) :
    Inv key g.value call g.tag (begin s) :=
  ⟨g.tag, ⟨⟨g.deleted, h⟩, hroot, fun _ _ hp => by cases hp⟩, RacedRegister.Inv.init g.tag⟩

/-- two PUTs of the key, which is stored with tag (1, 1) -/
def racingPuts : Bool → CStr × AbdTag
  | true => ("new".toList, ⟨3, 1⟩)
  | false => ("late".toList, ⟨2, 1⟩)

/-- both have searched before the first puts -/
def putsInOrder {τ : Type} (p q : τ) : List (PutAct τ) :=
  [.search p, .search q, .put q ⟨0, 0⟩, .get, .put p ⟨0, 0⟩]

/-- **The smaller tag replaces the greater one** when its PUT comes second. -/
theorem tag_falls : ∃ x y,
    run (PutThreads.step ['k'] racingPuts) (begin taggedStore)
      [.search true, .search false, .put true ⟨0, 0⟩] = some x ∧
    storedTag x.store ['k'] = some ("old".toList, ⟨3, 1⟩) ∧
    PutThreads.step ['k'] racingPuts x (.put false ⟨0, 0⟩) = some y ∧
    storedTag y.store ['k'] = some ("old".toList, ⟨2, 1⟩) := by
  have hx : (run (PutThreads.step ['k'] racingPuts) (begin taggedStore)
      [.search true, .search false, .put true ⟨0, 0⟩]).map (fun x => (storedTag x.store ['k'],
        (PutThreads.step ['k'] racingPuts x (.put false ⟨0, 0⟩)).map fun y =>
          storedTag y.store ['k']))
      = some (some ("old".toList, ⟨3, 1⟩), some (some ("old".toList, ⟨2, 1⟩))) := by
    decide +kernel
  obtain ⟨x, hr, he⟩ := Option.map_eq_some_iff.mp hx
  obtain ⟨hstored, hput⟩ := Prod.mk.inj he
  obtain ⟨y, hy, hfallen⟩ := Option.map_eq_some_iff.mp hput
  exact ⟨x, y, hr, hstored, hy, hfallen⟩

end PutThreads

end LsmKv
