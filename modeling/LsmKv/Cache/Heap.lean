import LsmKv.Cache
import LsmKv.Lib.Dll

/-!
# The cache in memory (`cache.c`)

The nodes of the cache as cells of a heap, with the pointers the source keeps.

* `CacheHeap`                  `head`, `tail`, the nodes and `global_cache_count`;
* `Malloc`                     an allocator: any address that is free;
* `get`, `put`, `invalidate`   as the source computes them, undefined where a pointer is NULL or
                               dangles; the lookup loop has fuel;
* `Rep c l`                    the nodes are those of `l`, linked from `head` to `tail`;
* `get_rep`, `put_rep`, `invalidate_rep`   each operation does to `l` what the list's does;
* `cache_run`                  any sequence of operations from the empty cache.
-/

namespace LsmKv

open Dll

/-- a node's address -/
abbrev Addr := ℕ

/-- `name` and `defn` of a node -/
abbrev NodeData := CStr × CStr

/-- the globals of `cache.c`, and the allocated nodes -/
structure CacheHeap where
  heap : Heap Addr NodeData
  head : Option Addr
  tail : Option Addr
  globalCacheCount : Int

/-- `malloc(sizeof(struct node))` in the `n`-th operation: an address that is free -/
structure Malloc where
  addr : ℕ → Heap Addr NodeData → Addr
  fresh : ∀ n (h : Heap Addr NodeData), (∃ a, h a = none) → h (addr n h) = none

/-- the allocator that takes any free address -/
noncomputable instance inhabitedMalloc : Inhabited Malloc where
  default := by
    classical
    exact ⟨fun _ h => if hex : ∃ a, h a = none then hex.choose else 0,
      fun _ h hex => by rw [dif_pos hex]; exact hex.choose_spec⟩

namespace CacheHeap

def empty : CacheHeap := ⟨fun _ => none, none, none, 0⟩

/-- the `while` loop of `cache_get`: the iterator where it stops, `none` inside for NULL -/
def search (h : Heap Addr NodeData) (s : CStr) : ℕ → Option Addr → Option (Option Addr)
  | 0, _ => none
  | _ + 1, none => some none
  | fuel + 1, some a => do
    let n ← h a
    if n.val.1.length = s.length ∧ strcmp n.val.1 s = 0 then some (some a)
    else search h s fuel n.next

/-- the node `it` taken out from behind `temporary`: the nodes and `tail` -/
def unlink (c : CacheHeap) (it temporary : Addr) : Option (Heap Addr NodeData × Option Addr) :=
  if some it = c.tail then do
    let heap ← setNext c.heap temporary none
    some (heap, some temporary)
  else do
    let heap ← setNext c.heap temporary (← c.heap it).next
    let next ← (← heap it).next
    let heap ← setPrev heap next (some temporary)
    some (heap, c.tail)

/-- `if (iterator != head) { ... }` -/
def moveToHead (c : CacheHeap) (it : Addr) : Option CacheHeap :=
  if some it = c.head then some c
  else do
    let temporary ← (← c.heap it).prev
    let (heap, tail) ← unlink c it temporary
    let head ← c.head
    let heap ← setPrev heap head (some it)
    let heap ← setNext heap it (some head)
    let heap ← setPrev heap it none
    some { c with heap := heap, head := some it, tail := tail }

/-- `cache_get`: the pointer returned, and the cache after the call -/
def get (fuel : ℕ) (c : CacheHeap) (s : CStr) : Option (Option Addr × CacheHeap) := do
  match ← search c.heap s fuel c.head with
  | none => some (none, c)
  | some it =>
    let c ← moveToHead c it
    some (c.head, c)

/-- the new node of `cache_put`, put before `head` -/
def pushHead (c : CacheHeap) (a : Addr) (name defn : CStr) : Option CacheHeap :=
  let heap := Function.update c.heap a (some ⟨(name, defn), none, none⟩)
  match c.head with
  | none => some { c with heap := heap, head := some a, tail := some a }
  | some head => do
    let heap ← setPrev heap head (some a)
    let heap ← setNext heap a (some head)
    let heap ← setPrev heap a none
    some { c with heap := heap, head := some a }

/-- the eviction of `cache_put` -/
def evict (c : CacheHeap) : Option CacheHeap := do
  let tail ← (← c.heap (← c.tail)).prev
  let next ← (← c.heap tail).next
  let _ ← c.heap next
  let heap ← setNext (Function.update c.heap next none) tail none
  some { c with heap := heap, tail := some tail }

/-- `cache_put`; `a` is what `malloc` returns, if it is called -/
def put (fuel : ℕ) (c : CacheHeap) (a : Addr) (name defn : CStr) : Option CacheHeap := do
  match ← get fuel c name with
  | (none, c) =>
    let c ← pushHead c a name defn
    if c.globalCacheCount ≥ cacheSize then evict c
    else some { c with globalCacheCount := c.globalCacheCount + 1 }
  | (some cacheEntry, c) =>
    let n ← c.heap cacheEntry
    some { c with
      heap := Function.update c.heap cacheEntry (some { n with val := (n.val.1, defn) }) }

def invalidate (fuel : ℕ) (c : CacheHeap) (key : CStr) : Option CacheHeap := do
  match ← get fuel c key with
  | (none, c) => some c
  | (some _, c) =>
    let iter ← c.head
    let n ← c.heap iter
    match n.next with
    | some next =>
      let heap ← setPrev c.heap next none
      some { c with
        heap := Function.update heap iter none, head := some next,
        globalCacheCount := c.globalCacheCount - 1 }
    | none =>
      some { c with
        heap := Function.update c.heap iter none, head := none,
        globalCacheCount := c.globalCacheCount - 1 }

/-- The nodes are those of `l`, linked from `head` to `tail`; in an empty cache `tail` may
point anywhere. -/
structure Rep (c : CacheHeap) (l : List (Addr × NodeData)) : Prop where
  nodup : (addrs l).Nodup
  linked : Seg c.heap none l none
  only : ∀ a, a ∉ addrs l → c.heap a = none
  head : c.head = firstAddr l none
  tail : l ≠ [] → c.tail = lastAddr none l

theorem rep_empty : Rep empty [] :=
  ⟨List.nodup_nil, trivial, fun _ _ => rfl, rfl, fun h => absurd rfl h⟩

/-! ## the lookup -/

theorem search_spec {h : Heap Addr NodeData} (s : CStr) (l : List (Addr × NodeData)) :
    ∀ (p : Option Addr) (fuel : ℕ), Seg h p l none → l.length < fuel →
      search h s fuel (firstAddr l none)
        = some ((l.find? fun x => x.2.1 = s).map Prod.fst) := by
  induction l with
  | nil =>
    intro p fuel _ hf
    obtain ⟨fuel, rfl⟩ : ∃ n, fuel = n + 1 := ⟨fuel - 1, by simp at hf; omega⟩
    rfl
  | cons x l ih =>
    intro p fuel hs hf
    obtain ⟨fuel, rfl⟩ : ∃ n, fuel = n + 1 := ⟨fuel - 1, by simp at hf; omega⟩
    obtain ⟨hx, hl⟩ := hs
    have htest : (x.2.1.length = s.length ∧ strcmp x.2.1 s = 0) ↔ x.2.1 = s := by
      rw [strcmp_zero]
      exact ⟨fun h => h.2, fun h => ⟨congrArg _ h, h⟩⟩
    show (do
      let n ← h x.1
      if n.val.1.length = s.length ∧ strcmp n.val.1 s = 0 then some (some x.1)
      else search h s fuel n.next) = _
    rw [hx]
    simp only [Option.bind_eq_bind, Option.bind_some, htest]
    by_cases he : x.2.1 = s
    · rw [if_pos he, List.find?_cons_of_pos (by simpa using he)]
      rfl
    · rw [if_neg he, List.find?_cons_of_neg (by simpa using he)]
      exact ih _ fuel hl (by simp at hf; omega)

/-! ## moving a node to the front -/

theorem unlink_spec {c : CacheHeap} {l m : List (Addr × NodeData)} {a t : Addr} {v w : NodeData}
    (h : Rep c ((l ++ [(t, w)]) ++ (a, v) :: m)) : ∃ h2 tail, unlink c a t = some (h2, tail) ∧
      Seg h2 none ((l ++ [(t, w)]) ++ m) none ∧ h2 a = c.heap a ∧
      (∀ x, x ∉ addrs ((l ++ [(t, w)]) ++ m) → h2 x = c.heap x) ∧
      tail = lastAddr none ((l ++ [(t, w)]) ++ m) := by
  obtain ⟨hnd, hlinked, -, -, htail⟩ := h
  have hcell : c.heap a = some ⟨v, firstAddr m none, lastAddr none (l ++ [(t, w)])⟩ :=
    (seg_append.mp hlinked).2.1
  have hlast : c.tail = lastAddr (some a) m := by
    rw [htail (by simp), lastAddr_append]
    rfl
  obtain ⟨h1, e1, ha1, hnil, hcons⟩ := hlinked.unlink hnd
  cases m with
  | nil =>
    obtain ⟨hs1, hf1⟩ := hnil rfl
    refine ⟨h1, some t, ?_, by rwa [List.append_nil], ha1, fun x hx => hf1 x ?_, ?_⟩
    · rw [unlink, if_pos (show some a = c.tail from hlast.symm),
        show setNext c.heap t none = some h1 from e1]
      rfl
    · rintro rfl
      simp at hx
    · rw [List.append_nil, lastAddr_snoc]
  | cons b m =>
    obtain ⟨b, u⟩ := b
    obtain ⟨h2, e2, hs2, hf2⟩ := hcons b u m rfl
    rw [addrs, List.map_append, List.nodup_append] at hnd
    obtain ⟨-, hnd2, hdis⟩ := hnd
    have ha : a ∉ addrs ((b, u) :: m) := (List.nodup_cons.mp hnd2).1
    have hne : ¬ some a = c.tail := fun e =>
      ha ((lastAddr_mem (p := none) (l := (b, u) :: m) (hlast.symm.trans e.symm)).resolve_left
        (by simp))
    refine ⟨h2, c.tail, ?_, hs2, hf2 a ?_ ?_, fun x hx => hf2 x ?_ ?_, ?_⟩
    · rw [unlink, if_neg hne, hcell]
      simp only [Option.bind_eq_bind, Option.bind_some]
      rw [show setNext c.heap t (firstAddr ((b, u) :: m) none) = some h1 from e1,
        Option.bind_some, ha1, hcell, Option.bind_some]
      show (setPrev h1 b (some t)).bind _ = _
      rw [e2]
      rfl
    · rintro rfl
      exact hdis a (by simp) a (by simp) rfl
    · rintro rfl
      exact ha (by simp)
    · rintro rfl
      simp at hx
    · rintro rfl
      simp at hx
    · rw [hlast, lastAddr_append]
      rfl

theorem moveToHead_rep {c : CacheHeap} {l m : List (Addr × NodeData)} {a : Addr} {v : NodeData}
    (h : Rep c (l ++ (a, v) :: m)) : ∃ c', moveToHead c a = some c' ∧
      Rep c' ((a, v) :: (l ++ m)) ∧ c'.globalCacheCount = c.globalCacheCount := by
  cases l using List.reverseRecOn with
  | nil =>
    refine ⟨c, ?_, h, rfl⟩
    rw [moveToHead, if_pos]
    exact h.head.symm
  | append_singleton l x =>
    obtain ⟨t, w⟩ := x
    obtain ⟨h2, tail, hunlink, hs2, ha2, hf2, htail2⟩ := unlink_spec h
    obtain ⟨hnd, hlinked, honly, hhead, -⟩ := h
    have hperm : (addrs ((a, v) :: ((l ++ [(t, w)]) ++ m))).Perm
        (addrs ((l ++ [(t, w)]) ++ (a, v) :: m)) := (List.perm_middle.symm).map _
    have hnd' := (hperm.nodup_iff).mpr hnd
    have hcell : c.heap a = some ⟨v, firstAddr m none, some t⟩ := by
      have := (seg_append.mp hlinked).2.1
      rwa [lastAddr_snoc] at this
    -- the first node of the rest
    obtain ⟨b, u, l', hl'⟩ : ∃ b u l', (l ++ [(t, w)]) ++ m = (b, u) :: l' := by
      cases l with
      | nil => exact ⟨t, w, m, rfl⟩
      | cons y l => exact ⟨y.1, y.2, (l ++ [(t, w)]) ++ m, rfl⟩
    have hb : c.head = some b := by
      rw [hhead, firstAddr_append]
      have := congrArg (fun l => firstAddr l none) hl'
      cases l <;> exact this
    rw [hl'] at hs2 hnd' hf2 htail2 hperm ⊢
    have hab : a ≠ b := by
      rintro rfl
      exact (List.nodup_cons.mp hnd').1 (by simp)
    obtain ⟨g1, g2, g3, e1, e2, e3, hg, hframe⟩ := hs2.link_first hnd' (ha2.trans hcell)
    refine ⟨{ c with heap := g3, head := some a, tail := tail }, ?_, ⟨hnd', hg, ?_, rfl, ?_⟩, rfl⟩
    · rw [moveToHead, if_neg (by rw [hb]; simpa using hab), hcell]
      simp only [Option.bind_eq_bind, Option.bind_some, hunlink, hb, e1, e2, e3]
    · intro x hx
      have hxa : x ≠ a := by rintro rfl; simp at hx
      have hxb : x ≠ b := by rintro rfl; simp at hx
      show g3 x = none
      rw [hframe x hxa hxb, hf2 x fun hm => hx (List.mem_cons_of_mem _ hm)]
      exact honly x fun hm => hx (hperm.mem_iff.mpr hm)
    · intro _
      exact htail2

/-- **`cache_get`**: NULL and no change on a miss; on a hit the node goes to the front. -/
theorem get_miss {c : CacheHeap} {l : List (Addr × NodeData)} (h : Rep c l) {fuel : ℕ}
    (hf : l.length < fuel) {s : CStr} (hs : ∀ x ∈ l, x.2.1 ≠ s) :
    get fuel c s = some (none, c) := by
  rw [get, h.head, search_spec s l none fuel h.linked hf,
    List.find?_eq_none.mpr fun x hx => by simpa using hs x hx]
  rfl

theorem get_hit {c : CacheHeap} {l m : List (Addr × NodeData)} {a : Addr} {s v : CStr}
    (h : Rep c (l ++ (a, s, v) :: m)) {fuel : ℕ} (hf : (l ++ (a, s, v) :: m).length < fuel)
    (hs : ∀ x ∈ l, x.2.1 ≠ s) : ∃ c', get fuel c s = some (some a, c') ∧
      Rep c' ((a, s, v) :: (l ++ m)) ∧ c'.globalCacheCount = c.globalCacheCount := by
  obtain ⟨c', e, hr, hc⟩ := moveToHead_rep h
  have hfind : (l ++ (a, s, v) :: m).find? (fun x => x.2.1 = s) = some (a, s, v) := by
    rw [List.find?_append, List.find?_eq_none.mpr fun x hx => by simpa using hs x hx]
    simp
  refine ⟨c', ?_, hr, hc⟩
  rw [get, h.head, search_spec s _ none fuel h.linked hf, hfind]
  simp only [Option.bind_eq_bind, Option.bind_some, Option.map_some, e, hr.head]
  rfl

/-! ## new nodes, eviction, removal -/

theorem pushHead_rep {c : CacheHeap} {l : List (Addr × NodeData)} (h : Rep c l) {a : Addr}
    (ha : c.heap a = none) (name defn : CStr) : ∃ c', pushHead c a name defn = some c' ∧
      Rep c' ((a, name, defn) :: l) ∧ c'.globalCacheCount = c.globalCacheCount := by
  obtain ⟨hnd, hlinked, honly, hhead, htail⟩ := h
  let heap := Function.update c.heap a (some (⟨(name, defn), none, none⟩ : Cell Addr NodeData))
  have hother : ∀ x, x ≠ a → heap x = c.heap x := fun x hx => Function.update_of_ne hx _ _
  have hself : heap a = some ⟨(name, defn), none, none⟩ := Function.update_self _ _ _
  -- an allocated address is not the new one
  have hna : a ∉ addrs l := by
    intro hm
    obtain ⟨⟨b, w⟩, hx, rfl⟩ := List.mem_map.mp hm
    obtain ⟨cell, hc, -⟩ := hlinked.cell_of_mem hx
    rw [ha] at hc
    cases hc
  cases l with
  | nil =>
    refine ⟨{ c with heap := heap, head := some a, tail := some a }, ?_, ?_, rfl⟩
    · rw [pushHead, hhead]
      rfl
    · refine ⟨List.nodup_singleton _, ⟨hself, trivial⟩, fun x hx => ?_, rfl, fun _ => rfl⟩
      exact (hother x (by simpa using hx)).trans (honly x (by simp))
  | cons b l =>
    obtain ⟨b, u⟩ := b
    have hs : Seg heap none ((b, u) :: l) none :=
      hlinked.frame fun x hx => hother x fun e => hna (e ▸ hx)
    have hnd' : (addrs ((a, name, defn) :: (b, u) :: l)).Nodup := List.nodup_cons.mpr ⟨hna, hnd⟩
    obtain ⟨g1, g2, g3, e1, e2, e3, hg, hframe⟩ := hs.link_first hnd' hself
    refine ⟨{ c with heap := g3, head := some a }, ?_, ⟨hnd', hg, ?_, rfl, ?_⟩, rfl⟩
    · rw [pushHead, hhead]
      simp only [firstAddr, Option.bind_eq_bind]
      rw [show setPrev _ b (some a) = some g1 from e1, Option.bind_some, e2, Option.bind_some, e3,
        Option.bind_some]
    · intro x hx
      have hxa : x ≠ a := by rintro rfl; simp at hx
      have hxb : x ≠ b := by rintro rfl; simp at hx
      show g3 x = none
      rw [hframe x hxa hxb, hother x hxa]
      exact honly x fun hm => hx (List.mem_cons_of_mem _ hm)
    · intro _
      exact htail (by simp)

theorem evict_rep {c : CacheHeap} {l : List (Addr × NodeData)} {a : Addr} {v : NodeData}
    (h : Rep c (l ++ [(a, v)])) (hne : l ≠ []) : ∃ c', evict c = some c' ∧ Rep c' l ∧
      c'.globalCacheCount = c.globalCacheCount := by
  obtain ⟨hnd, hlinked, honly, hhead, htail⟩ := h
  cases l using List.reverseRecOn with
  | nil => exact absurd rfl hne
  | append_singleton l x =>
    obtain ⟨t, w⟩ := x
    obtain ⟨hs, hcell, -⟩ := seg_append.mp hlinked
    rw [lastAddr_snoc] at hcell
    have hnd' := hnd
    rw [addrs, List.map_append, List.nodup_append] at hnd'
    obtain ⟨hnd1, -, hdis⟩ := hnd'
    have ht : c.heap t = some ⟨w, some a, lastAddr none l⟩ := (seg_append.mp hs).2.1
    have htl : c.tail = some a := by rw [htail (by simp), lastAddr_snoc]
    let freed := Function.update c.heap a none
    have hother : ∀ x, x ≠ a → freed x = c.heap x := fun x hx => Function.update_of_ne hx _ _
    have hs' : Seg freed none (l ++ [(t, w)]) (some a) :=
      hs.frame fun x hx => hother x (hdis x hx a (by simp))
    obtain ⟨h2, e2, hs2, hf2⟩ := hs'.setNext_last hnd1 none
    have hta : t ≠ a := hdis t (by simp) a (by simp)
    refine ⟨{ c with heap := h2, tail := some t }, ?_, ⟨hnd1, hs2, ?_, ?_, ?_⟩, rfl⟩
    · rw [evict, htl]
      simp only [Option.bind_eq_bind, Option.bind_some, hcell, ht]
      rw [show setNext (Function.update c.heap a none) t none = some h2 from e2]
      rfl
    · intro x hx
      have hxt : x ≠ t := by rintro rfl; simp at hx
      show h2 x = none
      rw [hf2 x hxt]
      by_cases hxa : x = a
      · rw [hxa]
        exact Function.update_self _ _ _
      · rw [hother x hxa]
        apply honly x
        rw [addrs, List.map_append, List.mem_append]
        rintro (hm | hm)
        · exact hx hm
        · exact hxa (by simpa using hm)
    · rw [hhead, firstAddr_append]
      cases l <;> rfl
    · intro _
      exact lastAddr_snoc.symm

theorem setDefn_rep {c : CacheHeap} {l : List (Addr × NodeData)} {a : Addr} {s v : CStr}
    (h : Rep c ((a, s, v) :: l)) (defn : CStr) : ∃ n, c.heap a = some n ∧
      Rep { c with heap := Function.update c.heap a (some { n with val := (n.val.1, defn) }) }
        ((a, s, defn) :: l) := by
  obtain ⟨hnd, ⟨hcell, hs⟩, honly, hhead, htail⟩ := h
  have ha : a ∉ addrs l := (List.nodup_cons.mp hnd).1
  refine ⟨_, hcell, hnd, ⟨Function.update_self _ _ _, ?_⟩, fun x hx => ?_, hhead, fun _ => ?_⟩
  · exact hs.frame fun x hx => Function.update_of_ne (by rintro rfl; exact ha hx) _ _
  · have hxa : x ≠ a := by rintro rfl; simp at hx
    exact (Function.update_of_ne hxa _ _).trans (honly x hx)
  · exact htail (by simp)

/-! ## the operations, against those on the list -/

/-- the list of the nodes, and the counter -/
def toCache (c : CacheHeap) (l : List (Addr × NodeData)) : Cache :=
  ⟨l.map Prod.snd, c.globalCacheCount⟩

/-- either no node has the name, or there is a first one -/
theorem split_name (l : List (Addr × NodeData)) (s : CStr) : (∀ x ∈ l, x.2.1 ≠ s) ∨
    ∃ l1 a v l2, l = l1 ++ (a, s, v) :: l2 ∧ ∀ x ∈ l1, x.2.1 ≠ s := by
  cases hf : l.find? fun x => x.2.1 = s with
  | none => exact Or.inl fun x hx => by simpa using List.find?_eq_none.mp hf x hx
  | some x =>
    obtain ⟨hx, l1, l2, rfl, h1⟩ := List.find?_eq_some_iff_append.mp hf
    obtain ⟨a, k, v⟩ := x
    have hk : k = s := by simpa using hx
    subst hk
    exact Or.inr ⟨l1, a, v, l2, rfl, fun y hy => by simpa using h1 y hy⟩

theorem cacheGet_toCache_miss {c : CacheHeap} {l : List (Addr × NodeData)} {s : CStr}
    (hs : ∀ x ∈ l, x.2.1 ≠ s) : cacheGet (toCache c l) s = (none, toCache c l) := by
  have hf : (l.map Prod.snd).find? (fun n => n.1 = s) = none := by
    rw [List.find?_eq_none]
    intro n hn
    obtain ⟨x, hx, rfl⟩ := List.mem_map.mp hn
    simpa using hs x hx
  rw [cacheGet, show (toCache c l).nodes = l.map Prod.snd from rfl, hf]

theorem cacheGet_toCache_hit {c : CacheHeap} {l m : List (Addr × NodeData)} {a : Addr}
    {s v : CStr} (hs : ∀ x ∈ l, x.2.1 ≠ s) : cacheGet (toCache c (l ++ (a, s, v) :: m)) s
      = (some v, toCache c ((a, s, v) :: (l ++ m))) := by
  have hs' : ∀ n ∈ l.map Prod.snd, ¬ (decide (n.1 = s)) = true := by
    intro n hn
    obtain ⟨x, hx, rfl⟩ := List.mem_map.mp hn
    simpa using hs x hx
  have hnodes : (toCache c (l ++ (a, s, v) :: m)).nodes
      = l.map Prod.snd ++ (s, v) :: m.map Prod.snd := by simp [toCache]
  rw [cacheGet, hnodes, List.find?_append, List.find?_eq_none.mpr hs',
    List.eraseP_append_right _ hs']
  simp [toCache]

/-- **`cache_get` on the nodes is `cacheGet` on the list.** -/
theorem get_rep {c : CacheHeap} {l : List (Addr × NodeData)} (h : Rep c l) {fuel : ℕ}
    (hf : l.length < fuel) (s : CStr) : ∃ p c' l', get fuel c s = some (p, c') ∧ Rep c' l' ∧
      (p.bind c'.heap).map (·.val.2) = (cacheGet (toCache c l) s).1 ∧
      toCache c' l' = (cacheGet (toCache c l) s).2 := by
  rcases split_name l s with hs | ⟨l1, a, v, l2, rfl, hs⟩
  · refine ⟨none, c, l, get_miss h hf hs, h, ?_, ?_⟩ <;> rw [cacheGet_toCache_miss hs]
    rfl
  · obtain ⟨c', e, hr, hc⟩ := get_hit h hf hs
    refine ⟨some a, c', _, e, hr, ?_, ?_⟩ <;> rw [cacheGet_toCache_hit hs]
    · rw [Option.bind_some, hr.linked.1]
      rfl
    · simp [toCache, hc]

/-- **`cache_put` on the nodes is `cachePut` on the list.** -/
theorem put_rep {c : CacheHeap} {l : List (Addr × NodeData)} (h : Rep c l)
    (hne : c.globalCacheCount ≥ cacheSize → l ≠ []) {fuel : ℕ} (hf : l.length < fuel) {a : Addr}
    (ha : c.heap a = none) (name defn : CStr) : ∃ c' l', put fuel c a name defn = some c' ∧
      Rep c' l' ∧ cachePut (toCache c l) name defn = some (toCache c' l') := by
  rcases split_name l name with hs | ⟨l1, b, v, l2, rfl, hs⟩
  · obtain ⟨c1, e1, hr1, hc1⟩ := pushHead_rep h ha name defn
    rw [put, get_miss h hf hs, cachePut, cacheGet_toCache_miss hs]
    simp only [Option.bind_eq_bind, Option.bind_some, e1, hc1]
    show ∃ c' l', (if c.globalCacheCount ≥ cacheSize then _ else _) = _ ∧ _ ∧
      (if c.globalCacheCount ≥ cacheSize then _ else _) = _
    by_cases hfull : c.globalCacheCount ≥ cacheSize
    · -- the last node goes
      obtain ⟨l0, ⟨b, v⟩, rfl⟩ : ∃ l0 x, l = l0 ++ [x] :=
        ⟨_, _, (List.dropLast_append_getLast (hne hfull)).symm⟩
      obtain ⟨c2, e2, hr2, hc2⟩ := evict_rep (l := (a, name, defn) :: l0) hr1 (by simp)
      have hnodes : (toCache c (l0 ++ [(b, v)])).nodes = l0.map Prod.snd ++ [v] := by
        simp [toCache]
      rw [if_pos hfull, if_pos hfull, if_neg (by rw [hnodes]; simp), hnodes]
      refine ⟨c2, _, e2, hr2, congrArg some ?_⟩
      have hdrop : ((name, defn) :: (l0.map Prod.snd ++ [v])).dropLast
          = (name, defn) :: l0.map Prod.snd := by
        rw [← List.cons_append, List.dropLast_concat]
      rw [hdrop]
      simp [toCache, hc2, hc1]
    · rw [if_neg hfull, if_neg hfull]
      refine ⟨_, _, rfl, ⟨hr1.nodup, hr1.linked, hr1.only, hr1.head, hr1.tail⟩, ?_⟩
      simp [toCache]
  · obtain ⟨c1, e1, hr1, hc1⟩ := get_hit h hf hs
    obtain ⟨n, hn, hr2⟩ := setDefn_rep hr1 defn
    refine ⟨_, _, ?_, hr2, ?_⟩
    · rw [put, e1]
      simp only [Option.bind_eq_bind, Option.bind_some, hn]
    · rw [cachePut, cacheGet_toCache_hit hs]
      simp [toCache, hc1]

/-- **`cache_invalidate` on the nodes is `cacheInvalidate` on the list**; `tail` dangles when the
last node goes. -/
theorem invalidate_rep {c : CacheHeap} {l : List (Addr × NodeData)} (h : Rep c l) {fuel : ℕ}
    (hf : l.length < fuel) (key : CStr) : ∃ c' l', invalidate fuel c key = some c' ∧
      Rep c' l' ∧ cacheInvalidate (toCache c l) key = toCache c' l' := by
  rcases split_name l key with hs | ⟨l1, a, v, l2, rfl, hs⟩
  · refine ⟨c, l, ?_, h, ?_⟩
    · rw [invalidate, get_miss h hf hs]
      rfl
    · rw [cacheInvalidate, cacheGet_toCache_miss hs]
  · obtain ⟨c1, e1, ⟨hnd, ⟨hcell, hs1⟩, honly, hhead, htail⟩, hc1⟩ := get_hit h hf hs
    obtain ⟨hna, hnd1⟩ := List.nodup_cons.mp hnd
    have hlist : cacheInvalidate (toCache c (l1 ++ (a, key, v) :: l2)) key
        = ⟨(l1 ++ l2).map Prod.snd, c.globalCacheCount - 1⟩ := by
      rw [cacheInvalidate, cacheGet_toCache_hit hs]
      simp [toCache]
    rw [hlist, invalidate, e1]
    simp only [Option.bind_eq_bind, Option.bind_some, hhead, firstAddr, hcell]
    generalize l1 ++ l2 = l at *
    cases l with
    | nil =>
      refine ⟨_, [], rfl, ⟨List.nodup_nil, trivial, fun x _ => ?_, rfl, fun h => absurd rfl h⟩, ?_⟩
      · show Function.update c1.heap a none x = none
        by_cases hx : x = a
        · rw [hx]
          exact Function.update_self _ _ _
        · exact (Function.update_of_ne hx _ _).trans (honly x (by simpa using hx))
      · simp [toCache, hc1]
    | cons b l =>
      obtain ⟨b, u⟩ := b
      obtain ⟨h2, e2, hs2, hf2⟩ := hs1.setPrev_first hnd1 none
      have hother : ∀ x, x ≠ a → Function.update h2 a none x = h2 x :=
        fun x hx => Function.update_of_ne hx _ _
      simp only [e2, Option.bind_some]
      refine ⟨_, (b, u) :: l, rfl, ⟨hnd1, ?_, fun x hx => ?_, rfl, fun _ => ?_⟩, ?_⟩
      · exact hs2.frame fun x hx => hother x (by rintro rfl; exact hna hx)
      · show Function.update h2 a none x = none
        by_cases hxa : x = a
        · rw [hxa]
          exact Function.update_self _ _ _
        · have hxb : x ≠ b := by rintro rfl; simp at hx
          rw [hother x hxa, hf2 x hxb]
          refine honly x fun hm => ?_
          rcases List.mem_cons.mp hm with h | h
          · exact hxa h
          · exact hx h
      · exact htail (by simp)
      · simp [toCache, hc1]

/-! ## sequences of operations -/

inductive Op where
  | get (s : CStr)
  | put (name defn : CStr)
  | invalidate (key : CStr)
  deriving DecidableEq, Repr

/-- what the caller sees: the `defn` at the pointer returned, `none` for NULL -/
inductive OpResult where
  | defn (v : Option CStr)
  | done
  deriving DecidableEq, Repr

def op (M : Malloc) (fuel n : ℕ) (c : CacheHeap) : Op → Option (CacheHeap × OpResult)
  | .get s => (get fuel c s).map fun (p, c) => (c, .defn ((p.bind c.heap).map (·.val.2)))
  | .put name defn => (put fuel c (M.addr n c.heap) name defn).map fun c => (c, .done)
  | .invalidate key => (invalidate fuel c key).map fun c => (c, .done)

/-- the cache and the results after the operations, the first of which is the `n`-th -/
def ops (M : Malloc) (fuel : ℕ) : ℕ → CacheHeap → List Op → Option (CacheHeap × List OpResult)
  | _, c, [] => some (c, [])
  | n, c, o :: os => do
    let (c, r) ← op M fuel n c o
    let (c, rs) ← ops M fuel (n + 1) c os
    some (c, r :: rs)

/-- the reference: pairs from the most to the least recently used -/
def lruOp (l : List NodeData) : Op → List NodeData × OpResult
  | .get s =>
    match l.find? fun n => n.1 = s with
    | some n => (n :: l.eraseP fun m => m.1 = s, .defn (some n.2))
    | none => (l, .defn none)
  | .put name defn => (((name, defn) :: l.eraseP fun m => m.1 = name).take cacheSize, .done)
  | .invalidate key => (l.eraseP fun m => m.1 = key, .done)

def lruOps : List NodeData → List Op → List NodeData × List OpResult
  | l, [] => (l, [])
  | l, o :: os => ((lruOps (lruOp l o).1 os).1, (lruOp l o).2 :: (lruOps (lruOp l o).1 os).2)

theorem lruOp_get (c : Cache) (s : CStr) : lruOp c.nodes (.get s)
    = ((cacheGet c s).2.nodes, .defn (cacheGet c s).1) := by
  cases hf : c.nodes.find? fun n => n.1 = s <;> simp [lruOp, cacheGet, hf]

theorem cachePut_nodes {c c' : Cache} (h : c.Wf) {k v : CStr} (hp : cachePut c k v = some c') :
    c'.nodes = ((k, v) :: c.nodes.eraseP fun m => m.1 = k).take cacheSize := by
  obtain ⟨hnd, hcount, hsize⟩ := h
  unfold cachePut at hp
  cases hv : (cacheGet c k).1 with
  | none =>
    obtain ⟨hno, he⟩ := cacheGet_miss hv
    have hk : ∀ n ∈ c.nodes, ¬ decide (n.1 = k) = true := fun n hn e =>
      hno ⟨n.2, by rwa [← of_decide_eq_true e]⟩
    rw [show cacheGet c k = (none, c) from Prod.ext hv he] at hp
    rw [List.eraseP_of_forall_not hk]
    dsimp only at hp
    split_ifs at hp with hfull hnil
    · cases hp
      have hl : c.nodes.length = cacheSize := by rw [hcount] at hfull; omega
      rw [List.dropLast_eq_take]
      simp [hl]
    · cases hp
      rw [hcount] at hfull
      rw [List.take_of_length_le (by simp only [List.length_cons]; omega)]
  | some w =>
    obtain ⟨hm, he⟩ := cacheGet_hit hv
    have hlen := (eraseP_perm hm hnd).length_eq
    rw [show cacheGet c k = (some w, _) from Prod.ext hv he] at hp
    cases hp
    rw [List.take_of_length_le (by simp only [List.length_cons] at hlen ⊢; omega)]
    rfl

theorem cacheInvalidate_nodes (c : Cache) (k : CStr) :
    (cacheInvalidate c k).nodes = c.nodes.eraseP fun m => m.1 = k := by
  unfold cacheInvalidate
  cases hv : (cacheGet c k).1 with
  | none =>
    obtain ⟨hno, he⟩ := cacheGet_miss hv
    have hk : ∀ n ∈ c.nodes, ¬ decide (n.1 = k) = true := fun n hn e =>
      hno ⟨n.2, by rwa [← of_decide_eq_true e]⟩
    rw [show cacheGet c k = (none, c) from Prod.ext hv he, List.eraseP_of_forall_not hk]
  | some w =>
    obtain ⟨hm, he⟩ := cacheGet_hit hv
    rw [show cacheGet c k = (some w, _) from Prod.ext hv he]
    rfl

theorem exists_free {c : CacheHeap} {l : List (Addr × NodeData)} (h : Rep c l) :
    ∃ a, c.heap a = none := by
  obtain ⟨a, ha⟩ := Infinite.exists_notMem_finset (addrs l).toFinset
  exact ⟨a, h.only a (by simpa using ha)⟩

theorem op_rep (M : Malloc) (fuel n : ℕ) {c : CacheHeap} {l : List (Addr × NodeData)}
    (h : Rep c l) (hw : (toCache c l).Wf) (o : Op) :
    ∃ c' l', op M (fuel + (cacheSize + 1)) n c o = some (c', (lruOp (l.map Prod.snd) o).2) ∧
      Rep c' l' ∧ (toCache c' l').Wf ∧ l'.map Prod.snd = (lruOp (l.map Prod.snd) o).1 := by
  have hlen : l.length ≤ cacheSize := by
    have := hw.size
    simpa [toCache] using this
  have hf : l.length < fuel + (cacheSize + 1) := by omega
  cases o with
  | get s =>
    obtain ⟨p, c', l', e, hr, hv, hc⟩ := get_rep h hf s
    refine ⟨c', l', ?_, hr, hc ▸ hw.get s, ?_⟩
    all_goals rw [show l.map Prod.snd = (toCache c l).nodes from rfl]
    · rw [lruOp_get, ← hv, op, e]
      rfl
    · rw [lruOp_get, ← hc]
      rfl
  | put name defn =>
    have hne : c.globalCacheCount ≥ cacheSize → l ≠ [] := by
      intro hfull hnil
      have hcount : c.globalCacheCount = (l.map Prod.snd).length := hw.count
      rw [hcount, hnil] at hfull
      exact absurd hfull (by decide)
    obtain ⟨c', l', e, hr, hc⟩ := put_rep h hne hf (M.fresh n c.heap (exists_free h)) name defn
    obtain ⟨c2, e2, hw2, -, -⟩ := hw.put name defn
    have heq : toCache c' l' = c2 := Option.some.inj (hc.symm.trans e2)
    exact ⟨c', l', by rw [op, e]; rfl, hr, heq ▸ hw2, cachePut_nodes hw hc⟩
  | invalidate key =>
    obtain ⟨c', l', e, hr, hc⟩ := invalidate_rep h hf key
    refine ⟨c', l', by rw [op, e]; rfl, hr, hc ▸ (hw.invalidate key).1, ?_⟩
    rw [show l'.map Prod.snd = (cacheInvalidate (toCache c l) key).nodes from
      (congrArg Cache.nodes hc).symm, cacheInvalidate_nodes]
    rfl

theorem ops_rep (M : Malloc) (fuel : ℕ) (os : List Op) : ∀ (n : ℕ) {c : CacheHeap}
    {l : List (Addr × NodeData)}, Rep c l → (toCache c l).Wf →
    ∃ c' l', ops M (fuel + (cacheSize + 1)) n c os = some (c', (lruOps (l.map Prod.snd) os).2) ∧
      Rep c' l' ∧ (toCache c' l').Wf ∧ l'.map Prod.snd = (lruOps (l.map Prod.snd) os).1 := by
  induction os with
  | nil =>
    intro n c l h hw
    exact ⟨c, l, rfl, h, hw, rfl⟩
  | cons o os ih =>
    intro n c l h hw
    obtain ⟨c1, l1, e1, h1, hw1, hl1⟩ := op_rep M fuel n h hw o
    obtain ⟨c2, l2, e2, h2, hw2, hl2⟩ := ih (n + 1) h1 hw1
    rw [hl1] at e2 hl2
    refine ⟨c2, l2, ?_, h2, hw2, hl2⟩
    rw [ops, e1]
    simp only [Option.bind_eq_bind, Option.bind_some, e2]
    rfl

/-- **The cache is an LRU map.**  Any sequence of operations from the empty cache runs through,
whatever addresses `malloc` returns, with the results of the reference; afterwards the nodes are a
doubly linked list of the reference's pairs from `head` to `tail`, no name occurs twice and
`global_cache_count` is their number, at most `CACHE_SIZE`. -/
theorem cache_run (M : Malloc) (fuel : ℕ) (os : List Op) :
    ∃ (c : CacheHeap) (l : List (Addr × NodeData)),
      ops M (fuel + (cacheSize + 1)) 0 empty os = some (c, (lruOps [] os).2) ∧
      l.map Prod.snd = (lruOps [] os).1 ∧
      (addrs l).Nodup ∧ Seg c.heap none l none ∧ c.head = (addrs l).head? ∧
      (l ≠ [] → c.tail = (addrs l).getLast?) ∧ (l.map fun x => x.2.1).Nodup ∧
      c.globalCacheCount = l.length ∧ l.length ≤ cacheSize := by
  obtain ⟨c, l, e, h, hw, hl⟩ := ops_rep M fuel os 0 rep_empty Cache.Wf.empty
  have hnames : (l.map fun x => x.2.1).Nodup := by
    have := hw.nodup
    rw [toCache, List.map_map] at this
    exact this
  refine ⟨c, l, e, hl, h.nodup, h.linked, ?_, fun hne => ?_, hnames, ?_, ?_⟩
  · rw [h.head, firstAddr_eq_head]
  · rw [h.tail hne, lastAddr_eq_getLast]
  · have := hw.count
    simpa [toCache] using this
  · have := hw.size
    simpa [toCache] using this

end CacheHeap

end LsmKv
