import LsmKv.Text

/-!
# The cache (`cache.c`)

The doubly linked list is the list of its nodes from `head` (most recently used) to `tail`;
`globalCacheCount` is kept beside it, as in the source.

* `cacheGet`, `cachePut`, `cacheInvalidate`   the three operations; `cachePut` has no result
                     where the eviction would follow a NULL `tail->prev`;
* `Cache.Wf`         no name twice, the count is the length and at most `cacheSize`;
* `Wf.put`, `Wf.invalidate`   on such a cache every operation is defined and keeps it so;
* `Wf.keys_put`      the order of the names is that of their last use.
-/

namespace LsmKv

def cacheSize : Nat := 101

/-- nodes from `head` to `tail` as (`name`, `defn`), and the counter -/
structure Cache where
  nodes : List (CStr × CStr)
  globalCacheCount : Int
  deriving DecidableEq, Repr

def Cache.empty : Cache := ⟨[], 0⟩

/-- The `defn` found (`none` is NULL) and the cache with that node moved to the front. -/
def cacheGet (c : Cache) (s : CStr) : Option CStr × Cache :=
  match c.nodes.find? fun n => n.1 = s with
  | some n => (some n.2, { c with nodes := n :: c.nodes.eraseP fun m => m.1 = s })
  | none => (none, c)

def cachePut (c : Cache) (name defn : CStr) : Option Cache :=
  match cacheGet c name with
  | (none, c) =>
    if c.globalCacheCount ≥ cacheSize then
      -- tail = tail->prev, which is NULL when the new node is the only one
      if c.nodes = [] then none else some { c with nodes := ((name, defn) :: c.nodes).dropLast }
    else some ⟨(name, defn) :: c.nodes, c.globalCacheCount + 1⟩
  | (some _, c) => some { c with nodes := (name, defn) :: c.nodes.tail }

def cacheInvalidate (c : Cache) (key : CStr) : Cache :=
  match cacheGet c key with
  | (none, c) => c
  | (some _, c) => ⟨c.nodes.tail, c.globalCacheCount - 1⟩

/-- `k` has a node -/
def Cache.Has (c : Cache) (k : CStr) : Prop := ∃ v, (k, v) ∈ c.nodes

/-- the names from `head` to `tail` -/
def Cache.keys (c : Cache) : List CStr := c.nodes.map Prod.fst

instance (c : Cache) (k : CStr) : Decidable (c.Has k) :=
  decidable_of_iff (∃ n ∈ c.nodes, n.1 = k)
    ⟨fun ⟨n, hn, hk⟩ => ⟨n.2, hk ▸ hn⟩, fun ⟨_, hv⟩ => ⟨_, hv, rfl⟩⟩

theorem cacheGet_hit {c : Cache} {s v : CStr} (h : (cacheGet c s).1 = some v) :
    (s, v) ∈ c.nodes ∧
      (cacheGet c s).2 = { c with nodes := (s, v) :: c.nodes.eraseP fun m => m.1 = s } := by
  unfold cacheGet at h ⊢
  cases hf : c.nodes.find? fun n => n.1 = s with
  | none => rw [hf] at h; cases h
  | some n =>
    rw [hf] at h
    have hn : n.1 = s := by simpa using List.find?_some hf
    have hv : n.2 = v := Option.some.inj h
    have e : n = (s, v) := Prod.ext hn hv
    exact ⟨e ▸ List.mem_of_find?_eq_some hf, by simp [e]⟩

theorem cacheGet_miss {c : Cache} {s : CStr} (h : (cacheGet c s).1 = none) :
    ¬ c.Has s ∧ (cacheGet c s).2 = c := by
  unfold cacheGet at h ⊢
  cases hf : c.nodes.find? fun n => n.1 = s with
  | none =>
    refine ⟨fun ⟨v, hv⟩ => ?_, rfl⟩
    have := List.find?_eq_none.mp hf (s, v) hv
    simp at this
  | some n => rw [hf] at h; cases h

theorem cacheGet_none_iff {c : Cache} {s : CStr} : (cacheGet c s).1 = none ↔ ¬ c.Has s := by
  constructor
  · exact fun h => (cacheGet_miss h).1
  · intro h
    cases hv : (cacheGet c s).1 with
    | none => rfl
    | some v => exact absurd ⟨v, (cacheGet_hit hv).1⟩ h

theorem eraseP_perm {l : List (CStr × CStr)} {s v : CStr} (h : (s, v) ∈ l)
    (hnd : (l.map Prod.fst).Nodup) : ((s, v) :: l.eraseP fun m => m.1 = s).Perm l := by
  induction l with
  | nil => simp at h
  | cons n l ih =>
    rw [List.map_cons, List.nodup_cons] at hnd
    rcases List.mem_cons.mp h with rfl | h'
    · simp
    · have hne : n.1 ≠ s := fun e => hnd.1 (e ▸ List.mem_map_of_mem (f := Prod.fst) h')
      rw [List.eraseP_cons_of_neg (by simpa using hne)]
      exact (List.Perm.swap ..).trans ((ih h' hnd.2).cons n)

/-- The invariant of the cache. -/
structure Cache.Wf (c : Cache) : Prop where
  nodup : (c.nodes.map Prod.fst).Nodup
  count : c.globalCacheCount = c.nodes.length
  size : c.nodes.length ≤ cacheSize

namespace Cache.Wf
variable {c : Cache}

theorem empty : Cache.empty.Wf := ⟨List.nodup_nil, rfl, Nat.zero_le _⟩

theorem unique (h : c.Wf) {k v w : CStr} (hv : (k, v) ∈ c.nodes) (hw : (k, w) ∈ c.nodes) :
    v = w := by
  have := List.inj_on_of_nodup_map h.nodup hv hw rfl
  exact (Prod.mk.inj this).2

/-- a lookup moves one node to the front and loses none -/
theorem get_perm (h : c.Wf) (s : CStr) : (cacheGet c s).2.nodes.Perm c.nodes := by
  cases hv : (cacheGet c s).1 with
  | none => rw [(cacheGet_miss hv).2]
  | some v =>
    obtain ⟨hm, he⟩ := cacheGet_hit hv
    rw [he]
    exact eraseP_perm hm h.nodup

theorem get (h : c.Wf) (s : CStr) : (cacheGet c s).2.Wf := by
  have hp := h.get_perm s
  have hc : (cacheGet c s).2.globalCacheCount = c.globalCacheCount := by
    unfold cacheGet; split <;> rfl
  exact ⟨((hp.map _).nodup_iff).mpr h.nodup, by rw [hc, hp.length_eq]; exact h.count,
    hp.length_eq ▸ h.size⟩

theorem mem_get (h : c.Wf) (s : CStr) (n : CStr × CStr) :
    n ∈ (cacheGet c s).2.nodes ↔ n ∈ c.nodes := (h.get_perm s).mem_iff

/-- **`cachePut` is defined**, puts its pair in and otherwise only drops nodes. -/
theorem put (h : c.Wf) (k v : CStr) : ∃ c', cachePut c k v = some c' ∧ c'.Wf ∧
    (k, v) ∈ c'.nodes ∧ ∀ n ∈ c'.nodes, n = (k, v) ∨ n.1 ≠ k ∧ n ∈ c.nodes := by
  obtain ⟨hnd, hcount, hsize⟩ := h
  unfold cachePut
  cases hv : (cacheGet c k).1 with
  | none =>
    obtain ⟨hno, he⟩ := cacheGet_miss hv
    have hk : k ∉ c.nodes.map Prod.fst := by
      rintro hm
      obtain ⟨n, hn, rfl⟩ := List.mem_map.mp hm
      exact hno ⟨n.2, hn⟩
    have hall : (((k, v) :: c.nodes).map Prod.fst).Nodup := by
      rw [List.map_cons]; exact List.nodup_cons.mpr ⟨hk, hnd⟩
    have hother : ∀ n ∈ c.nodes, n.1 ≠ k := fun n hn e => hk (e ▸ List.mem_map_of_mem hn)
    rw [show cacheGet c k = (none, c) from Prod.ext hv he]
    dsimp only
    split_ifs with hfull hnil
    · rw [hcount, hnil] at hfull
      exact absurd hfull (by decide)
    · refine ⟨_, rfl, ⟨?_, ?_, ?_⟩, ?_, ?_⟩
      · exact hall.sublist ((List.dropLast_sublist _).map _)
      · simp [hcount]
      · simpa using hsize
      · obtain ⟨n, ns, e⟩ := List.exists_cons_of_ne_nil hnil
        rw [e, List.dropLast_cons_cons]
        simp
      · intro n hn
        rcases List.mem_cons.mp (List.mem_of_mem_dropLast hn) with rfl | hn'
        · exact Or.inl rfl
        · exact Or.inr ⟨hother n hn', hn'⟩
    · refine ⟨_, rfl, ⟨hall, ?_, ?_⟩, by simp, ?_⟩
      · simp [hcount]
      · rw [hcount] at hfull
        simp only [List.length_cons]
        omega
      · intro n hn
        rcases List.mem_cons.mp hn with rfl | hn'
        · exact Or.inl rfl
        · exact Or.inr ⟨hother n hn', hn'⟩
  | some w =>
    obtain ⟨hm, he⟩ := cacheGet_hit hv
    have hp := eraseP_perm hm hnd
    have hnd' := ((hp.map Prod.fst).nodup_iff).mpr hnd
    have hlen : (c.nodes.eraseP fun m => m.1 = k).length + 1 = c.nodes.length := by
      have := hp.length_eq; simpa using this
    rw [show cacheGet c k = (some w, _) from Prod.ext hv he]
    refine ⟨_, rfl, ⟨by simpa using hnd', ?_, ?_⟩, by simp, ?_⟩
    · simp [hcount, ← hlen]
    · simpa [hlen] using hsize
    · intro n hn
      rcases List.mem_cons.mp hn with rfl | hn'
      · exact Or.inl rfl
      · have hin : n ∈ c.nodes := hp.mem_iff.mp (List.mem_cons_of_mem _ hn')
        refine Or.inr ⟨fun e => ?_, hin⟩
        rw [List.map_cons, List.nodup_cons] at hnd'
        exact hnd'.1 (List.mem_map.mpr ⟨n, hn', e⟩)

/-- `cacheInvalidate` drops the node of its key and no other. -/
theorem invalidate (h : c.Wf) (k : CStr) : (cacheInvalidate c k).Wf ∧
    ∀ n, n ∈ (cacheInvalidate c k).nodes ↔ n ∈ c.nodes ∧ n.1 ≠ k := by
  unfold cacheInvalidate
  cases hv : (cacheGet c k).1 with
  | none =>
    obtain ⟨hno, he⟩ := cacheGet_miss hv
    rw [show cacheGet c k = (none, c) from Prod.ext hv he]
    refine ⟨h, fun n => ⟨fun hn => ⟨hn, fun e => hno ⟨n.2, e ▸ hn⟩⟩, fun hn => hn.1⟩⟩
  | some w =>
    obtain ⟨hm, he⟩ := cacheGet_hit hv
    obtain ⟨hnd, hcount, hsize⟩ := h
    have hp := eraseP_perm hm hnd
    have hnd' := ((hp.map Prod.fst).nodup_iff).mpr hnd
    rw [List.map_cons, List.nodup_cons] at hnd'
    have hlen : (c.nodes.eraseP fun m => m.1 = k).length + 1 = c.nodes.length := by
      have := hp.length_eq; simpa using this
    rw [show cacheGet c k = (some w, _) from Prod.ext hv he]
    refine ⟨⟨hnd'.2, ?_, ?_⟩, fun n => ?_⟩
    · simp only [List.tail_cons, hcount]; omega
    · simp only [List.tail_cons]; omega
    · simp only [List.tail_cons]
      constructor
      · intro hn
        refine ⟨hp.mem_iff.mp (List.mem_cons_of_mem _ hn), fun e => ?_⟩
        exact hnd'.1 (List.mem_map.mpr ⟨n, hn, e⟩)
      · rintro ⟨hn, hne⟩
        rcases List.mem_cons.mp (hp.mem_iff.mpr hn) with rfl | hn'
        · exact absurd rfl hne
        · exact hn'

/-! The names alone, from the most to the least recently used. -/

theorem keys_eraseP (l : List (CStr × CStr)) (s : CStr) :
    (l.eraseP fun m => m.1 = s).map Prod.fst = (l.map Prod.fst).erase s := by
  induction l with
  | nil => rfl
  | cons n l ih =>
    by_cases h : n.1 = s
    · simp [h]
    · rw [List.eraseP_cons_of_neg (by simpa using h), List.map_cons, List.map_cons,
        List.erase_cons_tail (by simpa using h), ih]

theorem has_iff {k : CStr} : c.Has k ↔ k ∈ c.keys := by
  unfold Cache.Has Cache.keys
  simp

/-- a lookup that hits moves its name to the front -/
theorem keys_get {k : CStr} (hk : c.Has k) : (cacheGet c k).2.keys = k :: c.keys.erase k := by
  cases hv : (cacheGet c k).1 with
  | none => exact absurd hk (cacheGet_miss hv).1
  | some v =>
    rw [(cacheGet_hit hv).2]
    simp only [Cache.keys, List.map_cons, keys_eraseP]

/-- **`cachePut` is least recently used**: its name to the front, the last one dropped when they
are too many. -/
theorem keys_put (h : c.Wf) {k v : CStr} {c' : Cache} (hp : cachePut c k v = some c') :
    c'.keys = (k :: c.keys.erase k).take cacheSize := by
  obtain ⟨hnd, hcount, hsize⟩ := h
  have hlen : c.keys.length = c.nodes.length := List.length_map ..
  unfold cachePut at hp
  cases hv : (cacheGet c k).1 with
  | none =>
    obtain ⟨hno, he⟩ := cacheGet_miss hv
    have hk : k ∉ c.keys := fun hm => hno (has_iff.mpr hm)
    rw [show cacheGet c k = (none, c) from Prod.ext hv he] at hp
    rw [List.erase_of_not_mem hk]
    dsimp only at hp
    split_ifs at hp with hfull hnil
    · cases hp
      have hl : c.nodes.length = cacheSize := by rw [hcount] at hfull; omega
      show List.map Prod.fst (((k, v) :: c.nodes).dropLast) = _
      rw [List.map_dropLast, List.dropLast_eq_take]
      simp [Cache.keys, hl]
    · cases hp
      rw [hcount] at hfull
      rw [List.take_of_length_le (by simp only [List.length_cons]; omega)]
      rfl
  | some w =>
    have hk : c.Has k := ⟨w, (cacheGet_hit hv).1⟩
    have hkeys := keys_get hk
    obtain ⟨hm, he⟩ := cacheGet_hit hv
    rw [show cacheGet c k = (some w, _) from Prod.ext hv he] at hp
    cases hp
    rw [List.take_of_length_le]
    · simp only [Cache.keys, List.map_cons, List.tail_cons, keys_eraseP]
    · have hpos : 0 < c.keys.length := List.length_pos_of_mem (has_iff.mp hk)
      have := List.length_erase_of_mem (has_iff.mp hk)
      simp only [List.length_cons]
      omega

theorem keys_invalidate (k : CStr) :
    (cacheInvalidate c k).keys = c.keys.erase k := by
  unfold cacheInvalidate
  cases hv : (cacheGet c k).1 with
  | none =>
    obtain ⟨hno, he⟩ := cacheGet_miss hv
    rw [show cacheGet c k = (none, c) from Prod.ext hv he]
    rw [List.erase_of_not_mem fun hm => hno (has_iff.mpr hm)]
  | some w =>
    obtain ⟨hm, he⟩ := cacheGet_hit hv
    rw [show cacheGet c k = (some w, _) from Prod.ext hv he]
    simp only [Cache.keys, List.tail_cons, keys_eraseP]

end Cache.Wf

end LsmKv
