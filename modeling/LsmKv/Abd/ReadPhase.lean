import LsmKv.Lib.MaxRegister
import LsmKv.Abd.Client

/-!
# What a read query leaves in its argument (`client.c`)

The threads of a query process their replies one after the other, in any order.

* `processReply`      `send_abd_read_query` between the lock and the unlock of `lrq_m`;
* `readPhase`         all replies of a query, in the order in which they are processed;
* `receive_eq`        the threads of `Clients` do the same;
* `Newest`            what the phase is for: the reply with the greatest tag, or the initial tag;
* `newest_register`   a register that keeps the greatest tag has it;
* `readPhase_eq`      the value left is that of the last reply, and no tag is ever read: the tags
                      compared are made of the number at the beginning of a value;
* `readPhase_iff`     when the pair is the newest one all the same.
-/

namespace LsmKv

/-- a reply `"v ts cid"` -/
structure ServerReply where
  value : CStr
  tag : AbdTag
  nonempty : value ≠ []
  word : ∀ c ∈ value, isspace c = false

/-- `arg->tag` before the first reply -/
def initialTag : AbdTag := ⟨0, abdClientId⟩

namespace ServerReply

def buffer (r : ServerReply) : CStr := fmtTag r.value r.tag

/-- the tag that is read: both calls of `strtok_r` return the value once more -/
def readTag (r : ServerReply) : AbdTag := ⟨atoi r.value, atoi r.value⟩

end ServerReply

/-- what a thread does to the value and the tag of the argument -/
def processReply (arg : CStr × AbdTag) (buffer : CStr) : Option (CStr × AbdTag) := do
  let (v, tag) ← parseReply buffer
  some (v, if abdTagCmp tag arg.2 ≠ 0 then tag else arg.2)

/-- the argument after the replies; `contents` is what `malloc` left in its value -/
def readPhase (contents : CStr) (buffers : List CStr) : Option (CStr × AbdTag) :=
  buffers.foldlM processReply (contents, initialTag)

/-- **A thread of the clients' model** processes its reply so. -/
theorem Clients.receive_eq {n : ℕ} {ι : Type} [DecidableEq ι] {key : CStr} {s : Clients n ι}
    {j a : ℕ} {buffer : CStr} {arg : AbdArg n ι} {tag : AbdTag}
    (hq : s.queries[j]? = some ⟨.read, a, .replied buffer⟩) (ha : s.args a = some arg)
    (ht : arg.tag = some tag) : s.step key (.receive j) =
      (processReply (arg.value, tag) buffer).map fun p =>
        { (s.setArg a { arg with value := p.1, tag := some p.2 }).setQuery j ⟨.read, a, .done⟩ with
          rqSem := Function.update s.rqSem arg.client (s.rqSem arg.client + 1) } := by
  simp only [Clients.step, hq, ha, ht, processReply, Option.bind_eq_bind, Option.bind_some]
  cases parseReply buffer with
  | none => rfl
  | some p => rfl

/-! ## what the phase is for -/

/-- **The newest pair**: that of a reply with the greatest tag, or the initial tag if no reply
exceeds it. -/
def Newest (rs : List ServerReply) (p : CStr × AbdTag) : Prop :=
  (∃ r ∈ rs, initialTag < r.tag ∧ (∀ r' ∈ rs, r'.tag ≤ r.tag) ∧ p = (r.value, r.tag)) ∨
    ((∀ r ∈ rs, r.tag ≤ initialTag) ∧ p.2 = initialTag)

/-- a register that keeps the greatest tag, in any order of the replies -/
theorem newest_register (contents : CStr) (rs : List ServerReply) : Newest rs
    ((rs.map fun r => (r.value, r.tag)).foldl MaxRegister.write (contents, initialTag)) := by
  obtain ⟨p, hp⟩ : ∃ p, (rs.map fun r => (r.value, r.tag)).foldl MaxRegister.write
      (contents, initialTag) = p := ⟨_, rfl⟩
  obtain ⟨hinit, hle⟩ := MaxRegister.le_foldl_write (contents, initialTag)
    (rs.map fun r => (r.value, r.tag))
  have hmem := MaxRegister.foldl_write_mem (contents, initialTag)
    (rs.map fun r => (r.value, r.tag))
  rw [hp] at hinit hle hmem ⊢
  have hall : ∀ r ∈ rs, r.tag ≤ p.2 := fun r hr => hle _ (List.mem_map_of_mem hr)
  rcases eq_or_lt_of_le hinit with heq | hlt
  · exact Or.inr ⟨fun r hr => (hall r hr).trans heq.ge, heq.symm⟩
  · rcases hmem with hp0 | hm
    · rw [hp0] at hlt
      exact absurd hlt (lt_irrefl _)
    · obtain ⟨r, hr, he⟩ := List.mem_map.mp hm
      rw [← he] at hlt hall
      exact Or.inl ⟨r, hr, hlt, hall, he.symm⟩

/-! ## what it does -/

theorem parseReply_buffer (r : ServerReply) :
    parseReply r.buffer = some (r.value, r.readTag) := by
  have hspace := ne_space_of_word r.word
  have h1 : (strtokR r.buffer).1 = some r.value := by
    rw [ServerReply.buffer, fmtTag, strtokR_append r.nonempty hspace]
  have hlead : r.buffer.takeWhile (· = ' ') = [] := by
    rw [ServerReply.buffer, fmtTag]
    cases hv : r.value with
    | nil => exact absurd hv r.nonempty
    | cons c v =>
      have hc : c ≠ ' ' := hspace c (by rw [hv]; exact List.mem_cons_self)
      simp [hc]
  have h2 : (strtokR r.value).1 = some r.value := by
    have hdrop : r.value.dropWhile (· = ' ') = r.value := by
      cases hv : r.value with
      | nil => rfl
      | cons c v =>
        have hc : c ≠ ' ' := hspace c (by rw [hv]; exact List.mem_cons_self)
        simp [hc]
    have htake : r.value.takeWhile (· ≠ ' ') = r.value := by
      rw [List.takeWhile_eq_self_iff]
      simpa using hspace
    unfold strtokR
    simp only [hdrop, htake]
    cases hv : r.value with
    | nil => exact absurd hv r.nonempty
    | cons c v => rfl
  unfold parseReply
  simp only [h1, hlead, List.nil_append, h2, Option.bind_eq_bind, Option.bind_some]
  rfl

theorem processReply_eq (arg : CStr × AbdTag) (r : ServerReply) :
    processReply arg r.buffer = some (r.value, max arg.2 r.readTag) := by
  have hcmp : abdTagCmp r.readTag arg.2 ≠ 0 ↔ arg.2 < r.readTag := by
    rw [← abdTagCmp_eq]
    unfold abdTagCmp
    split_ifs <;> simp
  unfold processReply
  rw [parseReply_buffer]
  simp only [Option.bind_eq_bind, Option.bind_some, hcmp]
  congr 2
  by_cases h : arg.2 < r.readTag
  · rw [if_pos h, max_eq_right h.le]
  · rw [if_neg h, max_eq_left (not_lt.mp h)]

/-- **What is left**: the value of the last reply, and the greatest of the tags that are read. -/
theorem readPhase_eq (contents : CStr) (rs : List ServerReply) :
    readPhase contents (rs.map ServerReply.buffer)
      = some (((rs.map ServerReply.value).getLast?).getD contents,
          (rs.map ServerReply.readTag).foldl max initialTag) := by
  unfold readPhase
  generalize initialTag = t
  induction rs generalizing contents t with
  | nil => rfl
  | cons r rs ih =>
    rw [List.map_cons, List.foldlM_cons, processReply_eq, Option.bind_eq_bind, Option.bind_some,
      ih, List.map_cons, List.map_cons, List.foldl_cons]
    congr 2
    cases hrs : rs.map ServerReply.value with
    | nil => rfl
    | cons v vs =>
      rw [List.getLast?_cons_cons]
      obtain ⟨w, hw⟩ := Option.isSome_iff_exists.mp
        (List.getLast?_isSome.mpr (List.cons_ne_nil v vs))
      rw [hw]
      rfl

/-- the greatest of some tags -/
theorem foldl_max_spec (t : AbdTag) (ts : List AbdTag) :
    (t ≤ ts.foldl max t ∧ ∀ u ∈ ts, u ≤ ts.foldl max t) ∧
      (ts.foldl max t = t ∨ ts.foldl max t ∈ ts) := by
  have hfold : ∀ (ts : List AbdTag) (w : Unit × AbdTag),
      ((ts.map fun u => ((), u)).foldl MaxRegister.write w).2 = ts.foldl max w.2 := by
    intro ts
    induction ts with
    | nil => intro w; rfl
    | cons u ts ih =>
      intro w
      rw [List.map_cons, List.foldl_cons, ih, MaxRegister.write_tag, List.foldl_cons]
  have h := hfold ts ((), t)
  obtain ⟨h1, h2⟩ := MaxRegister.le_foldl_write ((), t) (ts.map fun u => ((), u))
  rw [h] at h1 h2
  refine ⟨⟨h1, fun u hu => h2 ((), u) (List.mem_map_of_mem hu)⟩, ?_⟩
  rcases MaxRegister.foldl_write_mem ((), t) (ts.map fun u => ((), u)) with h0 | hm
  · rw [h0] at h
    exact Or.inl h.symm
  · obtain ⟨u, hu, he⟩ := List.mem_map.mp hm
    rw [← he] at h
    exact Or.inr (h ▸ hu)

/-- a value that begins with no number, or with 0 -/
theorem readTag_le_initial (r : ServerReply) : r.readTag ≤ initialTag ↔ atoi r.value = 0 := by
  rw [← not_lt, AbdTag.lt_iff]
  show ¬ ((0 : BitVec 32) < atoi r.value ∨ 0 = atoi r.value ∧ abdClientId < atoi r.value) ↔ _
  generalize atoi r.value = x
  constructor
  · intro h
    by_contra hx
    refine h (Or.inl ?_)
    rw [BitVec.lt_def]
    have hne : x.toNat ≠ 0 := fun h0 => hx (BitVec.eq_of_toNat_eq (by rw [h0]; rfl))
    show 0 < x.toNat
    omega
  · rintro rfl h
    rcases h with h | ⟨-, h⟩
    · exact absurd h (by decide)
    · exact absurd h (by decide)

/-- The value processed last is that of a reply with the greatest tag, and this tag happens to be
the greatest of the tags that are read; or no tag exceeds the initial one and no value begins with a
number other than 0. -/
def Echoes (rs : List ServerReply) : Prop :=
  (∃ r ∈ rs, initialTag < r.tag ∧ (∀ r' ∈ rs, r'.tag ≤ r.tag ∧ r'.readTag ≤ r.tag) ∧
      (∃ r' ∈ rs, r'.readTag = r.tag) ∧ (rs.map ServerReply.value).getLast? = some r.value) ∨
    ((∀ r ∈ rs, r.tag ≤ initialTag) ∧ ∀ r ∈ rs, atoi r.value = 0)

/-- **When a read query returns the newest pair**, for replies in the order in which they are
processed. -/
theorem readPhase_iff (contents : CStr) (rs : List ServerReply) :
    (∃ p, readPhase contents (rs.map ServerReply.buffer) = some p ∧ Newest rs p) ↔ Echoes rs := by
  obtain ⟨⟨hinit, hle⟩, hmem⟩ := foldl_max_spec initialTag (rs.map ServerReply.readTag)
  have heq := readPhase_eq contents rs
  obtain ⟨t, ht⟩ : ∃ t, (rs.map ServerReply.readTag).foldl max initialTag = t := ⟨_, rfl⟩
  rw [ht] at hinit hle hmem heq
  have hread : ∀ r ∈ rs, r.readTag ≤ t := fun r hr => hle _ (List.mem_map_of_mem hr)
  constructor
  · intro h
    obtain ⟨p, hp, hnew⟩ := h
    rw [heq] at hp
    obtain rfl := Option.some.inj hp
    rcases hnew with ⟨r, hr, hlt, hgreat, he⟩ | ⟨hno, he⟩
    · obtain ⟨hv, htag⟩ := Prod.mk.inj he
      subst htag
      refine Or.inl ⟨r, hr, hlt, fun r' hr' => ⟨hgreat r' hr', hread r' hr'⟩, ?_, ?_⟩
      · rcases hmem with h0 | hm
        · rw [h0] at hlt
          exact absurd hlt (lt_irrefl _)
        · exact List.mem_map.mp hm
      · have hne : rs.map ServerReply.value ≠ [] := List.ne_nil_of_mem (List.mem_map_of_mem hr)
        obtain ⟨w, hw⟩ := Option.isSome_iff_exists.mp (List.getLast?_isSome.mpr hne)
        rw [hw] at hv ⊢
        exact congrArg some hv
    · have h0 : t = initialTag := he
      refine Or.inr ⟨hno, fun r hr => ?_⟩
      exact (readTag_le_initial r).mp ((hread r hr).trans h0.le)
  · intro h
    refine ⟨_, heq, ?_⟩
    rcases h with ⟨r, hr, hlt, hgreat, ⟨r', hr', hsame⟩, hlast⟩ | ⟨hno, hzero⟩
    · have htag : t = r.tag := by
        refine le_antisymm ?_ (hsame ▸ hread r' hr')
        rcases hmem with h0 | hm
        · rw [h0]
          exact hlt.le
        · obtain ⟨x, hx, rfl⟩ := List.mem_map.mp hm
          exact (hgreat x hx).2
      refine Or.inl ⟨r, hr, hlt, fun x hx => (hgreat x hx).1, ?_⟩
      rw [hlast, htag]
      rfl
    · refine Or.inr ⟨hno, ?_⟩
      rcases hmem with h0 | hm
      · exact h0
      · obtain ⟨x, hx, he⟩ := List.mem_map.mp hm
        rw [← he] at hinit ⊢
        exact le_antisymm ((readTag_le_initial x).mpr (hzero x hx)) hinit

/-- two replies, the newer one first -/
def newerFirst : List ServerReply :=
  [⟨['x'], ⟨5, 1⟩, by simp, by simp [isspace]⟩, ⟨['y'], ⟨3, 1⟩, by simp, by simp [isspace]⟩]

/-- **A mix-up**: the value of the older reply and the tag of none. -/
theorem read_mixes_replies :
    readPhase [] (newerFirst.map ServerReply.buffer) = some (['y'], initialTag) ∧
      ¬ Newest newerFirst (['y'], initialTag) := by
  refine ⟨by decide +kernel, fun h => ?_⟩
  rcases h with ⟨r, -, hlt, -, he⟩ | ⟨hno, -⟩
  · rw [← (Prod.mk.inj he).2] at hlt
    exact absurd hlt (lt_irrefl _)
  · have h5 := hno _ (List.mem_cons_self)
    rw [← not_lt] at h5
    exact h5 (by decide)

end LsmKv
