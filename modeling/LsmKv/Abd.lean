import Mathlib.Data.Prod.Lex
import LsmKv.Store

/-!
# Tagged values (`abd.c`, `server-part1.c`)

An ABD server stores a value with its tag as one string.

* `AbdTag`, `abdTagCmp`     tags and their comparison: the lexicographic order of `abdTagCmp_eq`;
* `sscanfTag`, `newValue`   the string read and printed;
* `server1PutRequestAbd` .. `server1DeleteRequestAbd`   the requests; `searchTag` is what the
                            variable of that name holds before anything is read into it;
* `Tagged`                  the string is read as this value and this tag;
* `tagged_newValue`         what is printed, and not cut, is read back;
* `putAbd_eq`, `insertAbd_eq`, `deleteAbd_eq`   what a request does after its search.
-/

namespace LsmKv

/-- `abd_tag_t` -/
structure AbdTag where
  timestamp : BitVec 32
  clientId : BitVec 32
  deriving DecidableEq, Repr

def abdTagCmp (one two : AbdTag) : Int :=
  if one.timestamp > two.timestamp then 1
  else if one.timestamp = two.timestamp ∧ one.clientId > two.clientId then 1
  else 0

/-- `sscanf(buffer, "%s %d %d", value, &tag.timestamp, &tag.client_id)`: what is not converted
keeps its contents.  The buffer behind `value` has room for the word. -/
def sscanfTag (buffer value : CStr) (tag : AbdTag) : CStr × AbdTag :=
  match scanWord buffer with
  | none => (value, tag)
  | some (value, r) =>
    match scanInt r with
    | none => (value, tag)
    | some (timestamp, r) =>
      match scanInt r with
      | none => (value, { tag with timestamp := .ofInt 32 timestamp })
      | some (clientId, _) => (value, ⟨.ofInt 32 timestamp, .ofInt 32 clientId⟩)

/-- `"%s %d %d"` -/
def fmtTag (value : CStr) (tag : AbdTag) : CStr :=
  value ++ ' ' :: (fmtInt tag.timestamp.toInt ++ ' ' :: fmtInt tag.clientId.toInt)

/-- `snprintf(new_value, MAX_VALUE_SIZE + MAX_TAG_SIZE + 3, "%s %d %d\n", ..)` -/
def newValue (value : CStr) (tag : AbdTag) : CStr :=
  (fmtTag value tag ++ ['\n']).take (maxValueSize + maxTagSize + 3 - 1)

def server1PutRequestAbd (s : Store) (key value : CStr) (tag searchTag : AbdTag) :
    Option Reply := do
  let (rc, searchBuffer, s) ← server1GetRequest s key
  if rc ≠ 0 then none
  else
    let (value, searchTag) := sscanfTag searchBuffer value searchTag
    if abdTagCmp tag searchTag = 1 then server1PutRequest s key (newValue value tag)
    else some (0, searchBuffer, s)

def server1InsertRequestAbd (s : Store) (key value : CStr) (tag searchTag : AbdTag) :
    Option Reply := do
  let (rc, searchBuffer, s) ← server1GetRequest s key
  if rc ≠ 0 then none
  else
    let (value, searchTag) := sscanfTag searchBuffer value searchTag
    if abdTagCmp tag searchTag = 1 then server1InsertRequest s key (newValue value tag)
    else some (0, searchBuffer, s)

/-- There is no `sscanf` here: the tag is compared with what the variable held. -/
def server1DeleteRequestAbd (s : Store) (key : CStr) (tag searchTag : AbdTag) :
    Option Reply := do
  let (rc, searchBuffer, s) ← server1GetRequest s key
  if rc ≠ 0 then none
  else if abdTagCmp tag searchTag = 1 then server1DeleteRequest s key
  else some (0, searchBuffer, s)

/-! ## the order of tags -/

namespace AbdTag

/-- the timestamp first, the client's number second -/
def rank (t : AbdTag) : ℕ ×ₗ ℕ := toLex (t.timestamp.toNat, t.clientId.toNat)

theorem rank_injective : Function.Injective rank := by
  intro a b h
  have h' : (a.timestamp.toNat, a.clientId.toNat) = (b.timestamp.toNat, b.clientId.toNat) := h
  obtain ⟨h1, h2⟩ := Prod.mk.inj h'
  cases a
  cases b
  simp only [AbdTag.mk.injEq]
  exact ⟨BitVec.eq_of_toNat_eq h1, BitVec.eq_of_toNat_eq h2⟩

instance : LinearOrder AbdTag := LinearOrder.lift' rank rank_injective

theorem lt_iff {a b : AbdTag} : a < b ↔
    a.timestamp < b.timestamp ∨ a.timestamp = b.timestamp ∧ a.clientId < b.clientId := by
  show rank a < rank b ↔ _
  rw [rank, rank, Prod.Lex.toLex_lt_toLex, BitVec.lt_def, BitVec.lt_def, BitVec.toNat_inj]

end AbdTag

/-- **`abd_tag_cmp`** -/
theorem abdTagCmp_eq {one two : AbdTag} : abdTagCmp one two = 1 ↔ two < one := by
  rw [AbdTag.lt_iff, abdTagCmp]
  by_cases h1 : two.timestamp < one.timestamp
  · simp [h1]
  · by_cases h2 : one.timestamp = two.timestamp ∧ two.clientId < one.clientId
    · simp [h2]
    · simp only [gt_iff_lt, h1, h2, if_false, false_or]
      exact ⟨(fun h => by cases h), fun h => absurd ⟨h.1.symm, h.2⟩ h2⟩

/-! ## strings that hold a value and a tag -/

/-- whatever was in the variables -/
def Tagged (buffer value : CStr) (tag : AbdTag) : Prop :=
  ∀ value' tag', sscanfTag buffer value' tag' = (value, tag)

theorem Tagged.unique {buffer v w : CStr} {t u : AbdTag} (h : Tagged buffer v t)
    (h' : Tagged buffer w u) : v = w ∧ t = u :=
  Prod.mk.inj ((h [] t).symm.trans (h' [] t))

/-- a string of three fields is read whole -/
theorem sscanfTag_eq {buffer v r r' x : CStr} {i j : Int} (h1 : scanWord buffer = some (v, r))
    (h2 : scanInt r = some (i, r')) (h3 : scanInt r' = some (j, x)) :
    Tagged buffer v ⟨.ofInt 32 i, .ofInt 32 j⟩ := by
  intro value' tag'
  simp only [sscanfTag, h1, h2, h3]

/-- the value of a tagged string is what `%s` reads -/
theorem Tagged.scanWord {buffer v : CStr} {t : AbdTag} (h : Tagged buffer v t) :
    ∃ r, LsmKv.scanWord buffer = some (v, r) := by
  cases hw : LsmKv.scanWord buffer with
  | none =>
    have h1 := h [] t
    have h2 := h ['x'] t
    simp only [sscanfTag, hw, Prod.mk.injEq] at h1 h2
    rw [← h1.1] at h2
    cases h2.1
  | some p =>
    obtain ⟨w, r⟩ := p
    refine ⟨r, ?_⟩
    have h1 := h [] t
    simp only [sscanfTag, hw] at h1
    split at h1
    · rw [(Prod.mk.inj h1).1]
    · split at h1
      · rw [(Prod.mk.inj h1).1]
      · rw [(Prod.mk.inj h1).1]

/-- the value and the tag are not cut -/
def TagFits (value : CStr) (tag : AbdTag) : Prop :=
  (fmtTag value tag).length ≤ maxValueSize + maxTagSize + 3 - 1

instance (value : CStr) (tag : AbdTag) : Decidable (TagFits value tag) :=
  inferInstanceAs (Decidable (_ ≤ _))

/-- **What is printed is read back.** -/
theorem tagged_newValue {value : CStr} {tag : AbdTag} (hne : value ≠ [])
    (hs : ∀ c ∈ value, isspace c = false) (hfit : TagFits value tag) :
    Tagged (newValue value tag) value tag := by
  -- the newline is all that may be cut
  have hcut : ∃ e, (e = [] ∨ e = ['\n']) ∧ newValue value tag = fmtTag value tag ++ e := by
    unfold newValue
    rw [List.take_append, List.take_of_length_le hfit]
    refine ⟨_, ?_, rfl⟩
    cases maxValueSize + maxTagSize + 3 - 1 - (fmtTag value tag).length with
    | zero => exact Or.inl rfl
    | succ n => right; simp
  obtain ⟨e, he, hnew⟩ := hcut
  have hdigit : NoDigit e := by
    rcases he with rfl | rfl
    · simp [NoDigit]
    · simp [NoDigit]
  rw [hnew]
  have h1 : scanWord (fmtTag value tag ++ e) = some (value,
      ' ' :: (fmtInt tag.timestamp.toInt ++ ' ' :: (fmtInt tag.clientId.toInt ++ e))) := by
    unfold fmtTag
    rw [List.append_assoc, List.cons_append, List.append_assoc, List.cons_append]
    exact scanWord_nonspace hne hs (by simp [Stops, isspace])
  have h2 := scanInt_fmtInt (isInt_toInt tag.timestamp)
    (r := ' ' :: (fmtInt tag.clientId.toInt ++ e)) (by simp [NoDigit])
  have h3 := scanInt_fmtInt (isInt_toInt tag.clientId) (r := e) hdigit
  rw [← scanInt_space (c := ' ') (by decide)] at h2 h3
  have h := sscanfTag_eq h1 h2 h3
  rwa [BitVec.ofInt_toInt, BitVec.ofInt_toInt] at h

/-! ## what the requests do -/

section requests
variable {s s1 : Store} {key buffer v : CStr} {t : AbdTag}

/-- **`server_1_put_request_abd`** puts the value that was stored, with the tag of the request. -/
theorem putAbd_eq (hget : server1GetRequest s key = some (exitSuccess, buffer, s1))
    (ht : Tagged buffer v t) (value : CStr) (tag searchTag : AbdTag) :
    server1PutRequestAbd s key value tag searchTag
      = if t < tag then server1PutRequest s1 key (newValue v tag) else some (0, buffer, s1) := by
  simp [server1PutRequestAbd, hget, ht value, exitSuccess, abdTagCmp_eq]

theorem insertAbd_eq (hget : server1GetRequest s key = some (exitSuccess, buffer, s1))
    (ht : Tagged buffer v t) (value : CStr) (tag searchTag : AbdTag) :
    server1InsertRequestAbd s key value tag searchTag
      = if t < tag then server1InsertRequest s1 key (newValue v tag)
        else some (0, buffer, s1) := by
  simp [server1InsertRequestAbd, hget, ht value, exitSuccess, abdTagCmp_eq]

theorem deleteAbd_eq (hget : server1GetRequest s key = some (exitSuccess, buffer, s1))
    (tag searchTag : AbdTag) : server1DeleteRequestAbd s key tag searchTag
      = if searchTag < tag then server1DeleteRequest s1 key else some (0, buffer, s1) := by
  simp [server1DeleteRequestAbd, hget, exitSuccess, abdTagCmp_eq]

end requests

end LsmKv
