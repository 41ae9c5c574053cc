import LsmKv.C1.Record
import LsmKv.Abd

/-!
# Which entries of c0 read back from c1 (`c1.c`, `server-part1.c`)

The handlers split a request line at spaces only, and ABD mode stores `"v ts cid\n"`; the scan of a
record stops at any white space.

* `keyToken`, `valueToken`     the tokens a handler takes from a request line;
* `Populated e`                an entry that a request can put into c0;
* `ReadsBack e`                its record is scanned into exactly its three fields;
* `sscanf_length`              a scan that reads three fields has read separators too;
* `reads_back_iff`             no white space, and not cut;
* `record_reads_back_iff`      the same for what the handlers can put into c0;
* `write_reads_back_iff`       outside ABD mode no record is cut.
-/

namespace LsmKv

/-- the second token of a request line -/
def keyToken (line : CStr) : Option CStr := (strtokR (strtokR line).2).1

/-- the third token of a request line -/
def valueToken (line : CStr) : Option CStr := (strtokR (strtokR (strtokR line).2).2).1

/-- a request line as `read` delivers it: at most `MAX_ENTRY_SIZE` bytes -/
structure IsLine (line : CStr) : Prop where
  size : line.length ≤ maxEntrySize
  nulFree : ∀ c ∈ line, c ≠ '\x00'

/-- The entries that requests can put into c0.  `lent` says whether `Insert` copied the value or
`Update` stored the pointer; `searchBuffer` is what the search of an ABD request found. -/
inductive Populated : Entry → Prop
  | write {line key value : CStr} (lent : Bool) (hl : IsLine line)
      (hk : keyToken line = some key) (hv : valueToken line = some value) :
      Populated ⟨key, ⟨value, lent⟩, 0⟩
  | remove {line key : CStr} (hl : IsLine line) (hk : keyToken line = some key) :
      Populated ⟨key, ⟨"invalid_delete".toList, false⟩, 1⟩
  | mark {e : Entry} (h : Populated e) : Populated { e with flag := 1 }
  | abd {line key value : CStr} (lent : Bool) (searchBuffer : CStr) (tag searchTag : AbdTag)
      (hl : IsLine line) (hk : keyToken line = some key) (hv : valueToken line = some value)
      (hb : ∀ c ∈ searchBuffer, c ≠ '\x00') :
      Populated ⟨key, ⟨newValue (sscanfTag searchBuffer value searchTag).1 tag, lent⟩, 0⟩

/-- The scans of `merge` and `c1_search` give back the key, the whole value and the flag. -/
def ReadsBack (e : Entry) : Prop :=
  sscanf (keyval e) = (some e.key, some e.value.chars, some e.flag)

instance (e : Entry) : Decidable (ReadsBack e) := inferInstanceAs (Decidable (_ = _))

/-- no white space in the key or the value, and a record whose flag is not cut off -/
structure Clean (e : Entry) : Prop where
  key : ∀ c ∈ e.key, isspace c = false
  value : ∀ c ∈ e.value.chars, isspace c = false
  size : e.key.length + e.value.chars.length ≤ 427

/-! ## the scan, by length -/

theorem scanWord_length {s w r : CStr} (h : scanWord s = some (w, r)) :
    w.length + r.length ≤ s.length ∧ Stops r := by
  unfold scanWord at h
  dsimp only at h
  split at h
  · cases h
  · cases h
    have hsplit := congrArg List.length
      (List.takeWhile_append_dropWhile (p := (!isspace ·)) (l := s.dropWhile isspace))
    rw [List.length_append] at hsplit
    have hle := (List.dropWhile_suffix (l := s) isspace).length_le
    refine ⟨by omega, fun c hc => ?_⟩
    have := List.head?_dropWhile_not (!isspace ·) (s.dropWhile isspace)
    rw [Option.mem_def.mp hc] at this
    simpa using this

/-- something is read behind white space -/
theorem scanWord_length_stops {s w r : CStr} (hs : Stops s) (h : scanWord s = some (w, r)) :
    1 + w.length + r.length ≤ s.length := by
  cases s with
  | nil => simp [scanWord] at h
  | cons c s =>
    rw [scanWord_space (hs c (by simp))] at h
    have := (scanWord_length h).1
    rw [List.length_cons]
    omega

theorem scanInt_length_stops {s r : CStr} {i : Int} (hs : Stops s) (h : scanInt s = some (i, r)) :
    2 ≤ s.length := by
  cases s with
  | nil => simp [scanInt, scanDigits] at h
  | cons c s =>
    rw [scanInt_space (hs c (by simp))] at h
    cases s with
    | nil => simp [scanInt, scanDigits] at h
    | cons d s =>
      simp only [List.length_cons]
      omega

/-- **Three fields take three separators** besides the first two. -/
theorem sscanf_length {line : Line} {key val : CStr} {flag : Int}
    (h : sscanf line = (some key, some val, some flag)) :
    key.length + val.length + 3 ≤ (line.takeWhile (· ≠ '\x00')).length ∧
      (∀ c ∈ key, isspace c = false) ∧ ∀ c ∈ val, isspace c = false := by
  unfold sscanf at h
  split at h
  · cases h
  · rename_i key' r h1
    split at h
    · cases h
    · rename_i val' r' h2
      obtain ⟨hk, hv, hi⟩ : key' = key ∧ val' = val ∧ (scanInt r').map Prod.fst = some flag := by
        simpa using h
      subst hk hv
      obtain ⟨p, hp, -⟩ := Option.map_eq_some_iff.mp hi
      obtain ⟨hlen1, hs1⟩ := scanWord_length h1
      have hlen2 := scanWord_length_stops hs1 h2
      have hlen3 := scanInt_length_stops (scanWord_length h2).2 hp
      exact ⟨by omega, (scanWord_mem h1).2, (scanWord_mem h2).2⟩

/-! ## which entries read back -/

/-- what a handler's request leaves in c0: no empty field, no terminator in one, a flag 0 or 1 -/
structure Stored (e : Entry) : Prop where
  key : e.key ≠ [] ∧ ∀ c ∈ e.key, c ≠ '\x00'
  value : e.value.chars ≠ [] ∧ ∀ c ∈ e.value.chars, c ≠ '\x00'
  flag : e.flag = 0 ∨ e.flag = 1

theorem Stored.length_fmtInt {e : Entry} (h : Stored e) : (fmtInt e.flag).length = 1 := by
  rcases h.flag with hf | hf <;> rw [hf] <;> rfl

theorem Stored.length_record {e : Entry} (h : Stored e) :
    (record e).length = e.key.length + e.value.chars.length + 4 := by
  simp only [record, List.length_append, List.length_cons, List.length_nil, h.length_fmtInt]
  omega

/-- a record that is too long by one byte loses its newline only -/
theorem sscanf_keyval_full {e : Entry} (hkey : Word e.key) (hval : Word e.value.chars)
    (hflag : IsInt e.flag) (hsize : (record e).length = lineSize) :
    sscanf (keyval e) = (some e.key, some e.value.chars, some e.flag) := by
  have hfields : record e
      = (e.key ++ ' ' :: (e.value.chars ++ ' ' :: fmtInt e.flag)) ++ ['\n'] := by simp [record]
  generalize hf : e.key ++ ' ' :: (e.value.chars ++ ' ' :: fmtInt e.flag) = fields at hfields
  have hlen : fields.length = lineSize - 1 := by
    rw [hfields, List.length_append, List.length_singleton] at hsize
    omega
  have hnul : ∀ c ∈ fields, decide (c ≠ '\x00') = true := by
    intro c hc
    rw [← hf] at hc
    simp only [List.mem_append, List.mem_cons] at hc
    rw [decide_eq_true_iff]
    rcases hc with hc | rfl | hc | rfl | hc
    · exact (hkey.2 c hc).2
    · decide
    · exact (hval.2 c hc).2
    · decide
    · exact fmtInt_ne_nul _ c hc
  have hend : NoDigit [] := by simp [NoDigit]
  refine sscanf_fields hkey hval hflag hend ?_
  unfold keyval
  rw [hfields, ← hlen, List.take_left, List.append_nil, hf]
  show (fields ++ List.replicate (lineSize - fields.length) '\x00').takeWhile _ = _
  rw [List.takeWhile_append_of_pos hnul, hlen]
  simp [lineSize]

theorem reads_back_of_clean {e : Entry} (h : Stored e) (hc : Clean e) : ReadsBack e := by
  have hkey : Word e.key := ⟨h.key.1, fun c hm => ⟨hc.key c hm, h.key.2 c hm⟩⟩
  have hval : Word e.value.chars := ⟨h.value.1, fun c hm => ⟨hc.value c hm, h.value.2 c hm⟩⟩
  have hlen := h.length_record
  have hsize := hc.size
  by_cases hfull : (record e).length = lineSize
  · exact sscanf_keyval_full hkey hval (isInt_flag h.flag) hfull
  · exact sscanf_keyval ⟨hkey, hval, isInt_flag h.flag, by rw [lineSize_eq] at *; omega⟩

theorem clean_of_reads_back {e : Entry} (h : Stored e) (hr : ReadsBack e) : Clean e := by
  obtain ⟨hlen, hkey, hval⟩ := sscanf_length hr
  refine ⟨hkey, hval, ?_⟩
  by_contra hbig
  -- the printed part is full then, and holds less than the three fields
  have hrec := h.length_record
  have hprinted : ((record e).take (lineSize - 1)).length = lineSize - 1 := by
    rw [List.length_take, lineSize_eq]
    omega
  have hcut : ((keyval e).takeWhile (· ≠ '\x00')).length ≤ lineSize - 1 := by
    have hnul : keyval e = (record e).take (lineSize - 1) ++ ['\x00'] := by
      show _ ++ List.replicate (lineSize - ((record e).take (lineSize - 1)).length) _ = _
      rw [hprinted]
      rfl
    rw [hnul, List.takeWhile_append]
    split_ifs
    · simp [hprinted]
    · exact (List.takeWhile_sublist _).length_le.trans hprinted.le
  rw [lineSize_eq] at hcut
  omega

theorem reads_back_iff {e : Entry} (h : Stored e) : ReadsBack e ↔ Clean e :=
  ⟨clean_of_reads_back h, reads_back_of_clean h⟩

/-! ## what the handlers put into c0 -/

theorem strtokR_some {s t : CStr} (h : (strtokR s).1 = some t) :
    t ≠ [] ∧ t.length + (strtokR s).2.length ≤ s.length ∧ (∀ c ∈ t, c ∈ s) ∧
      ∀ c ∈ (strtokR s).2, c ∈ s := by
  have hsuf := List.dropWhile_suffix (l := s) (· = ' ')
  unfold strtokR at h ⊢
  dsimp only at h ⊢
  generalize s.dropWhile (· = ' ') = d at h hsuf ⊢
  have hsplit := congrArg List.length (List.takeWhile_append_dropWhile (p := (· ≠ ' ')) (l := d))
  rw [List.length_append] at hsplit
  split at h
  · cases h
  · rename_i hne
    cases h
    have hdrop : ∀ c ∈ (d.dropWhile (· ≠ ' ')).drop 1, c ∈ d := fun c hc =>
      (List.dropWhile_suffix _).subset (List.mem_of_mem_drop hc)
    refine ⟨fun hnil => hne hnil, ?_, fun c hc => hsuf.subset ?_, fun c hc => hsuf.subset ?_⟩
    · have := hsuf.length_le
      rw [List.length_drop]
      omega
    · exact (List.takeWhile_prefix _).subset hc
    · exact hdrop c hc

/-- what is left behind a token comes from the line, token or not -/
theorem strtokR_rest (s : CStr) :
    (strtokR s).2.length ≤ s.length ∧ ∀ c ∈ (strtokR s).2, c ∈ s := by
  cases ht : (strtokR s).1 with
  | none => simp [strtokR_none ht]
  | some t =>
    obtain ⟨-, hlen, -, hmem⟩ := strtokR_some ht
    exact ⟨by omega, hmem⟩

theorem keyToken_some {line key : CStr} (hl : IsLine line) (h : keyToken line = some key) :
    key ≠ [] ∧ ∀ c ∈ key, c ≠ '\x00' := by
  obtain ⟨hne, -, hmem, -⟩ := strtokR_some h
  exact ⟨hne, fun c hc => hl.nulFree c ((strtokR_rest _).2 c (hmem c hc))⟩

theorem valueToken_some {line value : CStr} (hl : IsLine line) (h : valueToken line = some value) :
    value ≠ [] ∧ ∀ c ∈ value, c ≠ '\x00' := by
  obtain ⟨hne, -, hmem, -⟩ := strtokR_some h
  exact ⟨hne, fun c hc =>
    hl.nulFree c ((strtokR_rest _).2 c ((strtokR_rest _).2 c (hmem c hc)))⟩

/-- two tokens of one line are never too long for a record -/
theorem tokens_size {line key value : CStr} (hl : IsLine line) (hk : keyToken line = some key)
    (hv : valueToken line = some value) : key.length + value.length ≤ 427 := by
  have h1 := (strtokR_rest line).1
  have h2 := (strtokR_some hk).2.1
  have h3 := (strtokR_some hv).2.1
  have := hl.size
  rw [maxEntrySize_eq] at this
  omega

/-- the word that `sscanf` leaves in `value` -/
theorem sscanfTag_value {buffer value : CStr} (searchTag : AbdTag)
    (hb : ∀ c ∈ buffer, c ≠ '\x00') (hv : value ≠ [] ∧ ∀ c ∈ value, c ≠ '\x00') :
    (sscanfTag buffer value searchTag).1 ≠ [] ∧
      ∀ c ∈ (sscanfTag buffer value searchTag).1, c ≠ '\x00' := by
  cases hw : scanWord buffer with
  | none =>
    have e : (sscanfTag buffer value searchTag).1 = value := by simp [sscanfTag, hw]
    rw [e]
    exact hv
  | some p =>
    obtain ⟨w, r⟩ := p
    have e : (sscanfTag buffer value searchTag).1 = w := by
      simp only [sscanfTag, hw]
      split
      · rfl
      · split <;> rfl
    rw [e]
    refine ⟨(scanWord_mem hw).1, fun c hc => hb c ?_⟩
    unfold scanWord at hw
    dsimp only at hw
    split at hw
    · cases hw
    · cases hw
      exact (List.dropWhile_suffix _).subset ((List.takeWhile_prefix _).subset hc)

theorem fmtTag_ne_nul {value : CStr} (hv : ∀ c ∈ value, c ≠ '\x00') (tag : AbdTag) :
    ∀ c ∈ fmtTag value tag, c ≠ '\x00' := by
  intro c hc
  simp only [fmtTag, List.mem_append, List.mem_cons] at hc
  rcases hc with hc | rfl | hc | rfl | hc
  · exact hv c hc
  · decide
  · exact fmtInt_ne_nul _ c hc
  · decide
  · exact fmtInt_ne_nul _ c hc

theorem newValue_ne {value : CStr} (hv : value ≠ [] ∧ ∀ c ∈ value, c ≠ '\x00') (tag : AbdTag) :
    newValue value tag ≠ [] ∧ ∀ c ∈ newValue value tag, c ≠ '\x00' := by
  constructor
  · obtain ⟨c, w, rfl⟩ := List.exists_cons_of_ne_nil hv.1
    simp [newValue, fmtTag, maxValueSize, maxTagSize]
  · intro c hc
    rcases List.mem_append.mp (List.mem_of_mem_take hc) with hc | hc
    · exact fmtTag_ne_nul hv.2 tag c hc
    · rw [List.mem_singleton.mp hc]
      decide

theorem invalidDelete_ne :
    "invalid_delete".toList ≠ [] ∧ ∀ c ∈ "invalid_delete".toList, c ≠ '\x00' :=
  ⟨by decide, fun _ hc => ne_of_mem_of_not_mem hc (by decide)⟩

theorem Populated.stored {e : Entry} (h : Populated e) : Stored e := by
  induction h with
  | write lent hl hk hv => exact ⟨keyToken_some hl hk, valueToken_some hl hv, Or.inl rfl⟩
  | remove hl hk => exact ⟨keyToken_some hl hk, invalidDelete_ne, Or.inr rfl⟩
  | mark h ih => exact ⟨ih.key, ih.value, Or.inr rfl⟩
  | abd lent searchBuffer tag searchTag hl hk hv hb =>
    have hword := sscanfTag_value searchTag hb (valueToken_some hl hv)
    exact ⟨keyToken_some hl hk, newValue_ne hword tag, Or.inl rfl⟩

/-- **Which entries read back from c1**: exactly those with no white space in key or value and a
record that is not cut before the flag. -/
theorem record_reads_back_iff {e : Entry} (h : Populated e) :
    ReadsBack e ↔ (∀ c ∈ e.key, isspace c = false) ∧ (∀ c ∈ e.value.chars, isspace c = false) ∧
      e.key.length + e.value.chars.length ≤ 427 := by
  rw [reads_back_iff h.stored]
  exact ⟨fun hc => ⟨hc.key, hc.value, hc.size⟩, fun hc => ⟨hc.1, hc.2.1, hc.2.2⟩⟩

/-- outside ABD mode white space is all that can be in the way -/
theorem write_reads_back_iff {line key value : CStr} (lent : Bool) (hl : IsLine line)
    (hk : keyToken line = some key) (hv : valueToken line = some value) :
    ReadsBack ⟨key, ⟨value, lent⟩, 0⟩ ↔
      (∀ c ∈ key, isspace c = false) ∧ ∀ c ∈ value, isspace c = false := by
  rw [reads_back_iff (Populated.write lent hl hk hv).stored]
  exact ⟨fun hc => ⟨hc.key, hc.value⟩, fun hc => ⟨hc.1, hc.2, tokens_size hl hk hv⟩⟩

def taggedLine : CStr := "PUT k v 5 1".toList

/-- what an ABD PUT of that line stores over `"v"` -/
def taggedEntry : Entry := ⟨['k'], ⟨newValue ['v'] ⟨5, 1⟩, true⟩, 0⟩

theorem isLine_taggedLine : IsLine taggedLine :=
  ⟨by decide, fun _ hc => ne_of_mem_of_not_mem hc (by decide)⟩

theorem keyToken_taggedLine : keyToken taggedLine = some ['k'] := by decide

theorem valueToken_taggedLine : valueToken taggedLine = some ['v'] := by decide

theorem record_reads_back_plain : ReadsBack ⟨['k'], ⟨['v'], true⟩, 0⟩ :=
  (record_reads_back_iff
    (.write true isLine_taggedLine keyToken_taggedLine valueToken_taggedLine)).mpr
    ⟨List.forall_mem_singleton.mpr (by decide), List.forall_mem_singleton.mpr (by decide),
      by decide⟩

/-- **The timestamp of an ABD value is read as the flag.** -/
theorem tagged_record_lost : Populated taggedEntry ∧ ¬ ReadsBack taggedEntry ∧
    sscanf (keyval taggedEntry) = (some ['k'], some ['v'], some 5) :=
  ⟨.abd true ['v'] ⟨5, 1⟩ ⟨0, 0⟩ isLine_taggedLine keyToken_taggedLine valueToken_taggedLine
    (List.forall_mem_singleton.mpr (by decide)), by decide +kernel, by decide +kernel⟩

end LsmKv
