import LsmKv.Abd.Handler
import LsmKv.Journal.Coverage

/-!
# Recovery of an ABD server

The live server compares tags and stores tagged strings; `recover` hands the bare value of every
logged line to `server_1_put_request` and frees the line afterwards.

* `putLine`              the line `PUT k v ts cid`;
* `TaggedStart`          a server that holds tagged values, and their lines in its log;
* `handleAll`            tagged PUTs handled one at a time;
* `HoldsTagged`          the entry of a key is read as this value with this tag;
* `ReplayIsLive`         recovery finds what was stored, and refused requests leave no trace;
* `replay_is_live_iff`   it does so for no key.
-/

namespace LsmKv

/-- `PUT k v ts cid` -/
def putLine (key value : CStr) (tag : AbdTag) : CStr :=
  "PUT".toList ++ ' ' :: (key ++ ' ' :: fmtTag value tag)

/-- one request as it reaches `server_handler`; `searchTag` is what the uninitialised variable
holds -/
structure TaggedPut where
  txid : Int
  key : CStr
  value : CStr
  tag : AbdTag
  searchTag : AbdTag
  deriving DecidableEq, Repr

def TaggedPut.line (r : TaggedPut) : CStr := putLine r.key r.value r.tag

/-- the requests of the server, all of them served -/
def handleAll (s : Store) (rs : List TaggedPut) : Option Store :=
  rs.foldlM (fun s r => (serverHandler s r.txid r.searchTag r.line).map Prod.snd) s

/-- `_T` holds the value and the tag of each key, and the log holds its line and nothing else -/
structure TaggedStart (s : Store) (held : List (CStr × CStr × AbdTag)) : Prop where
  nodup : (held.map Prod.fst).Nodup
  words : ∀ h ∈ held, Word h.1 ∧ Word h.2.1
  bst : s.T.Bst
  node : ∀ h ∈ held, ∃ e, s.T.find h.1 = some e ∧ e.value.chars = fmtTag h.2.1 h.2.2
  logged : ∃ txs, s.txLog = some txs ∧ (∀ tx ∈ txs, tx.valid = 1) ∧
    txs.map Transaction.data = held.map fun h => putLine h.1 h.2.1 h.2.2

/-- the requests are for these keys -/
def OnKeys (held : List (CStr × CStr × AbdTag)) (rs : List TaggedPut) : Prop :=
  ∀ r ∈ rs, r.key ∈ held.map Prod.fst ∧ Word r.value

/-- the entry of `k` is read as `v` with the tag `t`; `read` is what its value pointer gives -/
def HoldsTagged (read : CPtr → Option CStr) (T : C0Node) (k v : CStr) (t : AbdTag) : Prop :=
  ∃ e chars, T.find k = some e ∧ read e.value = some chars ∧ Tagged chars v t

/-- `recover` after a crash leaves the value and the tag that were stored.  The live server never
frees the strings it stores, `recover` frees `db.data`. -/
def RecoveredSame (s : Store) (k : CStr) : Prop :=
  ∃ rc r, recover (crash s) = some (rc, r) ∧ ∃ v t,
    HoldsTagged (fun p => some p.chars) s.T k v t ∧ HoldsTagged CPtr.read r.T k v t

/-- the tag of the request is not above the one that the search finds -/
def Refused (s : Store) (r : TaggedPut) : Prop :=
  ∃ x v t, server1GetRequest s r.key = some x ∧ Tagged x.2.1 v t ∧ ¬ t < r.tag

def recoveredRow (s : Store) (k : CStr) : Option (Option (Option CStr × Int)) :=
  (recover (crash s)).map fun x => tableOf x.2.T k

structure ReplayIsLive (s0 : Store) (held : List (CStr × CStr × AbdTag)) (rs : List TaggedPut)
    (s : Store) : Prop where
  stored : ∀ h ∈ held, RecoveredSame s h.1
  refused : ∀ as r bs s1 s', rs = as ++ r :: bs → handleAll s0 as = some s1 → Refused s1 r →
    handleAll s0 (as ++ bs) = some s' → ∀ h ∈ held, recoveredRow s h.1 = recoveredRow s' h.1

/-! ## lines -/

/-- `recover` sees the key and the value of the line, and no tag -/
theorem command_putLine {key value : CStr} (hk : Word key) (hv : Word value) (tag : AbdTag) :
    command (putLine key value tag) = .put key (some value) := by
  have h1 := strtokR_append (w := "PUT".toList) (by decide) (by simp)
    (key ++ ' ' :: fmtTag value tag)
  have h2 := strtokR_append hk.1 (ne_space_of_word fun c hc => (hk.2 c hc).1) (fmtTag value tag)
  have h3 := strtokR_append hv.1 (ne_space_of_word fun c hc => (hv.2 c hc).1)
    (fmtInt tag.timestamp.toInt ++ ' ' :: fmtInt tag.clientId.toInt)
  unfold command putLine
  simp only [h1, h2]
  rw [fmtTag, h3]
  rfl

/-- a bare value has no tag -/
theorem not_tagged_word {w : CStr} (hw : Word w) (v : CStr) (t : AbdTag) : ¬ Tagged w v t := by
  intro h
  have hs : scanWord w = some (w, []) := by
    have := scanWord_append hw (r := []) (by simp [Stops])
    rwa [List.append_nil] at this
  have hread : ∀ tag, sscanfTag w [] tag = (w, tag) := fun tag => by
    simp only [sscanfTag, hs]
    rfl
  have h1 := (hread ⟨0, 0⟩).symm.trans (h [] ⟨0, 0⟩)
  have h2 := (hread ⟨1, 1⟩).symm.trans (h [] ⟨1, 1⟩)
  have h3 : (⟨0, 0⟩ : AbdTag) = ⟨1, 1⟩ := (Prod.mk.inj h1).2.trans (Prod.mk.inj h2).2.symm
  exact absurd h3 (by decide)

/-! ## the log of the live server -/

/-- every entry of the log is the line of a tagged PUT -/
def PutLog (s : Store) : Prop := ∀ tx ∈ s.txLog.getD [],
  tx.valid = 1 ∧ ∃ k v t, Word k ∧ Word v ∧ tx.data = putLine k v t

theorem PutLog.start {s : Store} {held : List (CStr × CStr × AbdTag)} (h : TaggedStart s held) :
    PutLog s := by
  obtain ⟨txs, htx, hvalid, hdata⟩ := h.logged
  intro tx hm
  rw [htx] at hm
  refine ⟨hvalid tx hm, ?_⟩
  have hd : tx.data ∈ held.map fun h => putLine h.1 h.2.1 h.2.2 :=
    hdata ▸ List.mem_map_of_mem hm
  obtain ⟨x, hx, he⟩ := List.mem_map.mp hd
  exact ⟨x.1, x.2.1, x.2.2, (h.words x hx).1, (h.words x hx).2, he.symm⟩

/-- a PUT leaves the log, or removes it with a flush -/
theorem put_txLog {s : Store} {key value : CStr} {x : Reply}
    (h : server1PutRequest s key value = some x) :
    x.2.2.txLog = s.txLog ∨ x.2.2.txLog = none := by
  cases hB : fullBatch s (.put key value) with
  | none => exact Or.inl (serve_unbatched (q := .put key value) h hB).2
  | some nodes =>
    obtain ⟨r, -, -, -, hlog⟩ := serve_batched (q := .put key value) h hB
    rw [hlog]
    split_ifs
    · exact Or.inr rfl
    · exact Or.inl rfl

/-- a handled PUT logs its line, and no other -/
theorem PutLog.handle {s : Store} (h : PutLog s) {r : TaggedPut} (hk : Word r.key)
    (hv : Word r.value) {x : CStr × Store}
    (hx : serverHandler s r.txid r.searchTag r.line = some x) : PutLog x.2 := by
  have hlogged : PutLog (logTransaction s r.txid r.line) := by
    intro tx hm
    rcases List.mem_append.mp hm with hm | hm
    · exact h tx hm
    · rw [List.mem_singleton.mp hm]
      exact ⟨rfl, r.key, r.value, r.tag, hk, hv, rfl⟩
  have hframe : ∀ {y : Store}, y.txLog = (logTransaction s r.txid r.line).txLog ∨ y.txLog = none →
      PutLog y := by
    rintro y (hy | hy)
    · unfold PutLog
      rw [hy]
      exact hlogged
    · unfold PutLog
      rw [hy]
      simp
  have h1 := strtokR_append (w := "PUT".toList) (by decide) (by simp)
    (r.key ++ ' ' :: fmtTag r.value r.tag)
  unfold serverHandler at hx
  simp only [TaggedPut.line, putLine, h1] at hx
  split at hx
  · rename_i tokens key value tag clientId ht _ _ _ _
    cases ht
    rw [if_neg (by decide), if_pos (by rfl)] at hx
    obtain ⟨y, hy, hx⟩ := Option.bind_eq_some_iff.mp hx
    cases hx
    unfold server1PutRequestAbd at hy
    obtain ⟨z, hz, hy⟩ := Option.bind_eq_some_iff.mp hy
    have hget : z.2.2.txLog = (logTransaction s r.txid r.line).txLog :=
      (serve_unbatched (q := .get key) hz rfl).2
    refine hframe ?_
    dsimp only at hy
    split_ifs at hy
    · rw [← hget]
      exact put_txLog hy
    · cases hy
      exact Or.inl hget
  · cases hx

theorem PutLog.handleAll {s0 s : Store} {held : List (CStr × CStr × AbdTag)}
    (h0 : TaggedStart s0 held) {rs : List TaggedPut} (hrs : OnKeys held rs)
    (h : handleAll s0 rs = some s) : PutLog s := by
  induction rs using List.reverseRecOn generalizing s with
  | nil =>
    cases h
    exact .start h0
  | append_singleton rs r ih =>
    unfold LsmKv.handleAll at h
    rw [List.foldlM_append] at h
    obtain ⟨s1, h1, h2⟩ := Option.bind_eq_some_iff.mp h
    obtain ⟨s2, h2, h3⟩ := Option.bind_eq_some_iff.mp h2
    cases h3
    obtain ⟨x, hx, rfl⟩ := Option.map_eq_some_iff.mp h2
    obtain ⟨hkey, hv⟩ := hrs r (by simp)
    obtain ⟨y, hy, he⟩ := List.mem_map.mp hkey
    have hk : Word r.key := he ▸ (h0.words y hy).1
    exact (ih (fun r' hr => hrs r' (List.mem_append_left _ hr)) h1).handle hk hv hx

/-! ## what replay leaves -/

/-- the values of the tree are bare words -/
structure Bare (s : Store) : Prop where
  bst : s.T.Bst
  word : ∀ k e, s.T.find k = some e → Word e.value.chars

theorem Bare.of_null {s : Store} (h : s.T = .null) : Bare s :=
  ⟨h ▸ C0Node.bst_null, fun k e he => by rw [h] at he; cases he⟩

theorem Bare.insertC0 {s s' : Store} (h : Bare s) {key value : CStr} (hv : Word value)
    (hs : insertC0 s key value = some s') : Bare s' := by
  rcases insertC0_cases hs with ⟨-, rfl⟩ | ⟨-, hd⟩
  · refine ⟨h.bst.insert _ _ _, fun k e he => ?_⟩
    rw [C0Node.find_insert h.bst] at he
    split_ifs at he with hk
    · rcases Option.or_eq_some_iff.mp he with hf | ⟨-, hf⟩
      · exact h.word k e hf
      · cases hf
        exact hv
    · exact h.word k e he
  · exact .of_null (c0Dump_frame hd).2

theorem Bare.put {s : Store} (h : Bare s) {key value : CStr} (hv : Word value) {x : Reply}
    (hx : server1PutRequest s key value = some x) : Bare x.2.2 := by
  obtain ⟨s1, cache, h1, -, rfl⟩ := put_eq hx
  suffices hs : Bare s1 from ⟨hs.bst, hs.word⟩
  cases hg : s.T.get key with
  | none =>
    rw [putC0_insert hg] at h1
    exact h.insertC0 hv h1
  | some e =>
    rw [putC0_root hg] at h1
    cases h1
    refine ⟨h.bst.update hg _ _, fun k e he => ?_⟩
    rw [C0Node.find_update h.bst hg] at he
    split_ifs at he with hk
    · cases he
      exact hv
    · exact h.word k e he

/-- one entry of such a log -/
theorem Bare.replay {s s' : Store} (h : Bare s) {tx : Transaction} {k v : CStr} {t : AbdTag}
    (hvalid : tx.valid = 1) (hk : Word k) (hv : Word v) (hd : tx.data = putLine k v t)
    (hr : replayEntry s tx = some s') : Bare s' := by
  have hw : (command tx.data).write = some (.put k v) := by rw [hd, command_putLine hk hv]; rfl
  rw [replay_write (by rw [hvalid]; decide) hw] at hr
  obtain ⟨x, hx, rfl⟩ := Option.map_eq_some_iff.mp hr
  exact h.put hv hx

theorem Bare.replayAll {txs : List Transaction} {s s' : Store} (h : Bare s)
    (hlog : ∀ tx ∈ txs, tx.valid = 1 ∧ ∃ k v t, Word k ∧ Word v ∧ tx.data = putLine k v t)
    (hr : txs.foldlM replayEntry s = some s') : Bare s' := by
  induction txs generalizing s with
  | nil => exact Option.some.inj hr ▸ h
  | cons tx txs ih =>
    obtain ⟨s1, h1, h2⟩ := Option.bind_eq_some_iff.mp hr
    obtain ⟨hvalid, k, v, t, hk, hv, hd⟩ := hlog tx (by simp)
    exact ih (h.replay hvalid hk hv hd h1) (fun tx' hm => hlog tx' (List.mem_cons_of_mem _ hm)) h2

theorem Bare.recover {s r : Store} {rc : Int} (hlog : PutLog s)
    (hr : recover (crash s) = some (rc, r)) : Bare r := by
  have h0 : Bare (crash s) := .of_null rfl
  unfold LsmKv.recover at hr
  cases htx : (crash s).txLog with
  | none =>
    rw [htx] at hr
    cases hr
    exact h0
  | some txs =>
    rw [htx] at hr
    obtain ⟨s1, h1, h2⟩ := Option.bind_eq_some_iff.mp hr
    cases h2
    have htxs : s.txLog = some txs := htx
    have hb := h0.replayAll (fun tx hm => hlog tx (by rw [htxs]; exact hm)) h1
    exact ⟨hb.bst, hb.word⟩

/-- **No tag survives a recovery.** -/
theorem not_recoveredSame {s : Store} (h : PutLog s) (k : CStr) : ¬ RecoveredSame s k := by
  rintro ⟨rc, r, hr, v, t, -, e, chars, he, hread, ht⟩
  rw [CPtr.read] at hread
  split_ifs at hread
  cases hread
  exact not_tagged_word ((Bare.recover h hr).word k e he) v t ht

/-- **Replay equals live execution for no set of keys but the empty one.** -/
theorem replay_is_live_iff (s0 s : Store) (held : List (CStr × CStr × AbdTag))
    (rs : List TaggedPut) (h0 : TaggedStart s0 held) (hrs : OnKeys held rs)
    (h : handleAll s0 rs = some s) : ReplayIsLive s0 held rs s ↔ held = [] := by
  constructor
  · intro hl
    cases held with
    | nil => rfl
    | cons x held =>
      exact absurd (hl.stored x (by simp)) (not_recoveredSame (.handleAll h0 hrs h) x.1)
  · rintro rfl
    exact ⟨fun x hx => by simp at hx, fun _ _ _ _ _ _ _ _ _ x hx => by simp at hx⟩

/-! ## two keys -/

def keyJ : CStr := ['j']

def keyK : CStr := ['k']

/-- `j` holds `x` with the tag 2, 1 and `k` holds `a` with the tag 5, 1 -/
def heldJK : List (CStr × CStr × AbdTag) := [(keyJ, ['x'], ⟨2, 1⟩), (keyK, ['a'], ⟨5, 1⟩)]

/-- `j` is at the root, `k` below it and in the cache -/
def startJK : Store := { Store.empty with
  cache := (cachePut Store.empty.cache keyK (fmtTag ['a'] ⟨5, 1⟩)).getD Store.empty.cache
  T := (C0Node.null.insert keyJ (fmtTag ['x'] ⟨2, 1⟩) 0).insert keyK (fmtTag ['a'] ⟨5, 1⟩) 0
  txLog := some [⟨6, putLine keyJ ['x'] ⟨2, 1⟩, 1, 1⟩, ⟨7, putLine keyK ['a'] ⟨5, 1⟩, 1, 1⟩] }

/-- a PUT of `b` with the tag 3, 1, which is refused -/
def lateB : TaggedPut := ⟨8, keyK, ['b'], ⟨3, 1⟩, ⟨0, 0⟩⟩

theorem taggedStart_startJK : TaggedStart startJK heldJK where
  nodup := by decide
  words := by decide +kernel
  bst := (C0Node.bst_null.insert keyJ (fmtTag ['x'] ⟨2, 1⟩) 0).insert keyK (fmtTag ['a'] ⟨5, 1⟩) 0
  node h hm := by
    rcases List.mem_cons.mp hm with rfl | hm
    · exact ⟨_, rfl, rfl⟩
    · rw [List.mem_singleton.mp hm]
      exact ⟨_, rfl, rfl⟩
  logged := ⟨_, rfl, by decide, rfl⟩

theorem onKeys_lateB : OnKeys heldJK [lateB] := by
  intro r hr
  rw [List.mem_singleton.mp hr]
  exact ⟨by decide, by decide +kernel⟩

theorem replay_lateB : ∃ s, handleAll startJK [lateB] = some s ∧
    (ReplayIsLive startJK heldJK [lateB] s ↔ heldJK = []) :=
  ⟨_, rfl, replay_is_live_iff startJK _ heldJK [lateB] taggedStart_startJK onKeys_lateB rfl⟩

/-- **The tag is lost**: the live server holds `a 5 1`, the recovered one `a`. -/
theorem tag_lost : ∃ s r, handleAll startJK [lateB] = some s ∧
    recover (crash s) = some (0, r) ∧
    s.T.find keyK = some ⟨keyK, ⟨"a 5 1".toList, false⟩, 0⟩ ∧
    r.T.find keyK = some ⟨keyK, ⟨"a".toList, false⟩, 0⟩ ∧
    ¬ ReplayIsLive startJK heldJK [lateB] s := by
  refine ⟨_, _, rfl, rfl, by decide, by decide, fun h => ?_⟩
  exact not_recoveredSame (.handleAll taggedStart_startJK onKeys_lateB rfl) keyK
    (h.stored (keyK, ['a'], ⟨5, 1⟩) (by simp [heldJK]))

end LsmKv
