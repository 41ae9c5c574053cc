import LsmKv.Lock.Deferral

/-!
# Ids and slots (`blocking_node.c`)

When the entries of `requests[]` are right, and what goes wrong otherwise.

* `EntriesKept.entryOk_needed`   a step that is not fine leads to a reply deferred or sent wrongly;
* `ids_of_tracks`       so does, in runs of fine steps only, an id that is not its slot;
* `fillPeers_connect`   peers fill the slots in the order in which they connect;
* `some_id_no_slot`     so some node of every deployment has a peer whose id is not its slot;
* `deferral_iff`        replies are deferred right in all runs of fine steps exactly if every id is
                        its slot.
-/

set_option linter.unusedSectionVars false

namespace LsmKv

open Run

variable {τ : Type} [DecidableEq τ]

/-- a request of a peer -/
def peerRequest (peerNodeId timestamp : ℕ) : PeerMessage :=
  lockMessage .requestLock peerNodeId timestamp

/-! ## steps that are not fine -/

section needed
variable {nodeId : ℕ} {peers : PeerArray} {s s' : PeerRun τ}

/-- how a request of the peer in a slot that is its id is handled as claimed -/
theorem tracks_request {i : Fin maxPeers} (hpeer : peers i = some i.val) {ts : ℕ}
    (hts : ts < 2 ^ 32) (h : Tracks nodeId peers s (.deliver i (peerRequest i ts)))
    {e : RequestedLockMetadata} {l : List ℕ} (he : s.node.requests i = e)
    (hl : s.unanswered i = l) :
    (e.requestedLock = true ∧ e.timestampLastReq < ts) ↔ ∃ x ∈ l, x < ts := by
  subst he hl
  have hread := (h i hpeer hts).2 rfl
  rw [defersReply_iff rfl i.isLt] at hread
  exact hread

/-- a reply is always processed -/
theorem handle_reply_defined (nodeId : ℕ) (n : LockNode (Fin maxPeers) τ) (i : Fin maxPeers)
    {m : PeerMessage} (hty : m.messageType = .replyLock) :
    ∃ r, n.handlePeerMessage nodeId m i i.val = some r := by
  unfold LockNode.handlePeerMessage
  simp only [hty]
  rw [dif_pos i.isLt]
  exact ⟨_, rfl⟩

theorem step_reply (nodeId : ℕ) (s : PeerRun τ) (i : Fin maxPeers) (hpeer : peers i = some i.val)
    {m : PeerMessage} (hty : m.messageType = .replyLock) (hts : m.timestamp < 2 ^ 32) :
    ∃ s', nodeStep nodeId peers s (.deliver i m) = some s' ∧
      (s'.node.requests i).requestedLock = false ∧ s'.unanswered i = (s.unanswered i).tail ∧
      s'.node.threads = s.node.threads := by
  obtain ⟨r, hr⟩ := handle_reply_defined nodeId s.node i hty
  obtain ⟨hthreads, -, -, hreq⟩ := requests_handle hr
  obtain ⟨hlt, hreq⟩ := hreq hty
  refine ⟨⟨r.1, Function.update s.unanswered i (s.unanswered i).tail⟩, ?_, ?_, ?_, hthreads⟩
  · show (if m.timestamp < 2 ^ 32 then _ else none) = _
    rw [if_pos hts, hpeer, Option.bind_some, hr, if_pos hty]
    rfl
  · rw [hreq, Function.update_self]
  · exact Function.update_self ..

/-- a slot that a thread still asks has a peer, with the slot for its id -/
theorem EntriesKept.peer (h : EntriesKept nodeId peers s)
    (hids : ∀ i peerNodeId, peers i = some peerNodeId → peerNodeId = i) {t : τ} {i : Fin maxPeers}
    (hi : (i, i) ∈ (s.node.threads t).unmarked) : peers i = some i.val := by
  obtain ⟨-, hvalid⟩ := mem_slotPeers.mp (h.bySlot t _ hi)
  obtain ⟨id, hid⟩ := Option.isSome_iff_exists.mp hvalid
  rw [hid, hids i id hid]

/-- A second request to a peer: of the two requests the entry keeps none once the first is
answered. -/
theorem EntriesKept.send_needed (h : EntriesKept nodeId peers s) {t : τ} {msg : PqueueData}
    {i : Fin maxPeers} {rest : List (Fin maxPeers × Fin maxPeers)}
    (hp : s.node.threads t = .sending msg ((i, i) :: rest)) (hpeer : peers i = some i.val)
    (hne : s.unanswered i ≠ []) (hlim : msg.message.timestamp + 1 < 2 ^ 32)
    (hs : nodeStep nodeId peers s (.advance t) = some ⟨s.node.setThread t (.marking msg i rest),
      fun k => s.unanswered k ++ requestsTo k [(i, msg.message)]⟩) :
    ∃ bs, ¬ Guarded (nodeStep nodeId peers) (Tracks nodeId peers) s (.advance t :: bs) := by
  have htype : msg.message.messageType = .requestLock := by
    have hof := h.ofNode t
    rw [hp] at hof
    exact hof.1
  have hentry : s.unanswered i = (s.node.requests i).entries :=
    h.entries (t := t) (by rw [hp]; rfl) (by rw [hp]; rfl)
  obtain ⟨ts, hold⟩ : ∃ ts, s.unanswered i = [ts] := by
    rw [hentry] at hne ⊢
    cases hflag : (s.node.requests i).requestedLock with
    | false => exact absurd (RequestedLockMetadata.entries_eq_nil.mpr hflag) hne
    | true => exact ⟨_, if_pos hflag⟩
  obtain ⟨s2, h2, hflag, hun, -⟩ := step_reply nodeId
    ⟨s.node.setThread t (.marking msg i rest),
      fun k => s.unanswered k ++ requestsTo k [(i, msg.message)]⟩ i hpeer
    (m := lockMessage .replyLock i 0) rfl (by show 0 < 2 ^ 32; decide)
  refine ⟨[.deliver i (lockMessage .replyLock i 0),
    .deliver i (peerRequest i (msg.message.timestamp + 1))], fun hg => ?_⟩
  have htracks := ((hg.2 _ hs).2 s2 h2).1
  have hun' : s2.unanswered i = [msg.message.timestamp] := by
    rw [hun]
    show (s.unanswered i ++ requestsTo i [(i, msg.message)]).tail = _
    rw [hold, requestsTo_request htype, if_pos rfl]
    rfl
  have hiff := tracks_request hpeer hlim htracks rfl hun'
  rw [hflag] at hiff
  cases (hiff.mpr ⟨_, List.mem_singleton_self _, Nat.lt_succ_self _⟩).1

/-- The clock has gone on: the entry has another timestamp than the request. -/
theorem EntriesKept.mark_needed (h : EntriesKept nodeId peers s) {t : τ} {msg : PqueueData}
    {i : Fin maxPeers} {rest : List (Fin maxPeers × Fin maxPeers)}
    (hp : s.node.threads t = .marking msg i rest) (hpeer : peers i = some i.val)
    (hne : s.node.timestamp ≠ msg.message.timestamp) (hclock : s.node.timestamp + 1 < 2 ^ 32)
    (hlim : msg.message.timestamp + 1 < 2 ^ 32)
    (hs : nodeStep nodeId peers s (.advance t) =
      some ⟨{ s.node.setThread t (.sending msg rest) with
          requests := Function.update s.node.requests i ⟨true, s.node.timestamp⟩ },
        fun k => s.unanswered k ++ requestsTo k []⟩) :
    ∃ bs, ¬ Guarded (nodeStep nodeId peers) (Tracks nodeId peers) s (.advance t :: bs) := by
  have hmarks : (s.node.threads t).marks i = some msg := by rw [hp]; exact if_pos rfl
  have hold := (h.marking hmarks).2
  refine ⟨[.deliver i (peerRequest i (max s.node.timestamp msg.message.timestamp))],
    fun hg => ?_⟩
  have hiff := tracks_request hpeer (by omega) (hg.2 _ hs).1 (Function.update_self ..)
    (show s.unanswered i ++ [] = [msg.message.timestamp] by rw [List.append_nil, hold])
  simp only [true_and, List.mem_singleton, exists_eq_left] at hiff
  omega

/-- The reply is processed before the slot is marked: the entry is marked after its request has
been answered. -/
theorem EntriesKept.reply_needed (h : EntriesKept nodeId peers s) {t : τ} {msg : PqueueData}
    {i : Fin maxPeers} {rest : List (Fin maxPeers × Fin maxPeers)}
    (hp : s.node.threads t = .marking msg i rest) (hpeer : peers i = some i.val)
    {m : PeerMessage} (hty : m.messageType = .replyLock) (hts : m.timestamp < 2 ^ 32)
    (hs : nodeStep nodeId peers s (.deliver i m) = some s')
    (hclock : s'.node.timestamp + 1 < 2 ^ 32) :
    ∃ bs, ¬ Guarded (nodeStep nodeId peers) (Tracks nodeId peers) s (.deliver i m :: bs) := by
  have hmarks : (s.node.threads t).marks i = some msg := by rw [hp]; exact if_pos rfl
  obtain ⟨-, hold⟩ := h.marking hmarks
  obtain ⟨s1, h1, -, hun, hthreads⟩ := step_reply nodeId s i hpeer hty hts
  obtain rfl : s' = s1 := Option.some.inj (hs.symm.trans h1)
  have hp' : s'.node.threads t = .marking msg i rest := by rw [hthreads, hp]
  have h2 : nodeStep nodeId peers s' (.advance t)
      = some ⟨{ s'.node.setThread t (.sending msg rest) with
          requests := Function.update s'.node.requests i ⟨true, s'.node.timestamp⟩ },
        fun k => s'.unanswered k ++ requestsTo k []⟩ := by
    show (s'.node.advance nodeId _ t).map _ = _
    unfold LockNode.advance
    rw [hp']
    rfl
  refine ⟨[.advance t, .deliver i (peerRequest i (s'.node.timestamp + 1))], fun hg => ?_⟩
  have htracks := ((hg.2 _ hs).2 _ h2).1
  have hun' : s'.unanswered i ++ [] = [] := by
    rw [List.append_nil, hun, hold]
    rfl
  have hiff := tracks_request hpeer hclock htracks (Function.update_self ..) hun'
  obtain ⟨x, hx, -⟩ := hiff.mp ⟨rfl, Nat.lt_succ_self _⟩
  cases hx

/-- A later request of the peer is handled before the slot is marked: the entry is read too
early. -/
theorem EntriesKept.request_needed (h : EntriesKept nodeId peers s) {t : τ} {msg : PqueueData}
    {i : Fin maxPeers} (hmarks : (s.node.threads t).marks i = some msg)
    (hpeer : peers i = some i.val) {m : PeerMessage} (hty : m.messageType = .requestLock)
    (hts : m.timestamp < 2 ^ 32) (hlt : msg.message.timestamp < m.timestamp) :
    ¬ Tracks nodeId peers s (.deliver i m) := by
  intro htracks
  obtain ⟨hflag, hold⟩ := h.marking hmarks
  have hiff := (htracks i hpeer hts).2 hty
  rw [defersReply_iff hty i.isLt, hflag, hold] at hiff
  cases (hiff.mpr ⟨_, List.mem_singleton_self _, hlt⟩).1

/-- a message that comes at the wrong time: what has happened -/
theorem not_entryOk_deliver {i : Fin maxPeers} {m : PeerMessage}
    (hbad : ¬ EntryOk s (.deliver i m)) : ∃ t msg rest,
      s.node.threads t = .marking msg i rest ∧
      (m.messageType = .replyLock ∨
        m.messageType = .requestLock ∧ msg.message.timestamp < m.timestamp) := by
  by_contra hno
  apply hbad
  intro t msg hm
  obtain ⟨rest, hp⟩ : ∃ rest, s.node.threads t = .marking msg i rest := by
    cases hp : s.node.threads t with
    | marking msg' j rest =>
      rw [hp] at hm
      obtain ⟨rfl, hmsg⟩ := Option.ite_none_right_eq_some.mp hm
      obtain rfl := Option.some.inj hmsg
      exact ⟨rest, rfl⟩
    | _ => rw [hp] at hm; cases hm
  refine ⟨fun hty => hno ⟨t, msg, rest, hp, Or.inl hty⟩, fun hty => ?_⟩
  by_contra hlt
  exact hno ⟨t, msg, rest, hp, Or.inr ⟨hty, Nat.lt_of_not_le hlt⟩⟩

/-- **Every step that is not fine leads to a reply that is deferred or sent wrongly**, if the clock
and the requests are not at the limit of `uint32_t`. -/
theorem EntriesKept.entryOk_needed (h : EntriesKept nodeId peers s)
    (hids : ∀ i peerNodeId, peers i = some peerNodeId → peerNodeId = i) {a : NodeAct τ}
    (hs : nodeStep nodeId peers s a = some s') (hbad : ¬ EntryOk s a)
    (hclock : s'.node.timestamp + 1 < 2 ^ 32)
    (hreq : ∀ t msg, (s.node.threads t).asking = some msg → msg.message.timestamp + 1 < 2 ^ 32) :
    ∃ bs, ¬ Guarded (nodeStep nodeId peers) (Tracks nodeId peers) s (a :: bs) := by
  cases a with
  | lock t => exact absurd trivial hbad
  | serve t txid line => exact absurd trivial hbad
  | advance t =>
    change ¬ (s.node.threads t).EntryOk s at hbad
    obtain ⟨r, hr, rfl⟩ := Option.map_eq_some_iff.mp hs
    cases advance_ask (h.ofNode t) hr with
    | aside ha =>
      have hwas := ha.was
      refine absurd ?_ hbad
      cases hp : s.node.threads t with
      | sending msg rest => rw [hp] at hwas; cases hwas
      | marking msg i rest => rw [hp] at hwas; cases hwas
      | _ => trivial
    | start msg hp hm hr =>
      rw [hp] at hbad
      exact absurd trivial hbad
    | leave msg hp hr =>
      rw [hp] at hbad
      exact absurd trivial hbad
    | send msg i j rest hp hr =>
      subst hr
      have hslot := h.bySlot t (i, j) (by rw [hp]; exact List.mem_cons_self ..)
      obtain rfl : i = j := (mem_slotPeers.mp hslot).1
      have hpeer := h.peer hids (t := t) (i := i) (by rw [hp]; exact List.mem_cons_self ..)
      rw [hp] at hbad
      exact h.send_needed hp hpeer hbad (hreq t msg (by rw [hp]; rfl)) hs
    | mark msg i rest hp hr =>
      subst hr
      have hpeer := h.peer hids (t := t) (i := i) (by rw [hp]; exact List.mem_cons_self ..)
      rw [hp] at hbad
      exact h.mark_needed hp hpeer hbad hclock (hreq t msg (by rw [hp]; rfl)) hs
  | deliver i m =>
    obtain ⟨hts, -⟩ := Option.ite_none_right_eq_some.mp hs
    obtain ⟨t, msg, rest, hp, hcase⟩ := not_entryOk_deliver hbad
    have hpeer := h.peer hids (t := t) (i := i) (by rw [hp]; exact List.mem_cons_self ..)
    rcases hcase with hty | ⟨hty, hlt⟩
    · exact h.reply_needed hp hpeer hty hts hs hclock
    · have hmarks : (s.node.threads t).marks i = some msg := by rw [hp]; exact if_pos rfl
      exact ⟨[], fun hg => h.request_needed hmarks hpeer hty hts hlt hg.1⟩

end needed

/-! ## an id that is not its slot -/

section wrong
variable {nodeId : ℕ} {peers : PeerArray}

/-- The first request of the node, sent to the slots `done` and marked in them. -/
structure Asked (t : τ) (msg : PqueueData) (done rest : List (Fin maxPeers)) (s : PeerRun τ) :
    Prop where
  thread : s.node.threads t = .sending msg (slotPeers rest)
  others : ∀ t', t' ≠ t → s.node.threads t' = .idle
  type : msg.message.messageType = .requestLock
  time : msg.message.timestamp = 1
  clock : s.node.timestamp = 1
  requests : ∀ j, s.node.requests j = if j ∈ done then ⟨true, 1⟩ else ⟨false, 0⟩
  unanswered : ∀ j, s.unanswered j = if j ∈ done then [1] else []

theorem Asked.marks {t : τ} {msg : PqueueData} {done rest : List (Fin maxPeers)} {s : PeerRun τ}
    (h : Asked t msg done rest s) (i : Fin maxPeers) (t' : τ) :
    (s.node.threads t').marks i = none := by
  by_cases he : t' = t
  · rw [he, h.thread]
    rfl
  · rw [h.others t' he]
    rfl

/-- one peer more -/
theorem Asked.next (nodeId : ℕ) (peers : PeerArray) {t : τ} {msg : PqueueData}
    {done rest : List (Fin maxPeers)} {s : PeerRun τ}
    {i : Fin maxPeers} (h : Asked t msg done (i :: rest) s) (hi : i ∉ done) :
    ∃ s1 s2, nodeStep nodeId peers s (.advance t) = some s1 ∧ EntryOk s (.advance t) ∧
      nodeStep nodeId peers s1 (.advance t) = some s2 ∧ EntryOk s1 (.advance t) ∧
      Asked t msg (done ++ [i]) rest s2 := by
  let n1 := s.node.setThread t (.marking msg i (slotPeers rest))
  let u1 : Fin maxPeers → List ℕ := fun k => s.unanswered k ++ requestsTo k [(i, msg.message)]
  let n2 : LockNode (Fin maxPeers) τ := { n1.setThread t (.sending msg (slotPeers rest)) with
    requests := Function.update n1.requests i ⟨true, n1.timestamp⟩ }
  have ht1 : n1.threads t = .marking msg i (slotPeers rest) := Function.update_self ..
  have h1 : s.node.advance nodeId (slotPeers (validSlots peers)) t
      = some (n1, [(i, msg.message)]) := by
    unfold LockNode.advance
    rw [h.thread]
    rfl
  have h2 : n1.advance nodeId (slotPeers (validSlots peers)) t = some (n2, []) := by
    unfold LockNode.advance
    rw [ht1]
  refine ⟨⟨n1, u1⟩, ⟨n2, fun k => u1 k ++ requestsTo k []⟩, ?_, ?_, ?_, ?_, ?_⟩
  · show (s.node.advance nodeId _ t).map _ = _
    rw [h1]
    rfl
  · show (s.node.threads t).EntryOk s
    rw [h.thread]
    show s.unanswered i = []
    rw [h.unanswered, if_neg hi]
  · show (n1.advance nodeId _ t).map _ = _
    rw [h2]
    rfl
  · show (n1.threads t).EntryOk ⟨n1, u1⟩
    rw [ht1]
    exact h.clock.trans h.time.symm
  · refine ⟨Function.update_self .., ?_, h.type, h.time, h.clock, ?_, ?_⟩
    · intro t' ht'
      show Function.update (Function.update s.node.threads t _) t _ t' = _
      rw [Function.update_of_ne ht', Function.update_of_ne ht', h.others t' ht']
    · intro j
      show Function.update s.node.requests i ⟨true, s.node.timestamp⟩ j = _
      rw [Function.update_apply, h.requests, h.clock]
      simp only [List.mem_append, List.mem_singleton]
      split_ifs <;> tauto
    · intro j
      show s.unanswered j ++ requestsTo j [(i, msg.message)] ++ [] = _
      rw [List.append_nil, h.unanswered, requestsTo_request h.type, h.time]
      by_cases hj : i = j
      · subst hj
        simp [hi]
      · simp [hj, Ne.symm hj]

/-- the steps that send a request to as many peers -/
def askActs (t : τ) (slots : List (Fin maxPeers)) : List (NodeAct τ) :=
  slots.flatMap fun _ => [.advance t, .advance t]

theorem Asked.run_slots (nodeId : ℕ) (peers : PeerArray) {t : τ} {msg : PqueueData}
    {post : List (Fin maxPeers)} (pre : List (Fin maxPeers)) :
    ∀ (done : List (Fin maxPeers)) (s : PeerRun τ),
      (done ++ pre).Nodup → Asked t msg done (pre ++ post) s →
      ∃ s', run (nodeStep nodeId peers) s (askActs t pre) = some s' ∧
        Guarded (nodeStep nodeId peers) EntryOk s (askActs t pre) ∧
        Asked t msg (done ++ pre) post s' := by
  induction pre with
  | nil =>
    intro done s _ h
    exact ⟨s, rfl, trivial, by rwa [List.append_nil]⟩
  | cons i pre ih =>
    intro done s hnd h
    have hi : i ∉ done := by
      intro hm
      exact (List.nodup_append.mp hnd).2.2 i hm i (List.mem_cons_self ..) rfl
    obtain ⟨s1, s2, h1, hok1, h2, hok2, h3⟩ := h.next nodeId peers hi
    rw [List.append_cons] at hnd
    obtain ⟨s', hrun, hg, h'⟩ := ih (done ++ [i]) s2 hnd h3
    refine ⟨s', ?_, ⟨hok1, ?_⟩, by rwa [List.append_cons]⟩
    · show run _ s (.advance t :: .advance t :: askActs t pre) = some s'
      rw [run_cons, h1, Option.bind_some, run_cons, h2]
      exact hrun
    · intro s1' hs1'
      obtain rfl : s1 = s1' := Option.some.inj (h1.symm.trans hs1')
      refine ⟨hok2, fun s2' hs2' => ?_⟩
      obtain rfl : s2 = s2' := Option.some.inj (h2.symm.trans hs2')
      exact hg

/-- the first request, up to the loop over `peers[]` -/
theorem asked_start (nodeId : ℕ) (peers : PeerArray) (t : τ) : ∃ s msg,
    run (nodeStep nodeId peers) PeerRun.init [.lock t, .advance t, .advance t] = some s ∧
      Guarded (nodeStep nodeId peers) EntryOk PeerRun.init [.lock t, .advance t, .advance t] ∧
      Asked t msg [] (validSlots peers) s := by
  let msg : PqueueData := ⟨0, lockMessage .requestLock nodeId 1⟩
  let n0 : LockNode (Fin maxPeers) τ := LockNode.init
  let n1 : LockNode (Fin maxPeers) τ :=
    { n0.stamp.setThread t (.stamped msg) with next := 1 }
  let n2 : LockNode (Fin maxPeers) τ := { n1.setThread t (.queued msg) with lockQueue := [msg] }
  let n3 : LockNode (Fin maxPeers) τ :=
    { n2.setThread t (.sending msg (slotPeers (validSlots peers))) with mMutex := some t }
  let u : Fin maxPeers → List ℕ := fun _ => []
  have ht1 : n1.threads t = .stamped msg := Function.update_self ..
  have ht2 : n2.threads t = .queued msg := Function.update_self ..
  have h1 : nodeStep nodeId peers (PeerRun.init : PeerRun τ) (.lock t) = some ⟨n1, u⟩ := rfl
  have h2 : nodeStep nodeId peers ⟨n1, u⟩ (.advance t) = some ⟨n2, u⟩ := by
    show (n1.advance nodeId _ t).map _ = _
    unfold LockNode.advance
    rw [ht1]
    rfl
  have h3 : nodeStep nodeId peers ⟨n2, u⟩ (.advance t) = some ⟨n3, u⟩ := by
    show (n2.advance nodeId _ t).map _ = _
    unfold LockNode.advance
    rw [ht2]
    rfl
  refine ⟨⟨n3, u⟩, msg, ?_, ⟨trivial, ?_⟩, ?_⟩
  · rw [run_cons, h1, Option.bind_some, run_cons, h2, Option.bind_some, run_cons, h3]
    rfl
  · intro s1 hs1
    obtain rfl : ⟨n1, u⟩ = s1 := Option.some.inj (h1.symm.trans hs1)
    refine ⟨?_, fun s2 hs2 => ?_⟩
    · show (n1.threads t).EntryOk ⟨n1, u⟩
      rw [ht1]
      trivial
    · obtain rfl : ⟨n2, u⟩ = s2 := Option.some.inj (h2.symm.trans hs2)
      refine ⟨?_, fun _ _ => trivial⟩
      show (n2.threads t).EntryOk ⟨n2, u⟩
      rw [ht2]
      trivial
  · refine ⟨Function.update_self .., ?_, rfl, rfl, rfl, fun _ => rfl, fun _ => rfl⟩
    intro t' ht'
    show Function.update (Function.update (Function.update _ t _) t _) t _ t' = _
    rw [Function.update_of_ne ht', Function.update_of_ne ht', Function.update_of_ne ht']
    rfl

theorem peerRequest_lt (peerNodeId : ℕ) : (peerRequest peerNodeId 2).timestamp < 2 ^ 32 := by
  show 2 < 2 ^ 32
  decide

/-- **An id that is not its slot is found out**: by a first message of the peer if it is no
subscript, and else when exactly one of the two slots is marked. -/
theorem ids_of_tracks [Inhabited τ]
    (h : ∀ as : List (NodeAct τ), Guarded (nodeStep nodeId peers) EntryOk PeerRun.init as →
      Guarded (nodeStep nodeId peers) (Tracks nodeId peers) PeerRun.init as)
    (i : Fin maxPeers) (peerNodeId : ℕ) (hpeer : peers i = some peerNodeId) : peerNodeId = i := by
  by_cases hid : peerNodeId < maxPeers
  swap
  · have hg := h [.deliver i (peerRequest peerNodeId 2)]
      ⟨fun t msg hm => (by cases hm), fun _ _ => trivial⟩
    exact absurd ((hg.1 peerNodeId hpeer (peerRequest_lt _)).1 (Or.inl rfl)) hid
  by_contra hne
  have hslot : (⟨peerNodeId, hid⟩ : Fin maxPeers) ≠ i := fun he => hne (congrArg Fin.val he)
  have hvalid : i ∈ validSlots peers :=
    List.mem_filter.mpr ⟨List.mem_finRange i, by rw [hpeer]; rfl⟩
  have hnd : (validSlots peers).Nodup := (List.nodup_finRange maxPeers).filter _
  obtain ⟨before, after, hsplit⟩ := List.append_of_mem hvalid
  rw [hsplit] at hnd
  obtain ⟨s, msg, hrun, hg, hasked⟩ :=
    asked_start nodeId peers (default : τ)
  -- after the loop over any first slots, a later request must be handled as claimed
  have hread : ∀ pre post, validSlots peers = pre ++ post → pre.Nodup →
      ((⟨peerNodeId, hid⟩ : Fin maxPeers) ∈ pre ↔ i ∈ pre) := by
    intro pre post hsplit hnd
    rw [hsplit] at hasked
    obtain ⟨s', hrun', hg', hasked'⟩ :=
      Asked.run_slots nodeId peers pre [] s hnd hasked
    rw [List.nil_append] at hasked'
    have htracks := h ([.lock default, .advance default, .advance default] ++
      (askActs default pre ++ [.deliver i (peerRequest peerNodeId 2)])) (by
        refine (guarded_append _ _ _ _ _).mpr ⟨hg, fun s1 hs1 => ?_⟩
        obtain rfl : s = s1 := Option.some.inj (hrun.symm.trans hs1)
        refine (guarded_snoc _ _ _ _ _).mpr ⟨hg', fun s2 hs2 => ?_⟩
        obtain rfl : s' = s2 := Option.some.inj (hrun'.symm.trans hs2)
        intro t msg' hm
        rw [hasked'.marks i t] at hm
        cases hm)
    have hlast := (guarded_snoc _ _ _ _ _).mp (((guarded_append _ _ _ _ _).mp htracks).2 s hrun)
    have hdef := ((hlast.2 s' hrun') peerNodeId hpeer (peerRequest_lt _)).2 rfl
    rw [defersReply_iff rfl hid, hasked'.requests, hasked'.unanswered] at hdef
    have htime : (peerRequest peerNodeId 2).timestamp = 2 := rfl
    rw [htime] at hdef
    split_ifs at hdef with h1 h2 h2
    · exact iff_of_true h1 h2
    · simp at hdef
    · simp at hdef
    · exact iff_of_false h1 h2
  have hbefore := hread before (i :: after) hsplit (List.nodup_append.mp hnd).1
  have hnot : i ∉ before := fun hm =>
    (List.nodup_append.mp hnd).2.2 i hm i (List.mem_cons_self ..) rfl
  have hupto := hread (before ++ [i]) after (by rw [hsplit, List.append_cons]) (by
    rw [List.append_cons] at hnd
    exact (List.nodup_append.mp hnd).1)
  have hmem := hupto.mpr (List.mem_append_right _ (List.mem_singleton_self i))
  rcases List.mem_append.mp hmem with hm | hm
  · exact hnot (hbefore.mp hm)
  · exact hslot (List.mem_singleton.mp hm)

end wrong

/-- **When deferral tracks the right peer**, in all runs whose steps keep the entries: exactly if
every peer has connected in the slot that is its id. -/
theorem deferral_iff [Inhabited τ] (events : List PeerEvent) (nodeId : ℕ) :
    (∀ as : List (NodeAct τ), Guarded (nodeStep nodeId (fillPeers events)) EntryOk PeerRun.init as →
      Guarded (nodeStep nodeId (fillPeers events)) (Tracks nodeId (fillPeers events))
        PeerRun.init as) ↔
    ∀ i peerNodeId, fillPeers events i = some peerNodeId → peerNodeId = i := by
  constructor
  · intro h
    exact ids_of_tracks h
  · intro hids as hg
    exact hg.of_inv (fun s a s' hi hok hs => EntriesKept.step hi hids hok hs)
      (fun s a hi hok => EntriesKept.tracks hi hids hok) (EntriesKept.init nodeId _)

/-! ## deployments -/

def firstSlot : Fin maxPeers := ⟨0, zero_lt_maxPeers⟩

def secondSlot : Fin maxPeers := ⟨1, one_lt_maxPeers⟩

/-- the first slot that is free -/
theorem nextPeerIndex_eq {peers : PeerArray} {k : Fin maxPeers} (hfree : peers k = none)
    (hfull : ∀ j < k, peers j ≠ none) : nextPeerIndex peers = some k := by
  rw [nextPeerIndex, List.find?_eq_some_iff_getElem]
  refine ⟨by rw [hfree]; rfl, k, by rw [List.length_finRange]; exact k.isLt,
    List.getElem_finRange _, ?_⟩
  intro j hj
  rw [List.getElem_finRange]
  have hne := hfull ⟨j, hj.trans k.isLt⟩ hj
  obtain ⟨id, hid⟩ := Option.ne_none_iff_exists'.mp hne
  show (!(peers ⟨j, _⟩).isNone) = true
  rw [hid]
  rfl

/-- **Peers fill the slots in the order in which they connect.** -/
theorem fillPeers_connect (ids : List ℕ) (hlen : ids.length ≤ maxPeers) (k : Fin maxPeers) :
    fillPeers (ids.map .connect) k = ids[k.val]? := by
  induction ids using List.reverseRecOn generalizing k with
  | nil => rfl
  | append_singleton ids id ih =>
    rw [List.length_append, List.length_singleton] at hlen
    have ih := ih (by omega)
    have hnext : nextPeerIndex (fillPeers (ids.map .connect))
        = some ⟨ids.length, by omega⟩ := by
      apply nextPeerIndex_eq
      · rw [ih]
        exact List.getElem?_eq_none le_rfl
      · intro j hj
        rw [ih, List.getElem?_eq_getElem (show j.val < ids.length from hj)]
        exact Option.some_ne_none _
    have hstep : fillPeers ((ids ++ [id]).map .connect)
        = Function.update (fillPeers (ids.map .connect)) ⟨ids.length, by omega⟩ (some id) := by
      rw [List.map_append, fillPeers, List.foldl_append]
      show connectPeer (fillPeers (ids.map .connect)) id = _
      rw [connectPeer, hnext]
    rw [hstep, Function.update_apply]
    split_ifs with hk
    · rw [hk, List.getElem?_append_right le_rfl, Nat.sub_self]
      rfl
    · rw [ih]
      have hne : k.val ≠ ids.length := fun he => hk (Fin.ext he)
      by_cases hlt : k.val < ids.length
      · rw [List.getElem?_append_left hlt]
      · rw [List.getElem?_eq_none (by omega), List.getElem?_eq_none]
        rw [List.length_append, List.length_singleton]
        omega

/-- **In every deployment some node misreads**: where each node has a peer and no id is given
twice, some node has a peer whose id is not its slot. -/
theorem some_id_no_slot {ν : Type} [Nonempty ν] (nodeId : ν → ℕ)
    (hinj : Function.Injective nodeId) (order : ν → List ν) (hne : ∀ p, order p ≠ [])
    (hself : ∀ p, p ∉ order p) (hlen : ∀ p, (order p).length ≤ maxPeers) :
    ∃ p i peerNodeId, fillPeers ((order p).map fun q => .connect (nodeId q)) i = some peerNodeId ∧
      peerNodeId ≠ i.val := by
  have hfirst : ∀ p q qs, order p = q :: qs →
      fillPeers ((order p).map fun q => .connect (nodeId q)) firstSlot = some (nodeId q) := by
    intro p q qs he
    have hmap : (order p).map (fun q => PeerEvent.connect (nodeId q))
        = ((order p).map nodeId).map PeerEvent.connect := (List.map_map ..).symm
    rw [hmap, fillPeers_connect _ (by rw [List.length_map]; exact hlen p), he]
    rfl
  by_contra hno
  have hzero : ∀ p q qs, order p = q :: qs → nodeId q = 0 := by
    intro p q qs he
    by_contra h0
    exact hno ⟨p, firstSlot, nodeId q, hfirst p q qs he, h0⟩
  -- the first peer of any node has the id 0, and so has the first peer of that peer
  obtain ⟨p⟩ := ‹Nonempty ν›
  obtain ⟨q, qs, hq⟩ := List.exists_cons_of_ne_nil (hne p)
  obtain ⟨r, rs, hr⟩ := List.exists_cons_of_ne_nil (hne q)
  obtain rfl : r = q := hinj ((hzero q r rs hr).trans (hzero p q qs hq).symm)
  exact hself r (by rw [hr]; exact List.mem_cons_self ..)

/-- Node 0 of three: node 1 connects first and takes slot 0, node 2 slot 1.  The entry of node 1 is
in slot 0, and it is looked for in slot 1.  A peer with the id 10 has no entry at all. -/
theorem deferral_misread : (∃ s,
    run (nodeStep 0 (fillPeers [.connect 1, .connect 2])) (PeerRun.init : PeerRun Unit)
      [.lock (), .advance (), .advance (), .advance (), .advance ()] = some s ∧
    s.unanswered firstSlot = [1] ∧
    ¬ DefersReply 0 s.node firstSlot 1 (peerRequest 1 2) ∧
    ¬ Tracks 0 (fillPeers [.connect 1, .connect 2]) s
      (.deliver firstSlot (peerRequest 1 2))) ∧
    fillPeers [.connect 10] firstSlot = some 10 ∧ ¬ 10 < maxPeers ∧
    ¬ Tracks 1 (fillPeers [.connect 10]) (PeerRun.init : PeerRun Unit)
      (.deliver firstSlot (peerRequest 10 1)) := by
  refine ⟨?_, by decide, by decide, fun h => ?_⟩
  · have hview : (run (nodeStep 0 (fillPeers [.connect 1, .connect 2]))
        (PeerRun.init : PeerRun Unit)
        [.lock (), .advance (), .advance (), .advance (), .advance ()]).map (fun s =>
          (s.unanswered firstSlot, (s.node.requests secondSlot).requestedLock))
          = some ([1], false) := by decide
    obtain ⟨s, hs, hv⟩ := Option.map_eq_some_iff.mp hview
    obtain ⟨hun, hflag⟩ := Prod.mk.inj hv
    have hanswers : ¬ DefersReply 0 s.node firstSlot 1 (peerRequest 1 2) := by
      rw [defersReply_iff rfl (by decide)]
      rintro ⟨h, -⟩
      rw [show (s.node.requests ⟨1, _⟩).requestedLock = false from hflag] at h
      cases h
    refine ⟨s, hs, hun, hanswers, fun h => hanswers ?_⟩
    have hmem : 1 ∈ s.unanswered firstSlot := by rw [hun]; exact List.mem_singleton_self 1
    exact ((h 1 (by decide) (by decide)).2 rfl).mpr ⟨1, hmem, by decide⟩
  · exact absurd ((h 10 (by decide) (by decide)).1 (Or.inl rfl)) (by decide)

end LsmKv
