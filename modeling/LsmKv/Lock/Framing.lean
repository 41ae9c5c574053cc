import LsmKv.Journal.Bytes

/-!
# Peer messages on a connection (`blocking_node.c`)

A message is sent as `maxMessageSize` bytes, and what one `read` returns is taken for a message.

* `PeerMessageMem`     `peer_message_t` with the strings behind its pointers;
* `marshallPm`, `sendPeerMessage`   the bytes of a message;
* `unmarshallPm`       the message in a buffer;
* `peerMessageListen`  the messages handed on, for the results of the `read`s;
* `IsCut`              a way in which the stream comes out of the `read`s;
* `unmarshall_bytes_iff`   a whole message is unmarshalled right if key and value are tokens;
* `pm_round_trip`      so `unmarshall_pm` undoes `marshall_pm`, whatever the four numbers are;
* `framing_iff`        exactly the cuts between the messages hand on what was sent.
-/

namespace LsmKv

open FixedRecords

def maxMessageSize : ℕ := 4 + 4 + 4 + 4 + maxEntrySize

/-- `peer_message_t`; a string is given by its bytes, and `none` is NULL.  In a received message
they are all that the block has, which is `calloc`ed without room for a terminator. -/
structure PeerMessageMem where
  messageType : BitVec 32
  timestamp : BitVec 32
  nodeId : BitVec 32
  writeType : BitVec 32
  key : Option (List UInt8)
  value : Option (List UInt8)
  deriving DecidableEq, Repr

/-- the bytes that `marshall_pm` copies -/
def marshallPm (message : PeerMessageMem) : Option (List UInt8) := do
  let key ← message.key
  let value ← message.value
  some (intBytes message.messageType ++ (intBytes message.timestamp ++ (intBytes message.nodeId ++
    (intBytes message.writeType ++ (key ++ (32 :: (value ++ [0])))))))

/-- What `send_peer_message` writes: the zeroed buffer with these bytes, if they are not more. -/
def sendPeerMessage (message : PeerMessageMem) : Option (List UInt8) := do
  let bytes ← marshallPm message
  if bytes.length ≤ maxMessageSize then
    some (bytes ++ List.replicate (maxMessageSize - bytes.length) 0)
  else none

/-- `strtok_r(s, " ", ..)`: the token and the rest of the string -/
def strtokBytes (s : List UInt8) : Option (List UInt8) × List UInt8 :=
  let r := s.dropWhile (· = 32)
  match r.takeWhile (· ≠ 32) with
  | [] => (none, [])
  | t => (some t, (r.dropWhile (· ≠ 32)).drop 1)

/-- `unmarshall_pm` into a zeroed message -/
def unmarshallPm (peerMsgBuf : List UInt8) : Option PeerMessageMem := do
  let counter := 0
  let messageType ← slice peerMsgBuf counter sizeofInt
  let counter := counter + sizeofInt
  let timestamp ← slice peerMsgBuf counter sizeofInt
  let counter := counter + sizeofInt
  let nodeId ← slice peerMsgBuf counter sizeofInt
  let counter := counter + sizeofInt
  let writeType ← slice peerMsgBuf counter sizeofInt
  let counter := counter + sizeofInt
  let (k, savePtr) := strtokBytes (cString (peerMsgBuf.drop counter))
  let (v, _) := strtokBytes savePtr
  some ⟨BitVec.ofNat 32 (leVal messageType), BitVec.ofNat 32 (leVal timestamp),
    BitVec.ofNat 32 (leVal nodeId), BitVec.ofNat 32 (leVal writeType), k, v⟩

/-- The loop of `peer_message_listen`: the buffer is zeroed for every `read`, and the loop ends at
one that returns nothing. -/
def peerMessageListen : List (List UInt8) → Option (List PeerMessageMem)
  | [] => some []
  | [] :: _ => some []
  | bytes :: reads => do
    let message ← unmarshallPm (bytes ++ List.replicate (maxMessageSize - bytes.length) 0)
    let messages ← peerMessageListen reads
    some (message :: messages)

/-- A message that `send_peer_message` can be given: two strings, and room for them. -/
structure SentMessage where
  messageType : BitVec 32
  timestamp : BitVec 32
  nodeId : BitVec 32
  writeType : BitVec 32
  key : List UInt8
  value : List UInt8
  keyNulFree : ∀ b ∈ key, b ≠ 0
  valueNulFree : ∀ b ∈ value, b ≠ 0
  short : key.length + value.length + 2 ≤ maxEntrySize

/-- the stream that successive calls write -/
def sendAll (messages : List PeerMessageMem) : Option (List UInt8) :=
  (messages.mapM sendPeerMessage).map List.flatten

/-- The results of the `read`s: 1 to `maxMessageSize` bytes each, together the stream. -/
structure IsCut (stream : List UInt8) (reads : List (List UInt8)) : Prop where
  whole : reads.flatten = stream
  nonempty : ∀ r ∈ reads, r ≠ []
  short : ∀ r ∈ reads, r.length ≤ maxMessageSize

namespace SentMessage

/-- the message in memory -/
def mem (m : SentMessage) : PeerMessageMem :=
  ⟨m.messageType, m.timestamp, m.nodeId, m.writeType, some m.key, some m.value⟩

/-- its bytes on the connection -/
def bytes (m : SentMessage) : List UInt8 :=
  intBytes m.messageType ++ (intBytes m.timestamp ++ (intBytes m.nodeId ++
    (intBytes m.writeType ++ (m.key ++ (32 :: (m.value ++
      0 :: List.replicate (maxEntrySize - (m.key.length + m.value.length + 2)) 0))))))

/-- key and value are tokens: not empty, no space in them -/
structure Tokens (m : SentMessage) : Prop where
  key : m.key ≠ []
  keySpace : 32 ∉ m.key
  value : m.value ≠ []
  valueSpace : 32 ∉ m.value

theorem length_bytes (m : SentMessage) : m.bytes.length = maxMessageSize := by
  have h := m.short
  simp only [bytes, List.length_append, length_intBytes, List.length_cons, List.length_replicate]
  unfold maxMessageSize sizeofInt
  omega

end SentMessage

theorem sendPeerMessage_eq (m : SentMessage) : sendPeerMessage m.mem = some m.bytes := by
  have hshort := m.short
  have hlen : (intBytes m.messageType ++ (intBytes m.timestamp ++ (intBytes m.nodeId ++
      (intBytes m.writeType ++ (m.key ++ (32 :: (m.value ++ [0]))))))).length
        = 18 + m.key.length + m.value.length := by
    simp only [List.length_append, length_intBytes, List.length_cons, List.length_nil, sizeofInt]
    omega
  have hpad : maxMessageSize - (18 + m.key.length + m.value.length)
      = maxEntrySize - (m.key.length + m.value.length + 2) := by
    unfold maxMessageSize
    omega
  have hfits : 18 + m.key.length + m.value.length ≤ maxMessageSize := by
    unfold maxMessageSize
    omega
  unfold sendPeerMessage marshallPm
  simp only [SentMessage.mem, Option.bind_eq_bind, Option.bind_some, hlen, if_pos hfits, hpad]
  simp [SentMessage.bytes]

theorem sendAll_eq (ms : List SentMessage) :
    sendAll (ms.map SentMessage.mem) = some (ms.map SentMessage.bytes).flatten := by
  have h : (ms.map SentMessage.mem).mapM sendPeerMessage = some (ms.map SentMessage.bytes) := by
    induction ms with
    | nil => rfl
    | cons m ms ih =>
      rw [List.map_cons, List.mapM_cons, sendPeerMessage_eq, ih]
      rfl
  rw [sendAll, h, Option.map_some]

/-! ## one message -/

theorem strtokBytes_some {s t r : List UInt8} (h : strtokBytes s = (some t, r)) :
    t ≠ [] ∧ 32 ∉ t := by
  unfold strtokBytes at h
  dsimp only at h
  split at h
  · cases h
  · rename_i hne
    obtain ⟨ht, -⟩ := Prod.mk.inj h
    obtain rfl := Option.some.inj ht
    refine ⟨hne, fun hm => ?_⟩
    have := List.mem_takeWhile_imp hm
    simp at this

/-- a token in front of a space or of the end -/
theorem strtokBytes_token {t : List UInt8} (rest : List UInt8) (hne : t ≠ []) (hsp : 32 ∉ t) :
    strtokBytes (t ++ 32 :: rest) = (some t, rest) ∧ (strtokBytes t).1 = some t := by
  obtain ⟨b, bs, rfl⟩ := List.exists_cons_of_ne_nil hne
  have hb : b ≠ 32 := fun e => hsp (e ▸ List.mem_cons_self ..)
  have hall : ∀ x ∈ b :: bs, decide (x ≠ 32) = true := fun x hx => by
    simpa using fun e : x = 32 => hsp (e ▸ hx)
  have htake : ∀ l : List UInt8, (b :: bs ++ l).takeWhile (· ≠ 32)
      = b :: bs ++ l.takeWhile (· ≠ 32) := fun l => List.takeWhile_append_of_pos hall
  have hdrop : ∀ l : List UInt8, (b :: bs ++ l).dropWhile (· ≠ 32) = l.dropWhile (· ≠ 32) :=
    fun l => List.dropWhile_append_of_pos hall
  have hstart : ∀ l : List UInt8, (b :: bs ++ l).dropWhile (· = 32) = b :: bs ++ l := by
    intro l
    rw [List.cons_append, List.dropWhile_cons_of_neg (by simpa using hb)]
  constructor
  · unfold strtokBytes
    simp only [hstart, htake, hdrop]
    simp
  · have h := htake []
    have h' := hstart []
    rw [List.append_nil] at h h'
    unfold strtokBytes
    simp only [h', h]
    simp

/-- **What is unmarshalled from a whole message**: the numbers are right, and key and value are the
first two tokens behind them. -/
theorem unmarshall_bytes (m : SentMessage) : unmarshallPm m.bytes
    = some ⟨m.messageType, m.timestamp, m.nodeId, m.writeType,
        (strtokBytes (m.key ++ 32 :: m.value)).1,
        (strtokBytes (strtokBytes (m.key ++ 32 :: m.value)).2).1⟩ := by
  generalize hpad : List.replicate (maxEntrySize - (m.key.length + m.value.length + 2)) (0 : UInt8)
    = pad
  have e : m.bytes = intBytes m.messageType ++ (intBytes m.timestamp ++ (intBytes m.nodeId ++
      (intBytes m.writeType ++ (m.key ++ 32 :: (m.value ++ 0 :: pad))))) := by
    rw [SentMessage.bytes, hpad]
  have h1 : slice m.bytes 0 sizeofInt = some (intBytes m.messageType) := by
    rw [e]
    exact slice_field (a := []) rfl (length_intBytes _)
  have h2 : slice m.bytes (0 + sizeofInt) sizeofInt = some (intBytes m.timestamp) := by
    rw [e]
    exact slice_field (by simp) (length_intBytes _)
  have h3 : slice m.bytes (0 + sizeofInt + sizeofInt) sizeofInt = some (intBytes m.nodeId) := by
    rw [e, ← List.append_assoc]
    exact slice_field (by simp) (length_intBytes _)
  have h4 : slice m.bytes (0 + sizeofInt + sizeofInt + sizeofInt) sizeofInt
      = some (intBytes m.writeType) := by
    rw [e, ← List.append_assoc, ← List.append_assoc _ (intBytes m.nodeId)]
    exact slice_field (by simp [Nat.add_assoc]) (length_intBytes _)
  have h5 : m.bytes.drop (0 + sizeofInt + sizeofInt + sizeofInt + sizeofInt)
      = m.key ++ 32 :: (m.value ++ 0 :: pad) := by
    rw [e, ← List.append_assoc, ← List.append_assoc _ (intBytes m.nodeId),
      ← List.append_assoc _ (intBytes m.writeType)]
    exact List.drop_left' (by simp [Nat.add_assoc])
  have h6 : cString (m.key ++ 32 :: (m.value ++ 0 :: pad)) = m.key ++ 32 :: m.value := by
    have hk : ∀ b ∈ m.key, decide (b ≠ 0) = true := fun b hb => by
      simpa using m.keyNulFree b hb
    have hv : ∀ b ∈ m.value, decide (b ≠ 0) = true := fun b hb => by
      simpa using m.valueNulFree b hb
    rw [cString, List.takeWhile_append_of_pos hk, List.takeWhile_cons_of_pos (by decide),
      List.takeWhile_append_of_pos hv]
    simp
  unfold unmarshallPm
  simp only [h1, h2, h3, h4, h5, h6, Option.bind_eq_bind, Option.bind_some, leVal_intBytes]

/-- **A whole message comes out as it was sent** exactly if its key and its value are tokens. -/
theorem unmarshall_bytes_iff (m : SentMessage) : unmarshallPm m.bytes = some m.mem ↔ m.Tokens := by
  rw [unmarshall_bytes, Option.some.injEq, SentMessage.mem, PeerMessageMem.mk.injEq]
  simp only [true_and]
  constructor
  · rintro ⟨hk, hv⟩
    obtain ⟨h1, h2⟩ := strtokBytes_some (Prod.ext hk rfl)
    obtain ⟨h3, h4⟩ := strtokBytes_some (Prod.ext hv rfl)
    exact ⟨h1, h2, h3, h4⟩
  · rintro ⟨h1, h2, h3, h4⟩
    rw [(strtokBytes_token _ h1 h2).1]
    exact ⟨rfl, (strtokBytes_token [] h3 h4).2⟩

/-- **A message with two tokens makes the round trip**: `marshall_pm` stays within the buffer, and
`unmarshall_pm` reads the zero-filled buffer back. -/
theorem pm_round_trip (messageType timestamp nodeId writeType : BitVec 32) (key value : List UInt8)
    (hkey : key ≠ [] ∧ 32 ∉ key ∧ 0 ∉ key) (hvalue : value ≠ [] ∧ 32 ∉ value ∧ 0 ∉ value)
    (hlen : key.length + value.length ≤ 399) :
    ∃ bytes, marshallPm ⟨messageType, timestamp, nodeId, writeType, some key, some value⟩
        = some bytes ∧ bytes.length ≤ maxMessageSize ∧
      unmarshallPm (bytes ++ List.replicate (maxMessageSize - bytes.length) 0)
        = some ⟨messageType, timestamp, nodeId, writeType, some key, some value⟩ := by
  obtain ⟨hk, hks, hk0⟩ := hkey
  obtain ⟨hv, hvs, hv0⟩ := hvalue
  have hshort : key.length + value.length + 2 ≤ maxEntrySize := by
    have h : 401 ≤ maxEntrySize := by decide
    omega
  let m : SentMessage := ⟨messageType, timestamp, nodeId, writeType, key, value,
    fun b hb he => hk0 (he ▸ hb), fun b hb he => hv0 (he ▸ hb), hshort⟩
  have hread : unmarshallPm m.bytes = some m.mem :=
    (unmarshall_bytes_iff m).mpr ⟨hk, hks, hv, hvs⟩
  have hsent := sendPeerMessage_eq m
  rw [sendPeerMessage, Option.bind_eq_bind, Option.bind_eq_some_iff] at hsent
  obtain ⟨bytes, hbytes, hpad⟩ := hsent
  have hfits : bytes.length ≤ maxMessageSize := by
    by_contra hlong
    rw [if_neg hlong] at hpad
    cases hpad
  rw [if_pos hfits, Option.some.injEq] at hpad
  refine ⟨bytes, hbytes, hfits, ?_⟩
  rw [hpad]
  exact hread

/-- a timestamp whose bytes are spaces, and a node id whose bytes are zero -/
theorem pm_round_trip_spaces : ∃ bytes,
    marshallPm ⟨0, 538976288, 0, 0, some [107], some [49, 50]⟩ = some bytes ∧
      bytes.length ≤ maxMessageSize ∧
      unmarshallPm (bytes ++ List.replicate (maxMessageSize - bytes.length) 0)
        = some ⟨0, 538976288, 0, 0, some [107], some [49, 50]⟩ :=
  pm_round_trip 0 538976288 0 0 [107] [49, 50] (by decide) (by decide) (by decide)

/-! ## a stream of messages -/

theorem peerMessageListen_cons {bytes : List UInt8} (h : bytes ≠ [])
    (reads : List (List UInt8)) : peerMessageListen (bytes :: reads)
      = (unmarshallPm (bytes ++ List.replicate (maxMessageSize - bytes.length) 0)).bind fun m =>
          (peerMessageListen reads).map fun ms => m :: ms := by
  obtain ⟨b, bs, rfl⟩ := List.exists_cons_of_ne_nil h
  simp only [peerMessageListen, Option.bind_eq_bind, Option.map_eq_bind]
  rfl

/-- one message for each `read` -/
theorem length_peerMessageListen {reads : List (List UInt8)} (h : ∀ r ∈ reads, r ≠ [])
    {ms : List PeerMessageMem} (hms : peerMessageListen reads = some ms) :
    ms.length = reads.length := by
  induction reads generalizing ms with
  | nil =>
    cases hms
    rfl
  | cons bytes reads ih =>
    rw [peerMessageListen_cons (h bytes (List.mem_cons_self ..))] at hms
    obtain ⟨m, -, hm⟩ := Option.bind_eq_some_iff.mp hms
    obtain ⟨ms', hms', rfl⟩ := Option.map_eq_some_iff.mp hm
    rw [List.length_cons, List.length_cons, ih (fun r hr => h r (List.mem_cons_of_mem _ hr)) hms']

theorem bytes_ne_nil (m : SentMessage) : m.bytes ≠ [] := by
  intro h
  have hlen := m.length_bytes
  rw [h] at hlen
  exact absurd hlen (by decide)

/-- the loop on whole messages -/
theorem listen_whole (ms : List SentMessage) :
    peerMessageListen (ms.map SentMessage.bytes) = some (ms.map SentMessage.mem) ↔
      ∀ m ∈ ms, m.Tokens := by
  induction ms with
  | nil => exact iff_of_true rfl (fun m hm => absurd hm (List.not_mem_nil))
  | cons m ms ih =>
    rw [List.map_cons, peerMessageListen_cons (bytes_ne_nil m), m.length_bytes, Nat.sub_self,
      List.replicate_zero, List.append_nil, List.forall_mem_cons, ← ih, ← unmarshall_bytes_iff,
      Option.bind_eq_some_iff]
    constructor
    · rintro ⟨m', hm', hrest⟩
      obtain ⟨ms', hms', he⟩ := Option.map_eq_some_iff.mp hrest
      obtain ⟨rfl, rfl⟩ := List.cons_eq_cons.mp he
      exact ⟨hm', hms'⟩
    · rintro ⟨h1, h2⟩
      exact ⟨m.mem, h1, by rw [h2]; rfl⟩

/-- **When the framing is right**: exactly if every `read` returns a whole message, and every key
and value is a token. -/
theorem framing_iff (ms : List SentMessage) (stream : List UInt8)
    (hs : sendAll (ms.map SentMessage.mem) = some stream) (reads : List (List UInt8))
    (hcut : IsCut stream reads) : peerMessageListen reads = some (ms.map SentMessage.mem) ↔
      (∀ r ∈ reads, r.length = maxMessageSize) ∧ ∀ m ∈ ms, m.Tokens := by
  obtain ⟨hwhole, hne, hshort⟩ := hcut
  rw [sendAll_eq] at hs
  have hflat : reads.flatten = (ms.map SentMessage.bytes).flatten :=
    hwhole.trans (Option.some.inj hs).symm
  have hrec : ∀ y ∈ ms.map SentMessage.bytes, y.length = maxMessageSize := by
    intro y hy
    obtain ⟨m, -, rfl⟩ := List.mem_map.mp hy
    exact m.length_bytes
  constructor
  · intro h
    have hlen : reads.length = (ms.map SentMessage.bytes).length := by
      rw [← length_peerMessageListen hne h, List.length_map, List.length_map]
    obtain rfl := pieces_eq_records hshort hrec hlen hflat
    exact ⟨hrec, (listen_whole ms).mp h⟩
  · rintro ⟨hfull, htok⟩
    have hlen : reads.length = (ms.map SentMessage.bytes).length := by
      have h1 := length_flatten_records hfull
      rw [hflat, length_flatten_records hrec] at h1
      exact (Nat.eq_of_mul_eq_mul_left (by decide) h1).symm
    rw [pieces_eq_records hshort hrec hlen hflat]
    exact (listen_whole ms).mpr htok

/-- a lock request of node 0 with timestamp 1 -/
def requestOne : SentMessage :=
  ⟨0, 1, 0, 0, [49], [49], List.forall_mem_singleton.mpr (by decide),
    List.forall_mem_singleton.mpr (by decide), by decide⟩

/-- what node 0 sends for one write: the request, `PUT key v2` with timestamp 300, the release -/
def lockRound : List SentMessage :=
  [requestOne,
    ⟨3, 300, 0, 1, [107, 101, 121], [118, 50], by simp, by simp, by decide⟩,
    ⟨1, 301, 0, 0, [49], [49], by simp, by simp, by decide⟩]

theorem isCut_whole (ms : List SentMessage) :
    IsCut (ms.map SentMessage.bytes).flatten (ms.map SentMessage.bytes) where
  whole := rfl
  nonempty := List.forall_mem_map.mpr fun m _ => bytes_ne_nil m
  short := List.forall_mem_map.mpr fun m _ => m.length_bytes.le

/-- One `read` for each of three messages. -/
theorem framing_whole : peerMessageListen (lockRound.map SentMessage.bytes)
    = some (lockRound.map SentMessage.mem) := by
  refine (framing_iff lockRound _ (sendAll_eq lockRound) _ (isCut_whole lockRound)).mpr ⟨?_, ?_⟩
  · exact List.forall_mem_map.mpr fun m _ => m.length_bytes
  · intro m hm
    simp only [lockRound, List.mem_cons, List.not_mem_nil, or_false] at hm
    obtain rfl | rfl | rfl := hm
    all_goals exact ⟨by decide, by decide, by decide, by decide⟩

/-- The same bytes in two `read`s: two messages without a key, the second with a timestamp made of
key and space. -/
theorem framing_cut : IsCut requestOne.bytes [requestOne.bytes.take 10, requestOne.bytes.drop 10] ∧
    sendAll [requestOne.mem] = some requestOne.bytes ∧
    peerMessageListen [requestOne.bytes.take 10, requestOne.bytes.drop 10]
      = some [⟨0, 1, 0, 0, none, none⟩, ⟨0, 540082176, 49, 0, none, none⟩] ∧
    ¬ peerMessageListen [requestOne.bytes.take 10, requestOne.bytes.drop 10]
      = some [requestOne.mem] := by
  have h : peerMessageListen [requestOne.bytes.take 10, requestOne.bytes.drop 10]
      = some [⟨0, 1, 0, 0, none, none⟩, ⟨0, 540082176, 49, 0, none, none⟩] := by decide +kernel
  refine ⟨⟨by simp, by decide +kernel, by decide +kernel⟩, by decide +kernel, h, ?_⟩
  rw [h]
  intro heq
  cases congrArg List.length (Option.some.inj heq)

end LsmKv
