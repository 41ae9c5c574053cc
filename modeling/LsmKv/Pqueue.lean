import LsmKv.Journal.Durable
import LsmKv.Lib.LamportLock

/-!
# The lock queue (`data_types.h`, `pqueue.c`)

The queue is the list of its elements from `front` to `rear`; it is used under its mutex.

* `PeerMessage`, `PqueueData`   a message, and a message with its address;
* `pqueueDataCmp`               the order by timestamp and node;
* `enqueue`, `dequeue`, `peek`  at most `maxPqueue` elements, moved from the rear;
* `enqueue_eq`                  insertion by rank.
-/

namespace LsmKv

open SortedQueue LamportLock

/-- `peer_message_type_t` -/
inductive PeerMessageType where
  | requestLock
  | releaseLock
  | replyLock
  | serverWrite
  deriving DecidableEq, Repr

/-- `peer_message_t` -/
structure PeerMessage where
  messageType : PeerMessageType
  timestamp : ℕ
  nodeId : ℕ
  key : CStr
  value : CStr
  writeType : WriteType
  deriving DecidableEq, Repr

/-- `pqueue_data_t`; messages that `malloc` has given have addresses of their own -/
structure PqueueData where
  addr : ℕ
  message : PeerMessage
  deriving DecidableEq, Repr

/-- `MAX` -/
def maxPqueue : ℕ := 50

def pqueueDataCmp (first second : PqueueData) : Int :=
  if first.message.timestamp = second.message.timestamp then
    if first.message.nodeId > second.message.nodeId then 1
    else if first.message.nodeId < second.message.nodeId then -1
    else 0
  else if first.message.timestamp > second.message.timestamp then 1
  else if first.message.timestamp < second.message.timestamp then -1
  else 0

/-- `none` is the return value -1, which leaves the queue as it is -/
def enqueue (q : List PqueueData) (x : PqueueData) : Option (List PqueueData) :=
  if maxPqueue ≤ q.length then none
  else some (q.rdropWhile (pqueueDataCmp x · = -1) ++ x :: q.rtakeWhile (pqueueDataCmp x · = -1))

def dequeue (q : List PqueueData) : Option PqueueData × List PqueueData := (q.head?, q.tail)

def peek (q : List PqueueData) : Option PqueueData := q.head?

def PqueueData.rank (x : PqueueData) : Rank := toLex (x.message.timestamp, x.message.nodeId)

theorem pqueueDataCmp_lt {x a : PqueueData} : pqueueDataCmp x a = -1 ↔ x.rank < a.rank := by
  unfold pqueueDataCmp PqueueData.rank
  rw [Prod.Lex.toLex_lt_toLex]
  split_ifs <;> simp only [true_iff, false_iff, Int.reduceNeg] <;> omega

theorem enqueue_eq (q : List PqueueData) (x : PqueueData) :
    enqueue q x = if maxPqueue ≤ q.length then none
      else some (SortedQueue.insert PqueueData.rank x q) := by
  unfold enqueue SortedQueue.insert
  simp only [pqueueDataCmp_lt]

end LsmKv
