import BcosSync.Node.BlockSync
import BcosSync.Support.WhileLoop

/-!
# Serving block requests

The task of the send processor: `maintainBlockRequest` drains the request
queue of every peer and asks the ledger for each height of the merged
requests.  The ledger answers before the call returns.  A height it does not
have is pushed back into the queue that is being drained, and the loop over
the queue may never end; so the task is given a bound on the rounds of each
loop, and returns nothing when a loop goes on beyond it.
-/

namespace BcosSync

open MachineInt

/-- A ledger with one answer for each height, and the encoding of its blocks,
which may throw. -/
structure Ledger where
  blockData : ℤ → Except Error BlockData
  encode : BlockData → Option Bytes

/-- The ledger has no block for the height. -/
def Ledger.Lacks (ledger : Ledger) (number : ℤ) : Prop :=
  ∃ e, ledger.blockData number = .error e

namespace DownloadRequest

/-- `numberLimit` of `maintainBlockRequest`, an `int64_t`. -/
def numberLimit (r : DownloadRequest) : ℤ := toInt64 r.stop

/-- The values of the loop variable `number`. -/
def numbers (r : DownloadRequest) : List ℤ :=
  (List.range (r.numberLimit - r.fromNumber).toNat).map
    fun k : ℕ => r.fromNumber + k

theorem mem_numbers {r : DownloadRequest} {n : ℤ} :
    n ∈ r.numbers ↔ r.fromNumber ≤ n ∧ n < r.numberLimit := by
  simp only [numbers, List.mem_map, List.mem_range]
  constructor
  · rintro ⟨k, hk, rfl⟩
    omega
  · rintro ⟨hlow, hhigh⟩
    exact ⟨(n - r.fromNumber).toNat, by omega, by omega⟩

end DownloadRequest

namespace BlockSync

variable {P : BlockQueue}

/-- The queue that is drained, and what has been sent. -/
structure Sending where
  reqQueue : DownloadRequestQueue
  outbox : List (PublicPtr × Packet)

section Serve

variable (ledger : Ledger) (capacity : ℕ) (peer : PublicPtr)

/-- `fetchAndSendBlock` with its callback.  A block whose encoding throws is
skipped. -/
def fetchAndSendBlock (number : ℤ) (x : Sending) : Sending :=
  match ledger.blockData number with
  | .error _ => { x with reqQueue := x.reqQueue.push capacity number 1 }
  | .ok block =>
      match ledger.encode block with
      | none => x
      | some blockData =>
          { x with outbox := (peer, .blocks number blockData) :: x.outbox }

/-- The `for` loop over the heights of a request. -/
def fetchAndSendBlocks (numbers : List ℤ) (x : Sending) : Sending :=
  numbers.foldl (fun x n => fetchAndSendBlock ledger capacity peer n x) x

/-- One round of the `while` loop, entered while the queue is not empty. -/
def serveRound (x : Sending) : Option Sending :=
  if x.reqQueue.isEmpty then none
  else x.reqQueue.topAndPop.map fun (blocksReq, reqQueue) =>
    fetchAndSendBlocks ledger capacity peer blocksReq.numbers
      { x with reqQueue := reqQueue }

end Serve

/-- The node once the loop over the queue of `p` has ended in `x`. -/
def drained (p : PeerStatus) (x : Sending) (s : BlockSync P) : BlockSync P :=
  { s with
    syncStatus := s.syncStatus.replace p.nodeId.data
      { p with downloadRequests := x.reqQueue }
    outbox := x.outbox }

/-- The closure `maintainBlockRequest` runs on each peer. -/
def servePeer (ledger : Ledger) (fuel : ℕ) (p : PeerStatus) :
    Option (BlockSync P) → Bool × Option (BlockSync P)
  | none => (false, none)
  | some s =>
      match WhileLoop.run
          (serveRound ledger s.config.maxDownloadRequestQueueSize p.nodeId)
          fuel ⟨p.downloadRequests, s.outbox⟩ with
      | none => (false, none)
      | some x => (true, some (s.drained p x))

def maintainBlockRequest (ledger : Ledger) (rand : ℕ → ℕ) (fuel : ℕ)
    (s : BlockSync P) : Option (BlockSync P) :=
  SyncPeerStatus.foreachPeerRandom rand (servePeer ledger fuel) s.syncStatus
    (some s)

end BlockSync

end BcosSync
