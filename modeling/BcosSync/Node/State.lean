import BcosSync.State.SyncPeerStatus

/-!
# The state of a sync node

One record holds what `BlockSync`, its config, its queues and its peer table
store, together with the calls to other services that have not been answered
yet.  `trace` lists the calls and answers of the run so far, the newest first;
no function of the node reads it, nor `notices` and `outbox`, which hold what
went out to the consensus module and to the front service.

The scheduler, the ledger and the consensus module answer through callbacks.
A callback the node still waits for is in `pending`, and its answer arrives as
an input of its own.
-/

namespace BcosSync

inductive SyncState
  | idle
  | downloading
deriving DecidableEq

/-- A callback handed to another service and not called yet. -/
inductive Callback
  | executeBlock (block : Block)
  | asyncCheckBlock (block : Block)
  | asyncStoreTransactions (block : Block)
  | commitBlock (block : Block)
deriving DecidableEq

/-- The places inside the callbacks where an exception can start. -/
inductive ThrowSite
  | asyncCheckBlock
  | encodeTransaction
  | asyncStoreTransactions
  | commitBlock
  | newBlockHandler
deriving DecidableEq

/-- A call to another service, its answer, or an exception on the way. -/
inductive Event
  | executeBlock (block : Block)
  | executeBlockAnswer (block : Block) (answer : Except Error BlockHeader)
  | asyncCheckBlock (block : Block) (nextBlock : ℤ)
  | asyncCheckBlockAnswer (block : Block) (answer : Except Error Bool)
  | asyncStoreTransactions (block : Block) (txsData : List Bytes)
      (txsHashList : List HashType)
  | asyncStoreTransactionsAnswer (block : Block) (error : Option Error)
  | commitBlock (block : Block)
  | commitBlockAnswer (block : Block) (answer : Except Error LedgerConfig)
  | newBlockHandler (block : Block) (ledgerConfig : LedgerConfig)
  | exception (block : Block) (site : ThrowSite)
deriving DecidableEq

/-- One-way notifications of the consensus module. -/
inductive Notice
  | asyncNotifyNewBlock (ledgerConfig : LedgerConfig)
  | notifyHighestSyncingNumber (number : ℤ)
deriving DecidableEq

/-- `DownloadingQueue`, over a block queue implementation `P`.  `nextPtr` is
the identity of the next block object that is created. -/
structure DownloadingQueue (P : BlockQueue) where
  blocks : P.Carrier
  blockBuffer : List BlocksMsg
  commitQueue : P.Carrier
  nextPtr : ℕ

/-- `BlockSync`: the node. -/
structure BlockSync (P : BlockQueue) where
  config : BlockSyncConfig
  syncStatus : SyncPeerStatus
  downloadingQueue : DownloadingQueue P
  state : SyncState
  maxRequestNumber : ℤ
  timerArmed : Bool
  pending : List Callback
  outbox : List (PublicPtr × Packet)
  notices : List Notice
  trace : List Event

namespace BlockSync

variable {P : BlockQueue}

/-- `m_waterMark`. -/
def waterMark : ℤ := 10

/-! ## Elementary updates -/

def log (e : Event) (s : BlockSync P) : BlockSync P :=
  { s with trace := e :: s.trace }

def notify (n : Notice) (s : BlockSync P) : BlockSync P :=
  { s with notices := n :: s.notices }

/-- Leave a callback with another service. -/
def await (c : Callback) (s : BlockSync P) : BlockSync P :=
  { s with pending := c :: s.pending }

/-- A callback is called: it is not outstanding any more. -/
def resolve (c : Callback) (s : BlockSync P) : BlockSync P :=
  { s with pending := s.pending.erase c }

def setExecutedBlock (n : ℤ) (s : BlockSync P) : BlockSync P :=
  { s with config := s.config.setExecutedBlock n }

def setBlocks (q : P.Carrier) (s : BlockSync P) : BlockSync P :=
  { s with downloadingQueue := { s.downloadingQueue with blocks := q } }

def setCommitQueue (q : P.Carrier) (s : BlockSync P) : BlockSync P :=
  { s with downloadingQueue := { s.downloadingQueue with commitQueue := q } }

def send (dst : PublicPtr) (p : Packet) (s : BlockSync P) : BlockSync P :=
  { s with outbox := (dst, p) :: s.outbox }

/-! ## The blocks a node holds, by place -/

/-- The blocks of `m_blocks`. -/
def blocks (s : BlockSync P) : Multiset Block :=
  P.elems s.downloadingQueue.blocks

/-- The blocks of `m_commitQueue`. -/
def commitQueue (s : BlockSync P) : Multiset Block :=
  P.elems s.downloadingQueue.commitQueue

/-- An execution of the block has been started and not answered. -/
def Executing (s : BlockSync P) (b : Block) : Prop :=
  .executeBlock b ∈ s.pending

/-- A commit pipeline of the block is outstanding: its check, its store or
its commit has not been answered. -/
def Committing (s : BlockSync P) (b : Block) : Prop :=
  .asyncCheckBlock b ∈ s.pending ∨ .asyncStoreTransactions b ∈ s.pending ∨
    .commitBlock b ∈ s.pending

instance (s : BlockSync P) (b : Block) : Decidable (s.Committing b) :=
  inferInstanceAs (Decidable (_ ∨ _))

end BlockSync

end BcosSync
