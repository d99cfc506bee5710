import BcosSync.Node.State

/-!
# The downloading queue

The operations of `DownloadingQueue`: the buffer and block queue in the first
part, the execution and commit callbacks in the second.  The callbacks call
into the node again through the registered new-block handler `onNewBlock`.

A callback takes a `throws` argument that names the place, if any, where an
exception starts during this call.  The callbacks end in a `catch` block that
only logs, so an exception skips the rest of the callback and changes nothing
else.
-/

namespace BcosSync

open BlockSyncConfig

namespace DownloadingQueue

variable {P : BlockQueue}

/-! ## The buffer and the block queue -/

def push (msg : BlocksMsg) (c : BlockSyncConfig) (q : DownloadingQueue P) :
    DownloadingQueue P :=
  if c.maxDownloadingBlockQueueSize ≤ q.blockBuffer.length then q
  else { q with blockBuffer := q.blockBuffer ++ [msg] }

def size (q : DownloadingQueue P) : ℕ :=
  q.blockBuffer.length + P.size q.blocks

def top (q : DownloadingQueue P) : Option Block := P.top q.blocks

def clearQueue (q : DownloadingQueue P) : DownloadingQueue P :=
  { q with blocks := P.empty }

def clear (q : DownloadingQueue P) : DownloadingQueue P :=
  { q with blockBuffer := [] }.clearQueue

def isNewerBlock (c : BlockSyncConfig) (b : Block) : Bool :=
  !decide (b.number ≤ c.blockNumber)

/-- The loop body of `flushOneShard`: invalid data is logged and skipped. -/
def flushBlockData (createBlock : BlockFactory) (c : BlockSyncConfig)
    (data : Bytes) (q : DownloadingQueue P) : DownloadingQueue P :=
  match createBlock data with
  | none => q
  | some blockData =>
      let block : Block := { toBlockData := blockData, ptr := q.nextPtr }
      let q := { q with nextPtr := q.nextPtr + 1 }
      if isNewerBlock c block then { q with blocks := P.push q.blocks block }
      else q

/-- `flushOneShard`: whether the shard was taken, and the queue afterwards. -/
def flushOneShard (createBlock : BlockFactory) (c : BlockSyncConfig)
    (msg : BlocksMsg) (q : DownloadingQueue P) : Bool × DownloadingQueue P :=
  if c.maxDownloadingBlockQueueSize ≤ P.size q.blocks then (false, q)
  else
    (true, msg.blocksData.foldl
      (fun q data => flushBlockData createBlock c data q) q)

/-- The loop of `flushBufferToQueue` over the shards of the buffer.  A shard
leaves the buffer before it is known whether it is taken. -/
def flushLoop (createBlock : BlockFactory) (c : BlockSyncConfig) :
    List BlocksMsg → DownloadingQueue P → DownloadingQueue P
  | [], q => { q with blockBuffer := [] }
  | shard :: rest, q =>
      match flushOneShard createBlock c shard q with
      | (true, q) => flushLoop createBlock c rest q
      | (false, q) => { q with blockBuffer := rest }

def flushBufferToQueue (createBlock : BlockFactory) (c : BlockSyncConfig)
    (q : DownloadingQueue P) : DownloadingQueue P :=
  flushLoop createBlock c q.blockBuffer q

def clearFullQueueIfNotHas (c : BlockSyncConfig) (blockNumber : ℤ)
    (q : DownloadingQueue P) : DownloadingQueue P :=
  match q.top with
  | none => q
  | some block =>
      if P.size q.blocks = c.maxDownloadingBlockQueueSize ∧
          blockNumber < block.number then q.clearQueue
      else q

/-- The loop that pops while the top is at or below `limit`. -/
def popUpTo (limit : ℤ) (q : P.Carrier) : P.Carrier :=
  P.discard (fun b => decide (b.number ≤ limit)) q

end DownloadingQueue

/-- `verifyExecutedBlock`. -/
def verifyExecutedBlock (b : Block) (header : BlockHeader) : Bool :=
  b.hash == header.hash

theorem verifyExecutedBlock_iff {b : Block} {header : BlockHeader} :
    verifyExecutedBlock b header = true ↔ b.hash = header.hash :=
  beq_iff_eq

namespace BlockSync

variable {P : BlockQueue}

open DownloadingQueue

/-! ## Execution -/

def applyBlock (b : Block) (s : BlockSync P) : BlockSync P :=
  if b.number ≤ s.config.blockNumber then
    s.setExecutedBlock s.config.blockNumber
  else
    (s.log (.executeBlock b)).await (.executeBlock b)

/-! ## The check of the next block -/

/-- `checkAndCommitBlock`. -/
def checkAndCommitBlock (throws : Option ThrowSite) (b : Block)
    (s : BlockSync P) : BlockSync P :=
  if b.number ≠ s.config.nextBlock then
    s.setExecutedBlock s.config.blockNumber
  else
    let s := s.log (.asyncCheckBlock b s.config.nextBlock)
    if throws = some .asyncCheckBlock then
      s.log (.exception b .asyncCheckBlock)
    else s.await (.asyncCheckBlock b)

/-- `tryToCommitBlockToLedger`. -/
def tryToCommitBlockToLedger (throws : Option ThrowSite) (s : BlockSync P) :
    BlockSync P :=
  let s := s.setCommitQueue
    (popUpTo s.config.blockNumber s.downloadingQueue.commitQueue)
  match P.top s.downloadingQueue.commitQueue with
  | none => s
  | some b =>
      if b.number = s.config.nextBlock then
        checkAndCommitBlock throws b
          (s.setCommitQueue (P.pop s.downloadingQueue.commitQueue))
      else s

/-- `updateCommitQueue`. -/
def updateCommitQueue (throws : Option ThrowSite) (b : Block)
    (s : BlockSync P) : BlockSync P :=
  tryToCommitBlockToLedger throws
    (s.setCommitQueue (P.push s.downloadingQueue.commitQueue b))

/-- The callback of `executeBlock`. -/
def onExecuteBlock (throws : Option ThrowSite) (b : Block)
    (answer : Except Error BlockHeader) (s : BlockSync P) : BlockSync P :=
  let s := s.log (.executeBlockAnswer b answer)
  match answer with
  | .error _ => s.setExecutedBlock s.config.blockNumber
  | .ok header =>
      if verifyExecutedBlock b header then
        updateCommitQueue throws b (s.setExecutedBlock b.number)
      else s.setExecutedBlock s.config.blockNumber

/-! ## Store and commit -/

/-- `commitBlockState`. -/
def commitBlockState (throws : Option ThrowSite) (b : Block)
    (s : BlockSync P) : BlockSync P :=
  let s := s.log (.commitBlock b)
  if throws = some .commitBlock then s.log (.exception b .commitBlock)
  else s.await (.commitBlock b)

/-- The call of `asyncStoreTransactions` at the end of `commitBlock`. -/
def storeTransactions (throws : Option ThrowSite) (b : Block)
    (s : BlockSync P) : BlockSync P :=
  let s := s.log (.asyncStoreTransactions b
    (b.transactions.map Transaction.encodedData)
    (b.transactions.map Transaction.hash))
  if throws = some .asyncStoreTransactions then
    s.log (.exception b .asyncStoreTransactions)
  else s.await (.asyncStoreTransactions b)

/-- `commitBlock`.  For an empty block the state is committed at once, and
the function goes on to store its zero transactions. -/
def commitBlock (throws : Option ThrowSite) (b : Block) (s : BlockSync P) :
    BlockSync P :=
  if b.transactionsSize = 0 then
    let s := commitBlockState throws b s
    if throws = some .commitBlock then s
    else storeTransactions throws b s
  else if throws = some .encodeTransaction then
    s.log (.exception b .encodeTransaction)
  else storeTransactions throws b s

/-- The callback of `asyncCheckBlock`. -/
def onCheckBlock (throws : Option ThrowSite) (b : Block)
    (answer : Except Error Bool) (s : BlockSync P) : BlockSync P :=
  let s := s.log (.asyncCheckBlockAnswer b answer)
  match answer with
  | .error _ => s.setExecutedBlock (b.number - 1)
  | .ok true => commitBlock throws b s
  | .ok false => s.setExecutedBlock (b.number - 1)

/-- The callback of `asyncStoreTransactions`. -/
def onStoreTransactions (throws : Option ThrowSite) (b : Block)
    (error : Option Error) (s : BlockSync P) : BlockSync P :=
  let s := s.log (.asyncStoreTransactionsAnswer b error)
  match error with
  | some _ => s.setExecutedBlock (b.number - 1)
  | none => commitBlockState throws b s

/-! ## New blocks -/

def clearExpiredQueueCache (s : BlockSync P) : BlockSync P :=
  let limit := s.config.blockNumber
  { s with
    downloadingQueue :=
      { s.downloadingQueue with
        blocks := popUpTo limit s.downloadingQueue.blocks
        commitQueue := popUpTo limit s.downloadingQueue.commitQueue } }

def resetConfig (ledgerConfig : LedgerConfig) (s : BlockSync P) :
    BlockSync P :=
  if s.config.ignores ledgerConfig then s
  else
    { s.notify (.asyncNotifyNewBlock ledgerConfig) with
      config := s.config.resetConfig ledgerConfig }

/-- The status of this node. -/
def currentStatus (c : BlockSyncConfig) : BlockSyncStatus where
  number := c.blockNumber
  hash := c.hash
  genesisHash := c.genesisHash

/-- The other nodes of the group that are connected. -/
def connectedGroupNodes (c : BlockSyncConfig) : List PublicPtr :=
  c.groupNodeList.filter fun node =>
    node.data ≠ c.nodeID.data ∧ c.connected node

def broadcastSyncStatus (s : BlockSync P) : BlockSync P :=
  (connectedGroupNodes s.config).foldl
    (fun t node => t.send node (.status (currentStatus s.config))) s

/-- `onNewBlock`, registered as the new-block handler. -/
def onNewBlock (ledgerConfig : LedgerConfig) (s : BlockSync P) :
    BlockSync P :=
  ((s.resetConfig ledgerConfig).broadcastSyncStatus).clearExpiredQueueCache

/-- `finalizeBlock`.  An exception of the handler is one before `resetConfig`
has run. -/
def finalizeBlock (throws : Option ThrowSite) (b : Block)
    (ledgerConfig : LedgerConfig) (s : BlockSync P) : BlockSync P :=
  let s := s.log (.newBlockHandler b ledgerConfig)
  if throws = some .newBlockHandler then s.log (.exception b .newBlockHandler)
  else tryToCommitBlockToLedger throws (s.onNewBlock ledgerConfig)

/-- The callback of `scheduler->commitBlock`. -/
def onCommitBlock (throws : Option ThrowSite) (b : Block)
    (answer : Except Error LedgerConfig) (s : BlockSync P) : BlockSync P :=
  let s := s.log (.commitBlockAnswer b answer)
  match answer with
  | .error _ => s.setExecutedBlock (b.number - 1)
  | .ok ledgerConfig =>
      finalizeBlock throws b
        ((ledgerConfig.setTxsSize b.transactionsSize).setSealerId
          b.blockHeader.sealer) s

end BlockSync

end BcosSync
