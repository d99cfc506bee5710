import BcosSync.Node.DownloadingQueue
import BcosSync.Support.TransitionSystem

/-!
# The sync node as a transition system

The handlers and worker tasks of `BlockSync`, and the system whose inputs are
the handler calls, the worker tasks, the timer and the answers of the other
services.  Each input is one atomic step; the order of inputs is free.

The task of the send processor is not an input here.  It only drains the
request queues of the peers, which no other step reads, and has a module of
its own.
-/

namespace BcosSync

open MachineInt

namespace BlockSync

variable {P : BlockQueue}

/-! ## The download state -/

def shouldSyncing (s : BlockSync P) : Bool :=
  if s.config.knownHighestNumber ≤ s.config.blockNumber then false
  else if s.config.knownHighestNumber ≤ s.config.committedProposalNumber then
    false
  else if s.config.knownHighestNumber ≤ s.config.executedBlock then false
  else true

def isSyncing (s : BlockSync P) : Bool :=
  s.state = .downloading

def onDownloadTimeout (s : BlockSync P) : BlockSync P :=
  { s with timerArmed := false, state := .idle }

def downloadFinish (s : BlockSync P) : BlockSync P :=
  { s with timerArmed := false, state := .idle }

/-! ## Requesting blocks -/

/-- The variables captured by the closure in `requestBlocks`. -/
structure RequestLoop where
  shard : ℕ
  findPeer : Bool
  maxRequestNumber : ℤ
  outbox : List (PublicPtr × Packet)

/-- The closure `requestBlocks` runs on each peer. -/
def requestShard (c : BlockSyncConfig) (from_ to_ : ℤ) (shardNumber : ℕ)
    (p : PeerStatus) (l : RequestLoop) : Bool × RequestLoop :=
  if p.number < c.knownHighestNumber then (true, l)
  else
    let first := toInt64 (from_ + 1 + l.shard * c.maxRequestBlocks)
    let last := min (toInt64 (first + c.maxRequestBlocks - 1)) to_
    if p.number < last then (true, l)
    else
      (decide (l.shard + 1 < shardNumber),
        { shard := l.shard + 1
          findPeer := true
          maxRequestNumber := max l.maxRequestNumber last
          outbox := (p.nodeId, .request first (toSize (last - first + 1))) ::
            l.outbox })

/-- The passes of `requestBlocks` over the peers, `loops` of them left. -/
def requestLoop (rand : ℕ → ℕ → ℕ) (c : BlockSyncConfig) (t : SyncPeerStatus)
    (from_ to_ : ℤ) (shardNumber : ℕ) : ℕ → RequestLoop → RequestLoop
  | 0, l => l
  | loops + 1, l =>
      if l.shard < shardNumber then
        let l := SyncPeerStatus.foreachPeerRandom (rand loops)
          (requestShard c from_ to_ shardNumber) t { l with findPeer := false }
        if l.findPeer then
          requestLoop rand c t from_ to_ shardNumber loops l
        else l
      else l

/-- The number of shards `requestBlocks` cuts the range into. -/
def shardCount (c : BlockSyncConfig) (from_ to_ : ℤ) : ℕ :=
  toSize (to_ - from_ + c.maxRequestBlocks - 1) / c.maxRequestBlocks

def requestBlocks (rand : ℕ → ℕ → ℕ) (from_ to_ : ℤ) (s : BlockSync P) :
    BlockSync P :=
  let s := { s with state := .downloading, timerArmed := true }
  let l := requestLoop rand s.config s.syncStatus from_ to_
    (shardCount s.config from_ to_) s.config.maxShardPerPeer
    { shard := 0
      findPeer := false
      maxRequestNumber := s.maxRequestNumber
      outbox := s.outbox }
  { s with maxRequestNumber := l.maxRequestNumber, outbox := l.outbox }

/-- `requestToNumber` of `tryToRequestBlocks`. -/
def requestToNumber (s : BlockSync P) : ℤ :=
  match s.downloadingQueue.top with
  | none => s.config.knownHighestNumber
  | some topBlock =>
      if s.config.nextBlock < topBlock.number then
        min s.config.knownHighestNumber (topBlock.number - 1)
      else s.config.knownHighestNumber

/-- The early return of `tryToRequestBlocks`: executed blocks wait to be
committed. -/
def waitsForCommit (s : BlockSync P) : Bool :=
  decide (s.config.blockNumber < s.config.executedBlock) &&
    decide (0 < P.size s.downloadingQueue.commitQueue)

def tryToRequestBlocks (rand : ℕ → ℕ → ℕ) (s : BlockSync P) : BlockSync P :=
  if s.waitsForCommit then s
  else
    let s :=
      if s.maxRequestNumber ≤ s.config.blockNumber ∨
          s.maxRequestNumber ≤ s.config.executedBlock then s.downloadFinish
      else s
    if !s.shouldSyncing || s.isSyncing then s
    else
      let s := s.notify
        (.notifyHighestSyncingNumber s.config.knownHighestNumber)
      if s.requestToNumber ≤ s.config.blockNumber then s
      else requestBlocks rand s.config.blockNumber s.requestToNumber s

/-! ## The download task -/

def maintainDownloadingBuffer (createBlock : BlockFactory) (s : BlockSync P) :
    BlockSync P :=
  if s.downloadingQueue.size = 0 then s
  else if !s.shouldSyncing then
    { s with downloadingQueue := s.downloadingQueue.clear }
  else
    { s with
      downloadingQueue :=
        (s.downloadingQueue.clearFullQueueIfNotHas s.config
          s.config.nextBlock).flushBufferToQueue createBlock s.config }

/-- The block `maintainDownloadingQueue` hands to `applyBlock` once the
executed blocks have been popped: the top, if it is the expected one and the
water mark leaves room for it. -/
def expectedTop (s : BlockSync P) : Option Block :=
  match s.downloadingQueue.top with
  | none => none
  | some top =>
      if s.config.blockNumber + waterMark ≤ s.config.executedBlock then none
      else if s.config.executedBlock + 1 < top.number then none
      else if top.number = s.config.executedBlock + 1 then some top
      else none

/-- `maintainDownloadingQueue` up to the choice of the block to execute, when
the node should sync: trigger a commit, pop what has been executed. -/
def prepareExecution (s : BlockSync P) : BlockSync P :=
  let s := tryToCommitBlockToLedger none s
  s.setBlocks (DownloadingQueue.popUpTo s.config.executedBlock
    s.downloadingQueue.blocks)

/-- `maintainDownloadingQueue`. -/
def maintainDownloadingQueue (s : BlockSync P) : BlockSync P :=
  if !s.shouldSyncing then
    { s with downloadingQueue := s.downloadingQueue.clear }.downloadFinish
  else
    let s := s.prepareExecution
    match s.expectedTop with
    | none => s
    | some block =>
        applyBlock block
          { s.setBlocks (P.pop s.downloadingQueue.blocks) with
            state := .downloading }

/-- The download task that `executeWorker` enqueues. -/
def downloadTask (createBlock : BlockFactory) (rand : ℕ → ℕ → ℕ)
    (s : BlockSync P) : BlockSync P :=
  ((s.maintainDownloadingBuffer createBlock).maintainDownloadingQueue).tryToRequestBlocks
    rand

/-- The block the download task hands to `applyBlock`, if it hands one. -/
def appliedBlock (createBlock : BlockFactory) (s : BlockSync P) :
    Option Block :=
  if (s.maintainDownloadingBuffer createBlock).shouldSyncing then
    (s.maintainDownloadingBuffer createBlock).prepareExecution.expectedTop
  else none

/-! ## Messages and notifications -/

def onPeerStatus (nodeID : PublicPtr) (syncMsg : BlockSyncMessage)
    (s : BlockSync P) : BlockSync P :=
  if !s.config.existsInGroup nodeID ∧ syncMsg.number ≤ s.config.blockNumber then
    s
  else
    let updated := SyncPeerStatus.updatePeerStatus nodeID
      (BlockSyncStatus.ofMessage syncMsg) s.syncStatus s.config
    { s with syncStatus := updated.1, config := updated.2 }

def onPeerBlocks (syncMsg : BlockSyncMessage) (s : BlockSync P) :
    BlockSync P :=
  { s with
    downloadingQueue :=
      s.downloadingQueue.push (BlocksMsg.ofMessage syncMsg) s.config }

def onPeerBlocksRequest (nodeID : PublicPtr) (syncMsg : BlockSyncMessage)
    (s : BlockSync P) : BlockSync P :=
  let t :=
    if (s.syncStatus.peerStatus nodeID).isNone ∧ s.config.existsInGroup nodeID
    then s.syncStatus.insertEmptyPeer nodeID
    else s.syncStatus
  match t.peerStatus nodeID with
  | none => s
  | some peer =>
      { s with
        syncStatus := t.replace nodeID.data
          { peer with
            downloadRequests := peer.downloadRequests.push
              s.config.maxDownloadRequestQueueSize syncMsg.number
              (toSize syncMsg.size) } }

/-- `asyncNotifyBlockSyncMessage` on a message that decodes. -/
def asyncNotifyBlockSyncMessage (nodeID : PublicPtr)
    (syncMsg : BlockSyncMessage) (s : BlockSync P) : BlockSync P :=
  if syncMsg.packetType = BlockSyncPacketType.blockStatusPacket then
    s.onPeerStatus nodeID syncMsg
  else if syncMsg.packetType = BlockSyncPacketType.blockRequestPacket then
    s.onPeerBlocksRequest nodeID syncMsg
  else if syncMsg.packetType = BlockSyncPacketType.blockResponsePacket then
    s.onPeerBlocks syncMsg
  else s

def asyncNotifyNewBlock (ledgerConfig : LedgerConfig) (s : BlockSync P) :
    BlockSync P :=
  if s.config.blockNumber < ledgerConfig.blockNumber then
    tryToCommitBlockToLedger none (s.onNewBlock ledgerConfig)
  else s

def asyncNotifyCommittedIndex (number : ℤ) (s : BlockSync P) : BlockSync P :=
  { s with config := { s.config with committedProposalNumber := number } }

def notifyConnectedNodes (nodes : List PublicPtr) (s : BlockSync P) :
    BlockSync P :=
  { s with config := { s.config with connectedNodeList := nodes } }

/-! ## Peers -/

/-- The entries `maintainPeersConnection` deletes. -/
def uncorrelated (c : BlockSyncConfig) (p : PeerStatus) : Bool :=
  if p.nodeId = c.nodeID then false
  else if !c.connected p.nodeId then true
  else !c.existsInGroup p.nodeId && decide (p.number ≤ c.blockNumber)

def maintainPeersConnection (s : BlockSync P) : BlockSync P :=
  if !s.config.existsInGroup s.config.nodeID then s
  else
    let peersToDelete := (s.syncStatus.entries.map fun e => e.2).filter
      (uncorrelated s.config)
    let kept := peersToDelete.foldl
      (fun t p => SyncPeerStatus.deletePeer p.nodeId t) s.syncStatus
    (connectedGroupNodes s.config).foldl
      (fun s node =>
        let updated := SyncPeerStatus.updatePeerStatus s.config.nodeID
          (currentStatus s.config) s.syncStatus s.config
        { s with syncStatus := updated.1, config := updated.2 }.send node
          (.status (currentStatus s.config)))
      { s with syncStatus := kept }

/-! ## The transition system -/

/-- What can happen to the node. -/
inductive Input
  | downloadTask (rand : ℕ → ℕ → ℕ)
  | maintainPeersConnection
  | downloadTimeout
  | syncMessage (nodeID : PublicPtr) (syncMsg : BlockSyncMessage)
  | notifyNewBlock (ledgerConfig : LedgerConfig)
  | notifyCommittedIndex (number : ℤ)
  | notifyConnectedNodes (nodes : List PublicPtr)
  | executeBlockAnswer (block : Block) (answer : Except Error BlockHeader)
      (throws : Option ThrowSite)
  | asyncCheckBlockAnswer (block : Block) (answer : Except Error Bool)
      (throws : Option ThrowSite)
  | asyncStoreTransactionsAnswer (block : Block) (error : Option Error)
      (throws : Option ThrowSite)
  | commitBlockAnswer (block : Block) (answer : Except Error LedgerConfig)
      (throws : Option ThrowSite)

/-- An answer reaches the callback it is for, if that is outstanding. -/
def answer (c : Callback) (callback : BlockSync P → BlockSync P)
    (s : BlockSync P) : Option (BlockSync P) :=
  if c ∈ s.pending then some (callback (s.resolve c)) else none

def step (createBlock : BlockFactory) (s : BlockSync P) :
    Input → Option (BlockSync P)
  | .downloadTask rand => some (s.downloadTask createBlock rand)
  | .maintainPeersConnection => some s.maintainPeersConnection
  | .downloadTimeout => if s.timerArmed then some s.onDownloadTimeout else none
  | .syncMessage nodeID syncMsg =>
      some (s.asyncNotifyBlockSyncMessage nodeID syncMsg)
  | .notifyNewBlock ledgerConfig => some (s.asyncNotifyNewBlock ledgerConfig)
  | .notifyCommittedIndex number => some (s.asyncNotifyCommittedIndex number)
  | .notifyConnectedNodes nodes => some (s.notifyConnectedNodes nodes)
  | .executeBlockAnswer b a throws =>
      s.answer (.executeBlock b) (onExecuteBlock throws b a)
  | .asyncCheckBlockAnswer b a throws =>
      s.answer (.asyncCheckBlock b) (onCheckBlock throws b a)
  | .asyncStoreTransactionsAnswer b e throws =>
      s.answer (.asyncStoreTransactions b) (onStoreTransactions throws b e)
  | .commitBlockAnswer b a throws =>
      s.answer (.commitBlock b) (onCommitBlock throws b a)

/-- The constructor, over a config that has not been initialised. -/
def new (P : BlockQueue) (c : BlockSyncConfig) : BlockSync P where
  config := c
  syncStatus := ∅
  downloadingQueue :=
    { blocks := P.empty, blockBuffer := [], commitQueue := P.empty
      nextPtr := 0 }
  state := .idle
  maxRequestNumber := 0
  timerArmed := false
  pending := []
  outbox := []
  notices := []
  trace := []

/-- The config the constructor makes: nothing is known about the chain, and
the sizes of a request are those nothing sets. -/
structure IsFreshConfig (c : BlockSyncConfig) : Prop where
  blockNumber : c.blockNumber = 0
  nextBlock : c.nextBlock = 0
  executedBlock : c.executedBlock = 0
  knownHighestNumber : c.knownHighestNumber = 0
  knownLatestHash : c.knownLatestHash = HashType.zero
  maxRequestBlocks : c.maxRequestBlocks = 8
  maxShardPerPeer : c.maxShardPerPeer = 2

/-- `init`, with the genesis hash and the ledger config that were fetched. -/
def init (genesisHash : HashType) (ledgerConfig : LedgerConfig)
    (s : BlockSync P) : BlockSync P :=
  { s with config := s.config.setGenesisHash genesisHash }.resetConfig
    ledgerConfig

/-- A node right after `init`. -/
inductive IsInit (P : BlockQueue) : BlockSync P → Prop
  | mk (c : BlockSyncConfig) (genesisHash : HashType)
      (ledgerConfig : LedgerConfig) :
      IsFreshConfig c → IsInit P ((new P c).init genesisHash ledgerConfig)

end BlockSync

/-- The runs of a sync node from `init` on. -/
def nodeSystem (P : BlockQueue) (createBlock : BlockFactory) :
    TransitionSystem (BlockSync P) BlockSync.Input where
  IsInit := BlockSync.IsInit P
  step := BlockSync.step createBlock

/-! ## A node to evaluate -/

namespace Sample

def nodeID : PublicPtr := ⟨0, [0]⟩

def peer : PublicPtr := ⟨1, [1]⟩

def otherPeer : PublicPtr := ⟨2, [2]⟩

/-- Two bytes of block data: the height and the number of transactions. -/
def createBlock : BlockFactory
  | [number, size] =>
      some
        { blockHeader := ⟨number.toNat, HashType.zero, 0⟩
          transactions := List.replicate size.toNat ⟨[], HashType.zero⟩ }
  | _ => none

def ledgerConfig (number : ℤ) : LedgerConfig where
  blockNumber := number
  hash := HashType.zero
  consensusNodeList := [nodeID, peer, otherPeer]
  observerNodeList := []

/-- A node of a group of three, at height 0. -/
def node : BlockSync sortedBlockQueue :=
  (BlockSync.new sortedBlockQueue { nodeID := nodeID }).init HashType.zero
    (ledgerConfig 0)

theorem isInit_node : BlockSync.IsInit sortedBlockQueue node :=
  .mk { nodeID := nodeID } HashType.zero (ledgerConfig 0)
    ⟨rfl, rfl, rfl, rfl, rfl, rfl, rfl⟩

def system : TransitionSystem (BlockSync sortedBlockQueue) BlockSync.Input :=
  nodeSystem sortedBlockQueue createBlock

/-- `peer` reports its height. -/
def status (peer : PublicPtr) (number : ℤ) : BlockSync.Input :=
  .syncMessage peer
    { number := number
      hash := HashType.zero.1
      genesisHash := HashType.zero.1 }

/-- A block packet arrives. -/
def blocks (blocksData : List Bytes) : BlockSync.Input :=
  .syncMessage peer
    { packetType := BlockSyncPacketType.blockResponsePacket
      blocksData := blocksData }

def task : BlockSync.Input := .downloadTask fun _ _ => 0

/-- The block decoded from `[number, size]` as the object `ptr`. -/
def block (ptr number size : ℕ) : Block where
  blockHeader := ⟨number, HashType.zero, 0⟩
  transactions := List.replicate size ⟨[], HashType.zero⟩
  ptr := ptr

/-- The execution of the block succeeds with its own header. -/
def executed (b : Block) : BlockSync.Input :=
  .executeBlockAnswer b (.ok b.blockHeader) none

/-- The check of the block answers. -/
def checked (b : Block) (ok : Bool) : BlockSync.Input :=
  .asyncCheckBlockAnswer b (.ok ok) none

end Sample

end BcosSync
