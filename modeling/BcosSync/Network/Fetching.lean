import BcosSync.Download.Expiry
import BcosSync.Download.Origin
import BcosSync.Download.Timer
import BcosSync.Network.Receiving

/-!
# Fetching one block

A node that holds no blocks and has executed nothing ahead of its chain asks a
peer at the top for the next height.  If this block arrives, and the scheduler,
the consensus module and the ledger do not refuse it, the node ends where it
was, one block further.
-/

namespace BcosSync

open MachineInt SyncPeerStatus

/-- The chain is behind the highest known number, nothing is executed ahead of
it, and the consensus module is not about to close the gap. -/
structure BlockSyncConfig.Behind (c : BlockSyncConfig) : Prop where
  executedBlock : c.executedBlock = c.blockNumber
  nextBlock : c.nextBlock = c.blockNumber + 1
  blockNumber_lt : c.blockNumber < c.knownHighestNumber
  committed_lt : c.committedProposalNumber < c.knownHighestNumber

namespace BlockSync

variable {P : BlockQueue} {createBlock : BlockFactory} {s : BlockSync P}
  {c : BlockSyncConfig} {table : SyncPeerStatus} {b : Block}

/-- The node has the config `c` and the peer table `table`, no blocks in a
queue, and a timer that ends the download, if one is on. -/
structure Rests (c : BlockSyncConfig) (table : SyncPeerStatus)
    (s : BlockSync P) : Prop where
  config : s.config = c
  syncStatus : s.syncStatus = table
  blocks : s.blocks = 0
  blockBuffer : s.downloadingQueue.blockBuffer = []
  commitQueue : s.commitQueue = 0
  wayOut : s.state = .downloading → s.timerArmed = true

theorem shouldSyncing_of_behind (h : s.config.Behind) :
    s.shouldSyncing = true := by
  obtain ⟨hexecuted, -, hlt, hcommitted⟩ := h
  unfold shouldSyncing
  rw [if_neg (by omega), if_neg (by omega), if_neg (by omega)]

theorem top_of_empty (h : s.blocks = 0) : s.downloadingQueue.top = none :=
  P.top_eq_none_iff.mpr h

theorem expectedTop_of_empty (h : s.blocks = 0) : s.expectedTop = none := by
  rw [expectedTop, top_of_empty h]

theorem elems_popUpTo_eq_zero {q : P.Carrier} (h : P.elems q = 0) (n : ℤ) :
    P.elems (DownloadingQueue.popUpTo n q) = 0 := by
  rw [elems_popUpTo, h, Multiset.filter_zero]

theorem tryToCommit_of_empty (throws : Option ThrowSite)
    (h : s.commitQueue = 0) :
    ∃ q, P.elems q = 0 ∧
      tryToCommitBlockToLedger throws s = s.setCommitQueue q := by
  have hempty := elems_popUpTo_eq_zero h s.config.blockNumber
  refine ⟨_, hempty, ?_⟩
  have htop := P.top_eq_none_iff.mpr hempty
  unfold tryToCommitBlockToLedger
  dsimp only [setCommitQueue]
  rw [htop]

/-- The only block that waits is sent to the check, if it is the next one. -/
theorem tryToCommit_of_next (h : s.commitQueue = {b})
    (hnumber : b.number = s.config.nextBlock)
    (hnext : s.config.nextBlock = s.config.blockNumber + 1) :
    ∃ q, P.elems q = 0 ∧
      tryToCommitBlockToLedger none s =
        ((s.setCommitQueue q).log
          (.asyncCheckBlock b s.config.nextBlock)).await
            (.asyncCheckBlock b) := by
  have hpopped : P.elems (DownloadingQueue.popUpTo s.config.blockNumber
      s.downloadingQueue.commitQueue) = {b} := by
    have h : P.elems s.downloadingQueue.commitQueue = {b} := h
    rw [elems_popUpTo, h, Multiset.filter_singleton, if_pos (by omega)]
  generalize hq : DownloadingQueue.popUpTo s.config.blockNumber
    s.downloadingQueue.commitQueue = q at hpopped
  obtain ⟨htop, hrest⟩ := P.top_of_singleton hpopped
  refine ⟨P.pop q, hrest, ?_⟩
  unfold tryToCommitBlockToLedger
  rw [hq]
  dsimp only [setCommitQueue]
  rw [htop]
  dsimp only
  rw [if_pos hnumber]
  unfold checkAndCommitBlock
  rw [if_neg (not_not.mpr hnumber)]
  rfl

theorem prepareExecution_of_empty (h : s.commitQueue = 0) :
    ∃ q, P.elems q = 0 ∧
      s.prepareExecution = (s.setCommitQueue q).setBlocks
        (DownloadingQueue.popUpTo s.config.executedBlock
          s.downloadingQueue.blocks) := by
  obtain ⟨q, hq, hcommit⟩ := tryToCommit_of_empty none h
  refine ⟨q, hq, ?_⟩
  rw [prepareExecution, hcommit]
  rfl

/-- A block that is checked is stored, and committed at once if it is
empty. -/
theorem commitBlock_of_none (b : Block) (s : BlockSync P) :
    ∃ pending trace,
      commitBlock none b s = { s with pending := pending, trace := trace } ∧
        .asyncStoreTransactions b ∈ pending := by
  unfold commitBlock storeTransactions commitBlockState
  simp only [reduceCtorEq, if_false]
  split_ifs
  · exact ⟨_, _, rfl, List.mem_cons_self⟩
  · exact ⟨_, _, rfl, List.mem_cons_self⟩

/-! ## Asking for the next height -/

theorem tryToRequestBlocks_eq (rand : ℕ → ℕ → ℕ) (s : BlockSync P) :
    ∃ state timer notices number outbox,
      s.tryToRequestBlocks rand =
        { s with
          state := state
          timerArmed := timer
          notices := notices
          maxRequestNumber := number
          outbox := outbox } ∧
      (state = .idle ∨ timer = true ∨
        state = s.state ∧ timer = s.timerArmed) := by
  unfold tryToRequestBlocks
  dsimp only
  split_ifs
  · exact ⟨_, _, _, _, _, rfl, .inr (.inr ⟨rfl, rfl⟩)⟩
  · exact ⟨_, _, _, _, _, rfl, .inl rfl⟩
  · exact ⟨_, _, _, _, _, rfl, .inl rfl⟩
  · exact ⟨_, _, _, _, _, rfl, .inr (.inl rfl)⟩
  · exact ⟨_, _, _, _, _, rfl, .inr (.inr ⟨rfl, rfl⟩)⟩
  · exact ⟨_, _, _, _, _, rfl, .inr (.inr ⟨rfl, rfl⟩)⟩
  · exact ⟨_, _, _, _, _, rfl, .inr (.inl rfl)⟩

namespace Rests

/-- Asking for blocks leaves the queues as they are. -/
theorem tryToRequestBlocks (h : s.Rests c table) (rand : ℕ → ℕ → ℕ) :
    (s.tryToRequestBlocks rand).Rests c table := by
  obtain ⟨state, timer, notices, number, outbox, heq, htimer⟩ :=
    tryToRequestBlocks_eq rand s
  rw [heq]
  refine ⟨h.config, h.syncStatus, h.blocks, h.blockBuffer, h.commitQueue, ?_⟩
  intro hstate
  rcases htimer with hidle | harmed | ⟨hsame, hunchanged⟩
  · cases hidle.symm.trans hstate
  · exact harmed
  · exact hunchanged.trans (h.wayOut (hsame.symm.trans hstate))

theorem prepareExecution (h : s.Rests c table) :
    s.prepareExecution.Rests c table ∧
      s.prepareExecution.state = s.state ∧
      s.prepareExecution.expectedTop = none := by
  obtain ⟨q, hq, heq⟩ := prepareExecution_of_empty h.commitQueue
  have hblocks := elems_popUpTo_eq_zero h.blocks s.config.executedBlock
  rw [heq]
  exact ⟨⟨h.config, h.syncStatus, hblocks, h.blockBuffer, hq, h.wayOut⟩, rfl,
    expectedTop_of_empty hblocks⟩

/-- With nothing to execute, the download task goes on to ask for blocks. -/
theorem requestState (createBlock : BlockFactory) (h : s.Rests c table)
    (hc : c.Behind) :
    (s.requestState createBlock).Rests c table ∧
      (s.requestState createBlock).state = s.state := by
  have hsize : s.downloadingQueue.size = 0 := by
    have hblocks : P.elems s.downloadingQueue.blocks = 0 := h.blocks
    rw [DownloadingQueue.size, h.blockBuffer, P.size_eq, hblocks]
    rfl
  have hsync : s.shouldSyncing = true :=
    shouldSyncing_of_behind (h.config.symm ▸ hc)
  obtain ⟨hrests, hstate, htop⟩ := h.prepareExecution
  unfold BlockSync.requestState maintainDownloadingBuffer
    maintainDownloadingQueue
  rw [if_pos hsize, if_neg (by simp [hsync])]
  dsimp only
  rw [htop]
  exact ⟨hrests, hstate⟩

/-- A block that is executed as its header says goes to the check. -/
theorem executed (createBlock : BlockFactory) (h : s.Rests c table)
    (hc : c.Behind) (hb : .executeBlock b ∈ s.pending)
    (hnumber : b.number = c.blockNumber + 1) :
    ∃ t, s.step createBlock
        (.executeBlockAnswer b (.ok b.blockHeader) none) = some t ∧
      t.Rests (c.setExecutedBlock b.number) table ∧
      .asyncCheckBlock b ∈ t.pending := by
  obtain rfl := h.config
  refine ⟨_, answer_eq_some.mpr ⟨hb, rfl⟩, ?_⟩
  have hverified : verifyExecutedBlock b b.blockHeader = true :=
    verifyExecutedBlock_iff.mpr rfl
  unfold onExecuteBlock
  dsimp only
  rw [if_pos hverified, updateCommitQueue]
  set u : BlockSync P := setCommitQueue _ _
  have hnext := hc.nextBlock
  have hconfig : u.config = s.config.setExecutedBlock b.number := rfl
  have hwaiting : u.commitQueue = {b} := by
    change P.elems (P.push s.downloadingQueue.commitQueue b) = {b}
    have hcommit : P.elems s.downloadingQueue.commitQueue = 0 := h.commitQueue
    rw [P.elems_push, hcommit]
    rfl
  obtain ⟨q, hq, heq⟩ := tryToCommit_of_next hwaiting
    (by rw [hconfig, BlockSyncConfig.setExecutedBlock_nextBlock]; omega)
    (by
      rw [hconfig, BlockSyncConfig.setExecutedBlock_nextBlock,
        BlockSyncConfig.setExecutedBlock_blockNumber]
      omega)
  rw [heq]
  exact ⟨⟨hconfig, h.syncStatus, h.blocks, h.blockBuffer, hq, h.wayOut⟩,
    List.mem_cons_self⟩

/-- A block that passes the check is stored. -/
theorem checked (createBlock : BlockFactory) (h : s.Rests c table)
    (hb : .asyncCheckBlock b ∈ s.pending) :
    ∃ t, s.step createBlock (.asyncCheckBlockAnswer b (.ok true) none) =
        some t ∧
      t.Rests c table ∧ .asyncStoreTransactions b ∈ t.pending := by
  refine ⟨_, answer_eq_some.mpr ⟨hb, rfl⟩, ?_⟩
  obtain ⟨pending, trace, heq, hstoring⟩ := commitBlock_of_none b
    ((s.resolve (.asyncCheckBlock b)).log (.asyncCheckBlockAnswer b (.ok true)))
  unfold onCheckBlock
  dsimp only
  rw [heq]
  exact ⟨⟨h.config, h.syncStatus, h.blocks, h.blockBuffer, h.commitQueue,
    h.wayOut⟩, hstoring⟩

/-- A block that is stored is committed. -/
theorem stored (createBlock : BlockFactory) (h : s.Rests c table)
    (hb : .asyncStoreTransactions b ∈ s.pending) :
    ∃ t, s.step createBlock (.asyncStoreTransactionsAnswer b none none) =
        some t ∧
      t.Rests c table ∧ .commitBlock b ∈ t.pending := by
  refine ⟨_, answer_eq_some.mpr ⟨hb, rfl⟩, ?_, List.mem_cons_self⟩
  exact ⟨h.config, h.syncStatus, h.blocks, h.blockBuffer, h.commitQueue,
    h.wayOut⟩

/-- A commit takes the node to the height of the ledger. -/
theorem committed (createBlock : BlockFactory) (h : s.Rests c table)
    (hb : .commitBlock b ∈ s.pending) (l : LedgerConfig) :
    ∃ t, s.step createBlock (.commitBlockAnswer b (.ok l) none) = some t ∧
      t.Rests (c.resetConfig (CommitSide.completedConfig b l)) table := by
  obtain rfl := h.config
  refine ⟨_, answer_eq_some.mpr ⟨hb, rfl⟩, ?_⟩
  let u : BlockSync P := ((s.resolve (.commitBlock b)).log
    (.commitBlockAnswer b (.ok l))).log
      (.newBlockHandler b (CommitSide.completedConfig b l))
  obtain ⟨hblocks, hcommit⟩ :=
    queues_onNewBlock (CommitSide.completedConfig b l) u
  have hside := downloadSide_onNewBlock (CommitSide.completedConfig b l) u
  have hcommit' : (u.onNewBlock
      (CommitSide.completedConfig b l)).commitQueue = 0 := by
    rw [hcommit, show u.commitQueue = 0 from h.commitQueue]
    rfl
  obtain ⟨q, hq, heq⟩ := tryToCommit_of_empty none hcommit'
  have hout : onCommitBlock none b (.ok l) (s.resolve (.commitBlock b)) =
      (u.onNewBlock (CommitSide.completedConfig b l)).setCommitQueue q := heq
  rw [hout]
  refine ⟨config_onNewBlock _ u, (syncStatus_onNewBlock _ u).trans h.syncStatus,
    ?_, (blockBuffer_onNewBlock _ u).trans h.blockBuffer, hq, ?_⟩
  · change (u.onNewBlock (CommitSide.completedConfig b l)).blocks = 0
    rw [hblocks, show u.blocks = 0 from h.blocks]
    rfl
  · have hstate : (u.onNewBlock (CommitSide.completedConfig b l)).state =
        s.state := congrArg DownloadSide.state hside
    have htimer : (u.onNewBlock (CommitSide.completedConfig b l)).timerArmed =
        s.timerArmed := congrArg DownloadSide.timerArmed hside
    exact fun hdown => htimer.trans (h.wayOut (hstate.symm.trans hdown))

end Rests

end BlockSync

end BcosSync
