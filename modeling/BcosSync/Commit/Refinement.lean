import BcosSync.Commit.Model

/-!
# The node refines the commit side

Each function of the node is matched with what it does to the commit side.
The results are `step_commitSide`, by which one input is one
`CommitSide.Step`, and `reachable_invariant`, which carries an invariant of
those steps over to every reachable node.
-/

namespace BcosSync

open BlockSync

variable {P : BlockQueue}

/-! ## Heights -/

theorem BlockSyncConfig.heights_setExecutedBlock (n : ℤ)
    (c : BlockSyncConfig) :
    (c.setExecutedBlock n).heights = c.heights.setExecutedBlock n := by
  simp only [heights, setExecutedBlock_blockNumber,
    setExecutedBlock_nextBlock, setExecutedBlock_executedBlock]
  rfl

theorem BlockSyncConfig.heights_resetConfig (l : LedgerConfig)
    (c : BlockSyncConfig) : (c.resetConfig l).heights = c.heights.reset l := by
  unfold Heights.reset
  by_cases h : c.ignores l
  · rw [resetConfig_of_ignores h, if_pos (by exact h)]
  · rw [if_neg (by exact h)]
    simp only [heights, resetConfig_blockNumber h, resetConfig_nextBlock h,
      resetConfig_executedBlock h]

namespace BlockSync

/-! ## Elementary updates -/

@[simp] theorem commitSide_log (e : Event) (s : BlockSync P) :
    (s.log e).commitSide = s.commitSide.log e := rfl

@[simp] theorem commitSide_await (cb : Callback) (s : BlockSync P) :
    (s.await cb).commitSide = s.commitSide.await cb := rfl

@[simp] theorem commitSide_setCommitQueue (q : P.Carrier) (s : BlockSync P) :
    (s.setCommitQueue q).commitSide =
      { s.commitSide with commitQueue := P.elems q } := rfl

@[simp] theorem commitSide_setExecutedBlock (n : ℤ) (s : BlockSync P) :
    (s.setExecutedBlock n).commitSide = s.commitSide.setExecutedBlock n := by
  simp only [commitSide, setExecutedBlock, CommitSide.setExecutedBlock,
    BlockSyncConfig.heights_setExecutedBlock]
  rfl

theorem commitSide_resolve_log (cb : Callback) (e : Event)
    (s : BlockSync P) :
    ((s.resolve cb).log e).commitSide = s.commitSide.receive cb e := rfl

/-- Nodes that agree on the heights, the commit queue, the callbacks and the
trace have one commit side. -/
theorem commitSide_congr {s t : BlockSync P}
    (hheights : t.config.heights = s.config.heights)
    (hqueue : t.downloadingQueue.commitQueue = s.downloadingQueue.commitQueue)
    (hpending : t.pending = s.pending) (htrace : t.trace = s.trace) :
    t.commitSide = s.commitSide := by
  simp only [commitSide, commitQueue, hheights, hqueue, hpending, htrace]

/-! ## Commits -/

theorem elems_popUpTo (limit : ℤ) (q : P.Carrier) :
    P.elems (DownloadingQueue.popUpTo limit q) =
      (P.elems q).filter fun b => limit < b.number := by
  rw [DownloadingQueue.popUpTo, PriorityQueue.elems_discard]
  · apply Multiset.filter_congr
    intro b _
    simp
  · intro a b hab hb
    simp only [decide_eq_true_eq, Block.Before] at *
    omega

theorem commitSide_checkAndCommitBlock (throws : Option ThrowSite)
    {b : Block} {s : BlockSync P} (hb : b.number = s.config.nextBlock) :
    (checkAndCommitBlock throws b s).commitSide =
      s.commitSide.call throws .asyncCheckBlock b
        (.asyncCheckBlock b s.config.nextBlock) (.asyncCheckBlock b) := by
  unfold checkAndCommitBlock CommitSide.call
  simp only [hb, ne_eq, not_true_eq_false, if_false]
  split_ifs <;> rfl

theorem tryCommit_commitSide (throws : Option ThrowSite) {s : BlockSync P}
    (hnext : s.config.nextBlock = s.config.blockNumber + 1) :
    CommitSide.TryCommit throws s.commitSide
      (tryToCommitBlockToLedger throws s).commitSide := by
  let q := DownloadingQueue.popUpTo s.config.blockNumber
    s.downloadingQueue.commitQueue
  have hq : P.elems q = s.commitSide.unexpired :=
    elems_popUpTo _ _
  have habove : ∀ b ∈ P.elems q, s.config.blockNumber < b.number := by
    intro b hb
    rw [hq] at hb
    exact (Multiset.mem_filter.mp hb).2
  have hidle : (∀ b ∈ s.commitSide.unexpired, b.number ≠ s.config.nextBlock) →
      CommitSide.TryCommit throws s.commitSide
        (s.setCommitQueue q).commitSide := by
    intro hno
    rw [commitSide_setCommitQueue, hq]
    exact .idle hno
  unfold tryToCommitBlockToLedger
  dsimp only
  split
  · next htop =>
      have htop : P.top q = none := htop
      apply hidle
      rw [← hq, P.elems_of_top_none q htop]
      simp
  · next b htop =>
      have htop : P.top q = some b := htop
      by_cases hb : b.number = s.config.nextBlock
      · have hwaiting : s.commitSide.unexpired = b ::ₘ P.elems (P.pop q) := by
          rw [← hq, P.elems_of_top q b htop]
        rw [if_pos (by exact hb),
          commitSide_checkAndCommitBlock throws (by exact hb)]
        exact .check hwaiting hb
      · rw [if_neg (by exact hb)]
        apply hidle
        -- the top is the lowest waiting block and is already too high
        intro a ha
        rw [← hq] at ha
        have hle : b.number ≤ a.number := P.le_of_top q b htop a ha
        have hbabove := habove b (P.mem_of_top htop)
        omega

theorem commitSide_commitBlockState (throws : Option ThrowSite) (b : Block)
    (s : BlockSync P) :
    (commitBlockState throws b s).commitSide =
      s.commitSide.commitBlockState throws b := by
  unfold commitBlockState CommitSide.commitBlockState CommitSide.call
  split_ifs <;> rfl

theorem commitSide_storeTransactions (throws : Option ThrowSite) (b : Block)
    (s : BlockSync P) :
    (storeTransactions throws b s).commitSide =
      s.commitSide.storeTransactions throws b := by
  unfold storeTransactions CommitSide.storeTransactions CommitSide.call
  split_ifs <;> rfl

theorem commitSide_commitBlock (throws : Option ThrowSite) (b : Block)
    (s : BlockSync P) :
    (commitBlock throws b s).commitSide =
      s.commitSide.commitBlock throws b := by
  unfold commitBlock CommitSide.commitBlock
  split_ifs
  · exact commitSide_commitBlockState throws b s
  · rw [commitSide_storeTransactions, commitSide_commitBlockState]
  · rfl
  · exact commitSide_storeTransactions throws b s

/-! ## New blocks -/

theorem commitSide_resetConfig (l : LedgerConfig) (s : BlockSync P) :
    (s.resetConfig l).commitSide = s.commitSide.reset l := by
  have hreset := s.config.heights_resetConfig l
  unfold resetConfig
  by_cases h : s.config.ignores l
  · rw [if_pos h]
    rw [BlockSyncConfig.resetConfig_of_ignores h] at hreset
    simp only [CommitSide.reset, commitSide, ← hreset]
  · rw [if_neg h]
    simp only [CommitSide.reset, commitSide, ← hreset]
    rfl

/-- Sending to a list of nodes changes the outbox only. -/
theorem broadcast_foldl (msg : Packet) (nodes : List PublicPtr) :
    ∀ s : BlockSync P,
      ∃ out, nodes.foldl (fun s node => s.send node msg) s =
        { s with outbox := out } := by
  induction nodes with
  | nil => exact fun s => ⟨s.outbox, rfl⟩
  | cons node nodes ih =>
      intro s
      obtain ⟨out, hout⟩ := ih (s.send node msg)
      exact ⟨out, hout⟩

theorem broadcastSyncStatus_eq (s : BlockSync P) :
    ∃ out, s.broadcastSyncStatus = { s with outbox := out } :=
  broadcast_foldl _ _ s

theorem commitSide_onNewBlock (l : LedgerConfig) (s : BlockSync P) :
    (s.onNewBlock l).commitSide = s.commitSide.advance l := by
  obtain ⟨out, hout⟩ := broadcastSyncStatus_eq (s.resetConfig l)
  rw [onNewBlock, hout, CommitSide.advance, ← commitSide_resetConfig]
  simp only [clearExpiredQueueCache, commitSide, commitQueue,
    CommitSide.unexpired, elems_popUpTo]
  rfl

/-! ## Functions that leave the commit side alone -/

theorem flushOneShard_commitQueue (createBlock : BlockFactory)
    (c : BlockSyncConfig) (msg : BlocksMsg) (q : DownloadingQueue P) :
    (q.flushOneShard createBlock c msg).2.commitQueue = q.commitQueue := by
  have hdata : ∀ (datas : List Bytes) (q : DownloadingQueue P),
      (datas.foldl (fun q data => q.flushBlockData createBlock c data)
        q).commitQueue = q.commitQueue := by
    intro datas
    induction datas with
    | nil => exact fun _ => rfl
    | cons data datas ih =>
        intro q
        rw [List.foldl_cons, ih]
        unfold DownloadingQueue.flushBlockData
        split
        · rfl
        · dsimp only
          split <;> rfl
  unfold DownloadingQueue.flushOneShard
  split
  · rfl
  · exact hdata msg.blocksData q

theorem flushLoop_commitQueue (createBlock : BlockFactory)
    (c : BlockSyncConfig) (shards : List BlocksMsg) :
    ∀ q : DownloadingQueue P,
      (DownloadingQueue.flushLoop createBlock c shards q).commitQueue =
        q.commitQueue := by
  induction shards with
  | nil => exact fun _ => rfl
  | cons shard rest ih =>
      intro q
      have hshard := flushOneShard_commitQueue createBlock c shard q
      rw [DownloadingQueue.flushLoop]
      split
      · next q' hq =>
          rw [ih, ← hshard, hq]
      · next q' hq =>
          rw [← hshard, hq]

theorem clearFullQueueIfNotHas_commitQueue (c : BlockSyncConfig)
    (blockNumber : ℤ) (q : DownloadingQueue P) :
    (q.clearFullQueueIfNotHas c blockNumber).commitQueue = q.commitQueue := by
  unfold DownloadingQueue.clearFullQueueIfNotHas
  split
  · rfl
  · split <;> rfl

theorem commitSide_maintainDownloadingBuffer (createBlock : BlockFactory)
    (s : BlockSync P) :
    (s.maintainDownloadingBuffer createBlock).commitSide = s.commitSide := by
  unfold maintainDownloadingBuffer
  split_ifs
  · rfl
  · rfl
  · refine commitSide_congr rfl ?_ rfl rfl
    exact (flushLoop_commitQueue _ _ _ _).trans
      (clearFullQueueIfNotHas_commitQueue _ _ _)

theorem commitSide_tryToRequestBlocks (rand : ℕ → ℕ → ℕ) (s : BlockSync P) :
    (s.tryToRequestBlocks rand).commitSide = s.commitSide := by
  unfold tryToRequestBlocks
  dsimp only
  split_ifs <;> rfl

theorem heights_updatePeerStatus (peer : PublicPtr)
    (status : BlockSyncStatus) (t : SyncPeerStatus) (c : BlockSyncConfig) :
    (SyncPeerStatus.updatePeerStatus peer status t c).2.heights =
      c.heights := by
  obtain ⟨number, hash, heq⟩ :=
    SyncPeerStatus.updatePeerStatus_config peer status t c
  rw [heq]
  rfl

/-- A sync message can change the peer table, the config outside the heights
and the block buffer. -/
theorem syncMessage_eq (nodeID : PublicPtr) (syncMsg : BlockSyncMessage)
    (s : BlockSync P) :
    ∃ table config buffer,
      s.asyncNotifyBlockSyncMessage nodeID syncMsg =
        { s with
          syncStatus := table
          config := config
          downloadingQueue :=
            { s.downloadingQueue with blockBuffer := buffer } } ∧
      config.heights = s.config.heights := by
  unfold asyncNotifyBlockSyncMessage
  split_ifs
  · unfold onPeerStatus
    split_ifs
    · exact ⟨s.syncStatus, s.config, _, rfl, rfl⟩
    · exact ⟨_, _, _, rfl, heights_updatePeerStatus _ _ _ _⟩
  · unfold onPeerBlocksRequest
    dsimp only
    split
    · exact ⟨s.syncStatus, s.config, _, rfl, rfl⟩
    · exact ⟨_, s.config, _, rfl, rfl⟩
  · unfold onPeerBlocks DownloadingQueue.push
    split
    · exact ⟨s.syncStatus, s.config, _, rfl, rfl⟩
    · exact ⟨s.syncStatus, s.config, _, rfl, rfl⟩
  · exact ⟨s.syncStatus, s.config, _, rfl, rfl⟩

/-- Maintaining the peers can change the peer table, the config outside the
heights and the outbox. -/
theorem maintainPeersConnection_eq (s : BlockSync P) :
    ∃ table config out,
      s.maintainPeersConnection =
        { s with syncStatus := table, config := config, outbox := out } ∧
      config.heights = s.config.heights := by
  have hfold : ∀ (nodes : List PublicPtr) (t : BlockSync P),
      ∃ table config out,
        nodes.foldl
          (fun s node =>
            let updated := SyncPeerStatus.updatePeerStatus s.config.nodeID
              (currentStatus s.config) s.syncStatus s.config
            { s with syncStatus := updated.1, config := updated.2 }.send node
              (.status (currentStatus s.config))) t =
          { t with syncStatus := table, config := config, outbox := out } ∧
        config.heights = t.config.heights := by
    intro nodes
    induction nodes with
    | nil => exact fun t => ⟨_, _, _, rfl, rfl⟩
    | cons node nodes ih =>
        intro t
        rw [List.foldl_cons]
        obtain ⟨table, config, out, heq, hheights⟩ := ih _
        exact ⟨table, config, out, heq,
          hheights.trans (heights_updatePeerStatus _ _ _ _)⟩
  unfold maintainPeersConnection
  split
  · exact ⟨s.syncStatus, s.config, s.outbox, rfl, rfl⟩
  · obtain ⟨table, config, out, heq, hheights⟩ := hfold _ _
    exact ⟨table, config, out, heq, hheights⟩

theorem commitSide_syncMessage (nodeID : PublicPtr)
    (syncMsg : BlockSyncMessage) (s : BlockSync P) :
    (s.asyncNotifyBlockSyncMessage nodeID syncMsg).commitSide =
      s.commitSide := by
  obtain ⟨table, config, buffer, heq, hheights⟩ :=
    syncMessage_eq nodeID syncMsg s
  rw [heq]
  exact commitSide_congr hheights rfl rfl rfl

theorem commitSide_maintainPeersConnection (s : BlockSync P) :
    s.maintainPeersConnection.commitSide = s.commitSide := by
  obtain ⟨table, config, out, heq, hheights⟩ := maintainPeersConnection_eq s
  rw [heq]
  exact commitSide_congr hheights rfl rfl rfl

/-! ## The download task -/

/-- A check of the next block logs and may await, nothing else. -/
theorem checkAndCommitBlock_eq (throws : Option ThrowSite) {b : Block}
    {s : BlockSync P} (hb : b.number = s.config.nextBlock) :
    ∃ pending trace, checkAndCommitBlock throws b s =
      { s with pending := pending, trace := trace } := by
  unfold checkAndCommitBlock
  rw [if_neg (not_not.mpr hb)]
  dsimp only
  split
  · exact ⟨s.pending, _, rfl⟩
  · exact ⟨_, _, rfl⟩

theorem commitBlockState_eq (throws : Option ThrowSite) (b : Block)
    (s : BlockSync P) :
    ∃ pending trace, commitBlockState throws b s =
      { s with pending := pending, trace := trace } := by
  unfold commitBlockState
  dsimp only
  split_ifs
  · exact ⟨s.pending, _, rfl⟩
  · exact ⟨_, _, rfl⟩

theorem storeTransactions_eq (throws : Option ThrowSite) (b : Block)
    (s : BlockSync P) :
    ∃ pending trace, storeTransactions throws b s =
      { s with pending := pending, trace := trace } := by
  unfold storeTransactions
  dsimp only
  split_ifs
  · exact ⟨s.pending, _, rfl⟩
  · exact ⟨_, _, rfl⟩

/-- Storing and committing a block changes the callbacks and the trace. -/
theorem commitBlock_eq (throws : Option ThrowSite) (b : Block)
    (s : BlockSync P) :
    ∃ pending trace, commitBlock throws b s =
      { s with pending := pending, trace := trace } := by
  unfold commitBlock
  split_ifs
  · exact commitBlockState_eq throws b s
  · -- an empty block is committed first and stored afterwards
    obtain ⟨pending, trace, hcommit⟩ := commitBlockState_eq throws b s
    dsimp only
    rw [hcommit]
    exact storeTransactions_eq throws b _
  · exact ⟨s.pending, _, rfl⟩
  · exact storeTransactions_eq throws b s

/-- A commit trigger changes the commit queue, the callbacks and the trace. -/
theorem tryToCommit_eq (throws : Option ThrowSite) (s : BlockSync P) :
    ∃ q pending trace, tryToCommitBlockToLedger throws s =
      { s.setCommitQueue q with pending := pending, trace := trace } := by
  unfold tryToCommitBlockToLedger
  dsimp only
  split
  · exact ⟨DownloadingQueue.popUpTo s.config.blockNumber
      s.downloadingQueue.commitQueue, s.pending, s.trace, rfl⟩
  · next b hb =>
      split
      · next hnumber =>
          obtain ⟨pending, trace, heq⟩ :=
            checkAndCommitBlock_eq throws (b := b)
              (s := (s.setCommitQueue _).setCommitQueue
                (P.pop (DownloadingQueue.popUpTo s.config.blockNumber
                  s.downloadingQueue.commitQueue))) hnumber
          exact ⟨_, pending, trace, heq⟩
      · exact ⟨DownloadingQueue.popUpTo s.config.blockNumber
          s.downloadingQueue.commitQueue, s.pending, s.trace, rfl⟩

theorem prepareExecution_eq (s : BlockSync P) :
    ∃ q pending trace, s.prepareExecution =
      { (s.setCommitQueue q).setBlocks
          (DownloadingQueue.popUpTo s.config.executedBlock
            s.downloadingQueue.blocks) with
        pending := pending, trace := trace } := by
  obtain ⟨q, pending, trace, heq⟩ := tryToCommit_eq none s
  refine ⟨q, pending, trace, ?_⟩
  rw [prepareExecution, heq]
  rfl

@[simp] theorem config_prepareExecution (s : BlockSync P) :
    s.prepareExecution.config = s.config := by
  obtain ⟨q, pending, trace, heq⟩ := prepareExecution_eq s
  rw [heq]
  rfl

theorem blocks_prepareExecution (s : BlockSync P) :
    s.prepareExecution.blocks =
      s.blocks.filter fun b => s.config.executedBlock < b.number := by
  obtain ⟨q, pending, trace, heq⟩ := prepareExecution_eq s
  rw [heq]
  exact elems_popUpTo _ _

theorem maintainDownloadingBuffer_eq (createBlock : BlockFactory)
    (s : BlockSync P) :
    ∃ q, s.maintainDownloadingBuffer createBlock =
      { s with downloadingQueue := q } := by
  unfold maintainDownloadingBuffer
  split_ifs
  · exact ⟨_, rfl⟩
  · exact ⟨_, rfl⟩
  · exact ⟨_, rfl⟩

@[simp] theorem config_maintainDownloadingBuffer (createBlock : BlockFactory)
    (s : BlockSync P) :
    (s.maintainDownloadingBuffer createBlock).config = s.config := by
  obtain ⟨q, heq⟩ := maintainDownloadingBuffer_eq createBlock s
  rw [heq]

theorem expectedTop_eq_some {s : BlockSync P} {b : Block} :
    s.expectedTop = some b ↔
      P.top s.downloadingQueue.blocks = some b ∧
        s.config.executedBlock < s.config.blockNumber + waterMark ∧
        b.number = s.config.executedBlock + 1 := by
  unfold expectedTop DownloadingQueue.top
  cases P.top s.downloadingQueue.blocks with
  | none => simp
  | some top =>
      dsimp only
      split_ifs with hmark hgap hnumber
      · simp only [false_iff]
        rintro ⟨-, hlt, -⟩
        omega
      · simp only [false_iff, Option.some.injEq]
        rintro ⟨rfl, -, hb⟩
        omega
      · simp only [Option.some.injEq]
        constructor
        · rintro rfl
          exact ⟨rfl, by omega, hnumber⟩
        · exact fun h => h.1
      · simp only [false_iff, Option.some.injEq]
        rintro ⟨rfl, -, hb⟩
        exact hnumber hb

/-- What is known of a block the download task hands to `applyBlock`. -/
theorem appliedBlock_spec {createBlock : BlockFactory} {s : BlockSync P}
    {b : Block} (hordered : s.commitSide.Ordered)
    (hb : s.appliedBlock createBlock = some b) :
    s.commitSide.Expects b ∧
      b ∈ (s.maintainDownloadingBuffer createBlock).blocks := by
  unfold appliedBlock at hb
  split at hb
  · obtain ⟨htop, hlt, hnumber⟩ := expectedTop_eq_some.mp hb
    simp only [config_prepareExecution, config_maintainDownloadingBuffer]
      at hlt hnumber
    have hle : s.config.blockNumber ≤ s.config.executedBlock :=
      hordered.blockNumber_le
    refine ⟨⟨hnumber, hlt, ?_⟩, ?_⟩
    · change s.config.blockNumber < b.number
      omega
    · have hmem : b ∈ (s.maintainDownloadingBuffer
          createBlock).prepareExecution.blocks := P.mem_of_top htop
      rw [blocks_prepareExecution] at hmem
      exact (Multiset.mem_filter.mp hmem).1
  · cases hb

theorem commitSide_applyBlock {b : Block} {s : BlockSync P}
    (hb : s.config.blockNumber < b.number) :
    (applyBlock b s).commitSide =
      (s.commitSide.log (.executeBlock b)).await (.executeBlock b) := by
  unfold applyBlock
  rw [if_neg (not_le.mpr hb)]
  rfl

/-- A download task that hands on no block triggers a commit at most; one
that hands on a block triggers a commit and starts the execution. -/
theorem downloadTask_cases (createBlock : BlockFactory)
    (rand : ℕ → ℕ → ℕ) {s : BlockSync P}
    (hordered : s.commitSide.Ordered) :
    (s.shouldSyncing = false ∧ s.appliedBlock createBlock = none ∧
      (s.downloadTask createBlock rand).commitSide = s.commitSide) ∨
    ∃ d, s.shouldSyncing = true ∧ CommitSide.TryCommit none s.commitSide d ∧
      (s.downloadTask createBlock rand).commitSide =
        match s.appliedBlock createBlock with
        | none => d
        | some b => (d.log (.executeBlock b)).await (.executeBlock b) := by
  have hbuffer := commitSide_maintainDownloadingBuffer createBlock s
  have hsame : (s.maintainDownloadingBuffer createBlock).shouldSyncing =
      s.shouldSyncing := by
    simp only [shouldSyncing, config_maintainDownloadingBuffer]
  have happlied : s.appliedBlock createBlock =
      if s.shouldSyncing then
        (s.maintainDownloadingBuffer createBlock).prepareExecution.expectedTop
      else none := by
    rw [appliedBlock, hsame]
  rw [downloadTask, commitSide_tryToRequestBlocks]
  unfold maintainDownloadingQueue
  rw [hsame]
  by_cases hsync : s.shouldSyncing = true
  · rw [if_pos hsync] at happlied
    rw [if_neg (by simp [hsync])]
    refine .inr ⟨(s.maintainDownloadingBuffer
      createBlock).prepareExecution.commitSide, hsync, ?_, ?_⟩
    · have hnext := hordered.nextBlock_eq
      rw [← hbuffer] at hnext ⊢
      exact tryCommit_commitSide none hnext
    · dsimp only
      rw [happlied]
      cases htop : (s.maintainDownloadingBuffer
          createBlock).prepareExecution.expectedTop with
      | none => rfl
      | some b =>
          have hexpects :=
            (appliedBlock_spec hordered (happlied.trans htop)).1
          have hlt : s.config.blockNumber < b.number :=
            hexpects.blockNumber_lt
          dsimp only
          rw [commitSide_applyBlock]
          · rfl
          · simpa [setBlocks] using hlt
  · rw [if_neg hsync] at happlied
    rw [if_pos (by simp [hsync])]
    exact .inl ⟨by simpa using hsync, happlied, hbuffer⟩

theorem downloadTask_commitSide (createBlock : BlockFactory)
    (rand : ℕ → ℕ → ℕ) {s : BlockSync P}
    (hordered : s.commitSide.Ordered) :
    CommitSide.Step s.commitSide (.downloadTask rand)
      (s.downloadTask createBlock rand).commitSide := by
  rcases downloadTask_cases createBlock rand hordered with
    ⟨-, -, hsame⟩ | ⟨d, -, htry, htask⟩
  · rw [hsame]
    exact .quiet trivial
  · cases happlied : s.appliedBlock createBlock with
    | none =>
        rw [htask, happlied]
        exact .task htry
    | some b =>
        rw [htask, happlied]
        exact .taskApply htry (appliedBlock_spec hordered happlied).1

/-! ## The callbacks -/

theorem updateCommitQueue_commitSide (throws : Option ThrowSite) (b : Block)
    {s : BlockSync P} (hordered : s.commitSide.Ordered) :
    CommitSide.TryCommit throws (s.commitSide.enqueue b)
      (updateCommitQueue throws b s).commitSide := by
  have hpush : (s.setCommitQueue
      (P.push s.downloadingQueue.commitQueue b)).commitSide =
        s.commitSide.enqueue b := by
    rw [commitSide_setCommitQueue, P.elems_push]
    rfl
  rw [← hpush]
  exact tryCommit_commitSide throws hordered.nextBlock_eq

theorem onExecuteBlock_commitSide (throws : Option ThrowSite) (b : Block)
    (a : Except Error BlockHeader) {s : BlockSync P}
    (hordered : s.commitSide.Ordered)
    (hmem : Callback.executeBlock b ∈ s.pending) :
    CommitSide.Step s.commitSide (.executeBlockAnswer b a throws)
      (onExecuteBlock throws b a (s.resolve (.executeBlock b))).commitSide := by
  have hfailed : (∀ header, a = .ok header → b.hash ≠ header.hash) →
      CommitSide.Step s.commitSide (.executeBlockAnswer b a throws)
        (((s.resolve (.executeBlock b)).log
          (.executeBlockAnswer b a)).setExecutedBlock
            s.config.blockNumber).commitSide := by
    intro hhash
    rw [commitSide_setExecutedBlock, commitSide_resolve_log]
    exact .executeFailed hmem hhash
  cases a with
  | error e => exact hfailed (by simp)
  | ok header =>
      by_cases hhash : b.hash = header.hash
      · have heq : onExecuteBlock throws b (.ok header)
            (s.resolve (.executeBlock b)) =
              updateCommitQueue throws b
                (((s.resolve (.executeBlock b)).log
                  (.executeBlockAnswer b (.ok header))).setExecutedBlock
                    b.number) :=
          if_pos (verifyExecutedBlock_iff.mpr hhash)
        rw [heq]
        refine .executed hmem hhash ?_
        rw [← commitSide_resolve_log, ← commitSide_setExecutedBlock]
        apply updateCommitQueue_commitSide
        rw [commitSide_setExecutedBlock]
        exact hordered.setExecutedBlock _
      · have heq : onExecuteBlock throws b (.ok header)
            (s.resolve (.executeBlock b)) =
              ((s.resolve (.executeBlock b)).log
                (.executeBlockAnswer b (.ok header))).setExecutedBlock
                  s.config.blockNumber :=
          if_neg (verifyExecutedBlock_iff.not.mpr hhash)
        rw [heq]
        refine hfailed ?_
        rintro header' ⟨rfl⟩
        exact hhash

theorem onCheckBlock_commitSide (throws : Option ThrowSite) (b : Block)
    (a : Except Error Bool) {s : BlockSync P}
    (hmem : Callback.asyncCheckBlock b ∈ s.pending) :
    CommitSide.Step s.commitSide (.asyncCheckBlockAnswer b a throws)
      (onCheckBlock throws b a
        (s.resolve (.asyncCheckBlock b))).commitSide := by
  have hfailed : a ≠ .ok true →
      CommitSide.Step s.commitSide (.asyncCheckBlockAnswer b a throws)
        (((s.resolve (.asyncCheckBlock b)).log
          (.asyncCheckBlockAnswer b a)).setExecutedBlock
            (b.number - 1)).commitSide := by
    intro ha
    rw [commitSide_setExecutedBlock, commitSide_resolve_log]
    exact .checkFailed hmem ha
  match a with
  | .error _ => exact hfailed (by simp)
  | .ok false => exact hfailed (by simp)
  | .ok true =>
      rw [onCheckBlock, commitSide_commitBlock, commitSide_resolve_log]
      exact .checked hmem

theorem onStoreTransactions_commitSide (throws : Option ThrowSite) (b : Block)
    (e : Option Error) {s : BlockSync P}
    (hmem : Callback.asyncStoreTransactions b ∈ s.pending) :
    CommitSide.Step s.commitSide (.asyncStoreTransactionsAnswer b e throws)
      (onStoreTransactions throws b e
        (s.resolve (.asyncStoreTransactions b))).commitSide := by
  cases e with
  | none =>
      rw [onStoreTransactions, commitSide_commitBlockState,
        commitSide_resolve_log]
      exact .stored hmem
  | some e =>
      rw [onStoreTransactions, commitSide_setExecutedBlock,
        commitSide_resolve_log]
      exact .storeFailed hmem

theorem onCommitBlock_commitSide (throws : Option ThrowSite) (b : Block)
    (a : Except Error LedgerConfig) {s : BlockSync P}
    (hordered : s.commitSide.Ordered)
    (hmem : Callback.commitBlock b ∈ s.pending) :
    CommitSide.Step s.commitSide (.commitBlockAnswer b a throws)
      (onCommitBlock throws b a (s.resolve (.commitBlock b))).commitSide := by
  cases a with
  | error e =>
      rw [onCommitBlock, commitSide_setExecutedBlock, commitSide_resolve_log]
      exact .commitFailed hmem
  | ok l =>
      rw [onCommitBlock]
      dsimp only [finalizeBlock]
      by_cases hthrows : throws = some .newBlockHandler
      · subst hthrows
        rw [if_pos rfl, commitSide_log, commitSide_log, commitSide_resolve_log]
        exact .handlerThrew hmem
      · rw [if_neg hthrows]
        refine .committed hmem hthrows ?_
        rw [← commitSide_resolve_log, ← commitSide_log,
          ← commitSide_onNewBlock]
        apply tryCommit_commitSide
        have hreset : (((s.resolve (.commitBlock b)).log
            (.commitBlockAnswer b (.ok l))).log
              (.newBlockHandler b (CommitSide.completedConfig b l))
          |>.onNewBlock (CommitSide.completedConfig b l)).commitSide.Ordered := by
          rw [commitSide_onNewBlock]
          exact hordered.reset _
        exact hreset.nextBlock_eq

/-! ## The refinement -/

theorem asyncNotifyNewBlock_commitSide (l : LedgerConfig) {s : BlockSync P}
    (hordered : s.commitSide.Ordered) :
    CommitSide.Step s.commitSide (.notifyNewBlock l)
      (s.asyncNotifyNewBlock l).commitSide := by
  unfold asyncNotifyNewBlock
  split_ifs with hnumber
  · refine .newBlock hnumber ?_
    rw [← commitSide_onNewBlock]
    apply tryCommit_commitSide
    have hreset : (s.onNewBlock l).commitSide.Ordered := by
      rw [commitSide_onNewBlock]
      exact hordered.reset l
    exact hreset.nextBlock_eq
  · exact .quiet (not_lt.mp hnumber)

theorem answer_eq_some {cb : Callback} {f : BlockSync P → BlockSync P}
    {s t : BlockSync P} :
    s.answer cb f = some t ↔ cb ∈ s.pending ∧ f (s.resolve cb) = t := by
  unfold answer
  split_ifs with hmem <;> simp [hmem]

/-- One input to the node is one transition of its commit side. -/
theorem step_commitSide {createBlock : BlockFactory} {s t : BlockSync P}
    {i : Input} (hordered : s.commitSide.Ordered)
    (hstep : s.step createBlock i = some t) :
    CommitSide.Step s.commitSide i t.commitSide := by
  cases i with
  | downloadTask rand =>
      obtain rfl := Option.some.inj hstep
      exact downloadTask_commitSide createBlock rand hordered
  | maintainPeersConnection =>
      obtain rfl := Option.some.inj hstep
      rw [commitSide_maintainPeersConnection]
      exact .quiet trivial
  | downloadTimeout =>
      simp only [step] at hstep
      split_ifs at hstep
      obtain rfl := Option.some.inj hstep
      exact .quiet trivial
  | syncMessage nodeID syncMsg =>
      obtain rfl := Option.some.inj hstep
      rw [commitSide_syncMessage]
      exact .quiet trivial
  | notifyNewBlock l =>
      obtain rfl := Option.some.inj hstep
      exact asyncNotifyNewBlock_commitSide l hordered
  | notifyCommittedIndex number =>
      obtain rfl := Option.some.inj hstep
      exact .quiet trivial
  | notifyConnectedNodes nodes =>
      obtain rfl := Option.some.inj hstep
      exact .quiet trivial
  | executeBlockAnswer b a throws =>
      obtain ⟨hmem, rfl⟩ := answer_eq_some.mp hstep
      exact onExecuteBlock_commitSide throws b a hordered hmem
  | asyncCheckBlockAnswer b a throws =>
      obtain ⟨hmem, rfl⟩ := answer_eq_some.mp hstep
      exact onCheckBlock_commitSide throws b a hmem
  | asyncStoreTransactionsAnswer b e throws =>
      obtain ⟨hmem, rfl⟩ := answer_eq_some.mp hstep
      exact onStoreTransactions_commitSide throws b e hmem
  | commitBlockAnswer b a throws =>
      obtain ⟨hmem, rfl⟩ := answer_eq_some.mp hstep
      exact onCommitBlock_commitSide throws b a hordered hmem

/-- The commit side right after `init`. -/
theorem IsInit.commitSide_eq {s : BlockSync P} (h : IsInit P s) :
    s.commitSide =
      { blockNumber := s.config.blockNumber
        nextBlock := s.config.blockNumber + 1
        executedBlock := max 0 s.config.blockNumber
        commitQueue := 0
        pending := []
        trace := [] } := by
  obtain ⟨c, genesisHash, l, hfresh⟩ := h
  have hheights : (c.setGenesisHash genesisHash).heights = ⟨0, 0, 0⟩ := by
    unfold BlockSyncConfig.setGenesisHash
    dsimp only
    split <;> simp [BlockSyncConfig.heights,
      BlockSyncConfig.setKnownLatestHash, hfresh.blockNumber,
      hfresh.nextBlock, hfresh.executedBlock]
  have hreset : Heights.reset l ⟨0, 0, 0⟩ =
      ⟨l.blockNumber, l.blockNumber + 1, max 0 l.blockNumber⟩ :=
    if_neg (by simp)
  have hside : ((new P c).init genesisHash l).commitSide =
      { toHeights := ⟨l.blockNumber, l.blockNumber + 1, max 0 l.blockNumber⟩
        commitQueue := 0, pending := [], trace := [] } := by
    rw [init, commitSide_resetConfig]
    simp only [CommitSide.reset, commitSide, new, hheights, hreset,
      commitQueue, P.elems_empty]
  have hnumber : ((new P c).init genesisHash l).config.blockNumber =
      l.blockNumber := congrArg (fun d => d.toHeights.blockNumber) hside
  rw [hside, hnumber]

theorem IsInit.ordered {s : BlockSync P} (h : IsInit P s) :
    s.commitSide.Ordered := by
  rw [h.commitSide_eq]
  exact ⟨rfl, le_max_right _ _⟩

/-- An invariant of the commit side, as one of the node. -/
def CommitInvariant (I : CommitSide → Prop) (s : BlockSync P) : Prop :=
  s.commitSide.Ordered ∧ I s.commitSide

/-- What the transitions of the commit side preserve, those of the node
preserve. -/
theorem CommitInvariant.step {A : Input → Prop} {I : CommitSide → Prop}
    (hinv : ∀ c i d, A i → c.Ordered → I c → CommitSide.Step c i d → I d)
    {createBlock : BlockFactory} (s : BlockSync P) (i : Input)
    (t : BlockSync P) (hA : A i) (hs : s.CommitInvariant I)
    (hstep : s.step createBlock i = some t) : t.CommitInvariant I := by
  have hside := step_commitSide hs.1 hstep
  exact ⟨hside.ordered hs.1, hinv _ i _ hA hs.1 hs.2 hside⟩

/-- An invariant of the commit side that holds of the empty pipelines holds
of every reachable node. -/
theorem reachable_invariant {A : Input → Prop} {I : CommitSide → Prop}
    (hinit : ∀ h : Heights, I
      { toHeights := h, commitQueue := 0, pending := [], trace := [] })
    (hinv : ∀ c i d, A i → c.Ordered → I c → CommitSide.Step c i d → I d)
    {createBlock : BlockFactory} {s : BlockSync P}
    (hs : (nodeSystem P createBlock).ReachableBy A s) :
    s.CommitInvariant I := by
  refine hs.invariant ?_ (CommitInvariant.step hinv)
  intro s hs
  refine ⟨hs.ordered, ?_⟩
  rw [hs.commitSide_eq]
  exact hinit _

end BlockSync

end BcosSync
