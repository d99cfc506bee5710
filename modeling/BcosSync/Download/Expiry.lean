import BcosSync.Download.Buffer

/-!
# Expired blocks

A block at or below the chain height is of no use in the block queue or in the
commit queue.  Blocks enter the block queue only if they are newer, a block
whose execution ends too late is removed by the commit trigger that follows,
and `onNewBlock` clears both queues when the height changes.
-/

namespace BcosSync

namespace BlockSync

open DownloadingQueue

variable {P : BlockQueue} {createBlock : BlockFactory}

/-- The blocks of both queues are above the chain. -/
structure Useful (s : BlockSync P) : Prop where
  blocks : ∀ b ∈ s.blocks, s.config.blockNumber < b.number
  commitQueue : ∀ b ∈ s.commitQueue, s.config.blockNumber < b.number

/-- Removing blocks does no harm. -/
theorem Useful.of_subset {s t : BlockSync P} (h : s.Useful)
    (hheights : t.config.heights = s.config.heights)
    (hblocks : t.blocks ⊆ s.blocks)
    (hcommitQueue : t.commitQueue ⊆ s.commitQueue) : t.Useful := by
  have hnumber : t.config.blockNumber = s.config.blockNumber :=
    congrArg Heights.blockNumber hheights
  constructor
  · intro b hb
    rw [hnumber]
    exact h.blocks b (hblocks hb)
  · intro b hb
    rw [hnumber]
    exact h.commitQueue b (hcommitQueue hb)

theorem Useful.of_eq {s t : BlockSync P} (h : s.Useful)
    (hheights : t.config.heights = s.config.heights)
    (hqueue : t.downloadingQueue = s.downloadingQueue) : t.Useful := by
  have hblocks : t.blocks = s.blocks :=
    congrArg (fun q : DownloadingQueue P => P.elems q.blocks) hqueue
  have hcommitQueue : t.commitQueue = s.commitQueue :=
    congrArg (fun q : DownloadingQueue P => P.elems q.commitQueue) hqueue
  refine h.of_subset hheights ?_ ?_
  · rw [hblocks]
    exact Multiset.Subset.refl _
  · rw [hcommitQueue]
    exact Multiset.Subset.refl _

theorem Useful.setExecutedBlock {s : BlockSync P} (h : s.Useful) (n : ℤ) :
    (s.setExecutedBlock n).Useful := by
  have hnumber := BlockSyncConfig.setExecutedBlock_blockNumber n s.config
  constructor
  · intro b hb
    exact hnumber.trans_lt (h.blocks b hb)
  · intro b hb
    exact hnumber.trans_lt (h.commitQueue b hb)

/-! ## New blocks -/

theorem config_onNewBlock (l : LedgerConfig) (s : BlockSync P) :
    (s.onNewBlock l).config = s.config.resetConfig l := by
  obtain ⟨out, hout⟩ := broadcastSyncStatus_eq (s.resetConfig l)
  rw [onNewBlock, hout]
  unfold resetConfig
  split_ifs with hignored
  · exact (BlockSyncConfig.resetConfig_of_ignores hignored).symm
  · rfl

/-- Exactly the blocks up to the new height leave the queues. -/
theorem queues_onNewBlock (l : LedgerConfig) (s : BlockSync P) :
    (s.onNewBlock l).blocks =
        s.blocks.filter
          (fun b => (s.onNewBlock l).config.blockNumber < b.number) ∧
      (s.onNewBlock l).commitQueue =
        s.commitQueue.filter
          (fun b => (s.onNewBlock l).config.blockNumber < b.number) := by
  obtain ⟨out, hout⟩ := broadcastSyncStatus_eq (s.resetConfig l)
  have hqueue : (s.resetConfig l).downloadingQueue = s.downloadingQueue := by
    unfold resetConfig
    split_ifs <;> rfl
  rw [onNewBlock, hout]
  unfold blocks commitQueue
  rw [← hqueue]
  exact ⟨elems_popUpTo _ _, elems_popUpTo _ _⟩

/-- Whatever was in the queues before. -/
theorem useful_onNewBlock (l : LedgerConfig) (s : BlockSync P) :
    (s.onNewBlock l).Useful := by
  obtain ⟨hblocks, hcommitQueue⟩ := queues_onNewBlock l s
  constructor
  · intro b hb
    rw [hblocks] at hb
    exact (Multiset.mem_filter.mp hb).2
  · intro b hb
    rw [hcommitQueue] at hb
    exact (Multiset.mem_filter.mp hb).2

/-! ## Commits -/

/-- A commit trigger leaves no expired block in the commit queue. -/
theorem Useful.tryToCommit {s : BlockSync P}
    (hblocks : ∀ b ∈ s.blocks, s.config.blockNumber < b.number)
    (throws : Option ThrowSite) :
    (tryToCommitBlockToLedger throws s).Useful := by
  let q := popUpTo s.config.blockNumber s.downloadingQueue.commitQueue
  have hunexpired : ∀ b ∈ P.elems q, s.config.blockNumber < b.number := by
    intro b hb
    rw [elems_popUpTo] at hb
    exact (Multiset.mem_filter.mp hb).2
  unfold tryToCommitBlockToLedger
  dsimp only
  split
  · exact ⟨hblocks, hunexpired⟩
  · next b hb =>
      split
      · next hnumber =>
          obtain ⟨pending, trace, heq⟩ := checkAndCommitBlock_eq throws
            (s := (s.setCommitQueue q).setCommitQueue (P.pop q)) hnumber
          change Useful (checkAndCommitBlock throws b
            ((s.setCommitQueue q).setCommitQueue (P.pop q)))
          rw [heq]
          exact ⟨hblocks, fun a ha => hunexpired a (P.mem_of_mem_pop ha)⟩
      · exact ⟨hblocks, hunexpired⟩

/-- The block that is added may be expired. -/
theorem Useful.updateCommitQueue {s : BlockSync P} (h : s.Useful)
    (throws : Option ThrowSite) (b : Block) :
    (updateCommitQueue throws b s).Useful :=
  Useful.tryToCommit (s := s.setCommitQueue
    (P.push s.downloadingQueue.commitQueue b)) h.blocks throws

/-! ## The download task -/

/-- What is flushed is newer than the chain. -/
theorem mem_flushBufferToQueue {c : BlockSyncConfig}
    {q : DownloadingQueue P} {b : Block}
    (hb : b ∈ P.elems (q.flushBufferToQueue createBlock c).blocks) :
    b ∈ P.elems q.blocks ∨ c.blockNumber < b.number := by
  obtain ⟨⟨-, new, hblocks, hnew, -⟩, -⟩ := flushLoop_gains createBlock
    (c := c) q.blockBuffer q
  rw [flushBufferToQueue, hblocks, Multiset.mem_add] at hb
  refine hb.imp_right fun hb => ?_
  have hdata : b.toBlockData ∈ newerDataOf createBlock c
      (takenShards createBlock c (P.size q.blocks) q.blockBuffer) := by
    rw [← Multiset.mem_coe, ← hnew]
    exact Multiset.mem_map_of_mem Block.toBlockData hb
  obtain ⟨shard, -, hshard⟩ := List.mem_flatMap.mp hdata
  obtain ⟨data, -, hdecoded⟩ := List.mem_filterMap.mp hshard
  exact of_decide_eq_true (Option.filter_eq_some_iff.mp hdecoded).2

theorem mem_clearFullQueueIfNotHas {c : BlockSyncConfig} {n : ℤ}
    {q : DownloadingQueue P} {b : Block}
    (hb : b ∈ P.elems (q.clearFullQueueIfNotHas c n).blocks) :
    b ∈ P.elems q.blocks := by
  revert hb
  unfold clearFullQueueIfNotHas
  split
  · exact id
  · split_ifs
    · exact fun hb => absurd hb (P.notMem_empty b)
    · exact id

theorem Useful.flush {s : BlockSync P} (h : s.Useful) :
    (s.maintainDownloadingBuffer createBlock).Useful := by
  have hqueue : (s.maintainDownloadingBuffer createBlock).commitQueue =
      s.commitQueue :=
    congrArg CommitSide.commitQueue
      (commitSide_maintainDownloadingBuffer createBlock s)
  have hconfig := config_maintainDownloadingBuffer createBlock s
  constructor
  · intro b hb
    rw [hconfig]
    revert hb
    unfold maintainDownloadingBuffer
    split_ifs
    · exact h.blocks b
    · exact fun hb => absurd hb (P.notMem_empty b)
    · intro hb
      rcases mem_flushBufferToQueue hb with hold | hnewer
      · exact h.blocks b (mem_clearFullQueueIfNotHas hold)
      · exact hnewer
  · rw [hconfig, hqueue]
    exact h.commitQueue

theorem Useful.applyBlock {s : BlockSync P} (h : s.Useful) (b : Block) :
    (applyBlock b s).Useful := by
  unfold BlockSync.applyBlock
  split_ifs
  · exact h.setExecutedBlock _
  · exact ⟨h.blocks, h.commitQueue⟩

theorem Useful.maintainDownloadingQueue {s : BlockSync P} (h : s.Useful) :
    s.maintainDownloadingQueue.Useful := by
  have hprepared : s.prepareExecution.Useful := by
    refine ⟨fun b hb => ?_, (Useful.tryToCommit h.blocks none).commitQueue⟩
    rw [blocks_prepareExecution] at hb
    rw [config_prepareExecution]
    exact h.blocks b (Multiset.mem_filter.mp hb).1
  unfold BlockSync.maintainDownloadingQueue
  split_ifs
  · exact ⟨fun b hb => absurd hb (P.notMem_empty b), h.commitQueue⟩
  · dsimp only
    split
    · exact hprepared
    · apply Useful.applyBlock
      exact ⟨fun b hb => hprepared.blocks b (P.mem_of_mem_pop hb),
        hprepared.commitQueue⟩

theorem Useful.tryToRequestBlocks {s : BlockSync P} (h : s.Useful)
    (rand : ℕ → ℕ → ℕ) : (s.tryToRequestBlocks rand).Useful := by
  unfold BlockSync.tryToRequestBlocks
  dsimp only
  split_ifs <;> exact h.of_eq rfl rfl

/-! ## Steps -/

theorem Useful.onExecuteBlock {s : BlockSync P} (h : s.Useful)
    (throws : Option ThrowSite) (b : Block) (a : Except Error BlockHeader) :
    (onExecuteBlock throws b a s).Useful := by
  have hlog : (s.log (.executeBlockAnswer b a)).Useful := h.of_eq rfl rfl
  unfold BlockSync.onExecuteBlock
  cases a with
  | error e => exact hlog.setExecutedBlock _
  | ok header =>
      dsimp only
      split_ifs
      · exact (hlog.setExecutedBlock b.number).updateCommitQueue throws b
      · exact hlog.setExecutedBlock _

theorem Useful.onCheckBlock {s : BlockSync P} (h : s.Useful)
    (throws : Option ThrowSite) (b : Block) (a : Except Error Bool) :
    (onCheckBlock throws b a s).Useful := by
  have hlog : (s.log (.asyncCheckBlockAnswer b a)).Useful := h.of_eq rfl rfl
  match a with
  | .error _ => exact hlog.setExecutedBlock _
  | .ok false => exact hlog.setExecutedBlock _
  | .ok true =>
      unfold BlockSync.onCheckBlock commitBlock commitBlockState
        storeTransactions
      split_ifs <;> exact h.of_eq rfl rfl

theorem Useful.onStoreTransactions {s : BlockSync P} (h : s.Useful)
    (throws : Option ThrowSite) (b : Block) (e : Option Error) :
    (onStoreTransactions throws b e s).Useful := by
  have hlog : (s.log (.asyncStoreTransactionsAnswer b e)).Useful :=
    h.of_eq rfl rfl
  cases e with
  | none =>
      unfold BlockSync.onStoreTransactions commitBlockState
      dsimp only
      split_ifs <;> exact h.of_eq rfl rfl
  | some e => exact hlog.setExecutedBlock _

theorem Useful.onCommitBlock {s : BlockSync P} (h : s.Useful)
    (throws : Option ThrowSite) (b : Block) (a : Except Error LedgerConfig) :
    (onCommitBlock throws b a s).Useful := by
  have hlog : (s.log (.commitBlockAnswer b a)).Useful := h.of_eq rfl rfl
  cases a with
  | error e => exact hlog.setExecutedBlock _
  | ok l =>
      unfold BlockSync.onCommitBlock finalizeBlock
      dsimp only
      split_ifs
      · exact h.of_eq rfl rfl
      · exact Useful.tryToCommit (useful_onNewBlock _ _).blocks throws

/-- The step lemma. -/
theorem Useful.step {s t : BlockSync P} {i : Input} (h : s.Useful)
    (hstep : s.step createBlock i = some t) : t.Useful := by
  cases i with
  | downloadTask rand =>
      obtain rfl := Option.some.inj hstep
      exact (h.flush.maintainDownloadingQueue).tryToRequestBlocks rand
  | maintainPeersConnection =>
      obtain rfl := Option.some.inj hstep
      obtain ⟨table, config, out, heq, hheights⟩ := maintainPeersConnection_eq s
      rw [heq]
      exact h.of_eq hheights rfl
  | downloadTimeout =>
      simp only [BlockSync.step] at hstep
      split_ifs at hstep
      obtain rfl := Option.some.inj hstep
      exact h.of_eq rfl rfl
  | syncMessage nodeID syncMsg =>
      obtain rfl := Option.some.inj hstep
      obtain ⟨table, config, buffer, heq, hheights⟩ :=
        syncMessage_eq nodeID syncMsg s
      rw [heq]
      exact h.of_subset hheights (Multiset.Subset.refl _)
        (Multiset.Subset.refl _)
  | notifyNewBlock l =>
      obtain rfl := Option.some.inj hstep
      unfold asyncNotifyNewBlock
      split_ifs
      · exact Useful.tryToCommit (useful_onNewBlock l s).blocks none
      · exact h
  | notifyCommittedIndex number =>
      obtain rfl := Option.some.inj hstep
      exact h.of_eq rfl rfl
  | notifyConnectedNodes nodes =>
      obtain rfl := Option.some.inj hstep
      exact h.of_eq rfl rfl
  | executeBlockAnswer b a throws =>
      obtain ⟨-, rfl⟩ := answer_eq_some.mp hstep
      exact (h.of_eq (t := s.resolve _) rfl rfl).onExecuteBlock throws b a
  | asyncCheckBlockAnswer b a throws =>
      obtain ⟨-, rfl⟩ := answer_eq_some.mp hstep
      exact (h.of_eq (t := s.resolve _) rfl rfl).onCheckBlock throws b a
  | asyncStoreTransactionsAnswer b e throws =>
      obtain ⟨-, rfl⟩ := answer_eq_some.mp hstep
      exact (h.of_eq (t := s.resolve _) rfl rfl).onStoreTransactions throws b e
  | commitBlockAnswer b a throws =>
      obtain ⟨-, rfl⟩ := answer_eq_some.mp hstep
      exact (h.of_eq (t := s.resolve _) rfl rfl).onCommitBlock throws b a

/-- A node after `init` has empty queues. -/
theorem IsInit.useful {s : BlockSync P} (h : IsInit P s) : s.Useful := by
  obtain ⟨c, genesisHash, l, -⟩ := h
  have hqueue : ((new P c).init genesisHash l).downloadingQueue =
      (new P c).downloadingQueue := by
    unfold init resetConfig
    split_ifs <;> rfl
  constructor
  · intro b hb
    unfold blocks at hb
    rw [hqueue] at hb
    exact absurd hb (P.notMem_empty b)
  · intro b hb
    unfold commitQueue at hb
    rw [hqueue] at hb
    exact absurd hb (P.notMem_empty b)

/-! ## The download task call by call -/

/-- What can happen to the node, the three calls of the download task also one
at a time. -/
inductive CallInput
  | input (i : Input)
  | maintainDownloadingBuffer
  | maintainDownloadingQueue
  | tryToRequestBlocks (rand : ℕ → ℕ → ℕ)

def callStep (createBlock : BlockFactory) (s : BlockSync P) :
    CallInput → Option (BlockSync P)
  | .input i => s.step createBlock i
  | .maintainDownloadingBuffer => some (s.maintainDownloadingBuffer createBlock)
  | .maintainDownloadingQueue => some s.maintainDownloadingQueue
  | .tryToRequestBlocks rand => some (s.tryToRequestBlocks rand)

end BlockSync

/-- The runs of a sync node, other steps also between the calls of the
download task. -/
def callSystem (P : BlockQueue) (createBlock : BlockFactory) :
    TransitionSystem (BlockSync P) BlockSync.CallInput where
  IsInit := BlockSync.IsInit P
  step := BlockSync.callStep createBlock

namespace BlockSync

variable {P : BlockQueue} {createBlock : BlockFactory}

/-- The queues of a reachable node hold blocks above the chain only, and
`onNewBlock` removes from any queues exactly the blocks up to the new
height. -/
theorem reachable_useful {s : BlockSync P}
    (hs : (callSystem P createBlock).Reachable s) :
    s.Useful ∧
      ∀ (l : LedgerConfig) (t : BlockSync P),
        (t.onNewBlock l).config = t.config.resetConfig l ∧
        (t.onNewBlock l).blocks =
          t.blocks.filter
            (fun b => (t.onNewBlock l).config.blockNumber < b.number) ∧
        (t.onNewBlock l).commitQueue =
          t.commitQueue.filter
            (fun b => (t.onNewBlock l).config.blockNumber < b.number) := by
  refine ⟨?_, fun l t => ⟨config_onNewBlock l t, queues_onNewBlock l t⟩⟩
  refine hs.invariant (I := Useful) (fun s hs => IsInit.useful hs) ?_
  intro s i t _ h hstep
  cases i with
  | input i => exact h.step hstep
  | maintainDownloadingBuffer =>
      obtain rfl := Option.some.inj hstep
      exact h.flush
  | maintainDownloadingQueue =>
      obtain rfl := Option.some.inj hstep
      exact h.maintainDownloadingQueue
  | tryToRequestBlocks rand =>
      obtain rfl := Option.some.inj hstep
      exact h.tryToRequestBlocks rand

/-- Block 1 is executed and waits for the check, block 2 is in the block
queue. -/
theorem reachable_useful_sample :
    ∃ s, (callSystem sortedBlockQueue Sample.createBlock).Reachable s ∧
      Sample.block 1 2 1 ∈ s.blocks ∧ s.Useful := by
  obtain ⟨s, hrun, hmem⟩ :
      ∃ s, (callSystem sortedBlockQueue Sample.createBlock).exec Sample.node
        [.input (Sample.status Sample.peer 9),
          .input (Sample.blocks [[1, 1], [2, 1]]), .maintainDownloadingBuffer,
          .maintainDownloadingQueue,
          .input (Sample.executed (Sample.block 0 1 1))] = some s ∧
        Sample.block 1 2 1 ∈ s.blocks :=
    ⟨_, rfl, by decide +kernel⟩
  have hreach : (callSystem sortedBlockQueue Sample.createBlock).Reachable s :=
    .of_exec Sample.isInit_node hrun
  exact ⟨s, hreach, hmem, (reachable_useful hreach).1⟩

end BlockSync

end BcosSync
