import BcosSync.Commit.Gap
import BcosSync.Commit.Identity

/-!
# Where the blocks of a node come from

A node does not make up a block.  Whatever it has in a queue, executes or
commits was decoded from block data of a packet that it received.
-/

namespace BcosSync

open BlockSync CommitSide

/-- The block was decoded from data with property `Q`. -/
def Decodes (createBlock : BlockFactory) (Q : Bytes → Prop) (b : Block) :
    Prop :=
  ∃ data, Q data ∧ createBlock data = some b.toBlockData

/-! ## Past the block queue -/

namespace CommitSide

variable {G : Block → Prop} {c d : CommitSide} {i : Input}
  {throws : Option ThrowSite}

/-- The blocks that wait for their commit and those of the outstanding
callbacks have property `G`. -/
structure Only (G : Block → Prop) (c : CommitSide) : Prop where
  waiting : ∀ b ∈ c.commitQueue, G b
  pending : ∀ cb ∈ c.pending, G (callbackBlock cb)

namespace Only

theorem call (h : c.Only G) {site : ThrowSite} {b : Block} {e : Event}
    {cb : Callback} (hb : G (callbackBlock cb)) :
    (c.call throws site b e cb).Only G := by
  refine ⟨?_, fun cb' hcb' => ?_⟩
  · unfold CommitSide.call
    split_ifs <;> exact h.waiting
  · rcases mem_pending_of_call hcb' with rfl | hcb'
    · exact hb
    · exact h.pending cb' hcb'

theorem log (h : c.Only G) (e : Event) : (c.log e).Only G :=
  ⟨h.waiting, h.pending⟩

theorem setExecutedBlock (h : c.Only G) (n : ℤ) :
    (c.setExecutedBlock n).Only G :=
  ⟨h.waiting, h.pending⟩

theorem await (h : c.Only G) {cb : Callback} (hb : G (callbackBlock cb)) :
    (c.await cb).Only G := by
  refine ⟨h.waiting, fun cb' hcb' => ?_⟩
  rcases List.mem_cons.mp hcb' with rfl | hcb'
  · exact hb
  · exact h.pending cb' hcb'

theorem receive (h : c.Only G) (cb : Callback) (e : Event) :
    (c.receive cb e).Only G :=
  ⟨h.waiting, fun cb' hcb' => h.pending cb' (List.mem_of_mem_erase hcb')⟩

theorem enqueue (h : c.Only G) {b : Block} (hb : G b) :
    (c.enqueue b).Only G := by
  refine ⟨fun a ha => ?_, h.pending⟩
  rcases Multiset.mem_cons.mp ha with rfl | ha
  · exact hb
  · exact h.waiting a ha

theorem restrict (h : c.Only G) {queue : Multiset Block}
    (hle : queue ≤ c.commitQueue) :
    ({ c with commitQueue := queue } : CommitSide).Only G :=
  ⟨fun b hb => h.waiting b (Multiset.mem_of_le hle hb), h.pending⟩

theorem advance (h : c.Only G) (l : LedgerConfig) : (c.advance l).Only G :=
  restrict (c := c.reset l) ⟨h.waiting, h.pending⟩ (Multiset.filter_le _ _)

theorem tryCommit (h : c.Only G) (htry : TryCommit throws c d) :
    d.Only G := by
  cases htry with
  | idle => exact h.restrict (Multiset.filter_le _ _)
  | @check b rest hwaiting hnumber =>
      have hle : b ::ₘ rest ≤ c.commitQueue :=
        hwaiting ▸ Multiset.filter_le _ _
      have hb : G (callbackBlock (.asyncCheckBlock b)) :=
        h.waiting b (Multiset.mem_of_le hle (Multiset.mem_cons_self b rest))
      exact (h.restrict ((Multiset.le_cons_self rest b).trans hle)).call hb

theorem commitBlockState (h : c.Only G) {b : Block} (hb : G b) :
    (c.commitBlockState throws b).Only G := by
  have hb : G (callbackBlock (.commitBlock b)) := hb
  exact h.call hb

theorem storeTransactions (h : c.Only G) {b : Block} (hb : G b) :
    (c.storeTransactions throws b).Only G := by
  have hb : G (callbackBlock (.asyncStoreTransactions b)) := hb
  exact h.call hb

theorem commitBlock (h : c.Only G) {b : Block} (hb : G b) :
    (c.commitBlock throws b).Only G := by
  unfold CommitSide.commitBlock
  split_ifs
  · exact h.commitBlockState hb
  · exact (h.commitBlockState hb).storeTransactions hb
  · exact h.log _
  · exact h.storeTransactions hb

/-- Only the download task takes in blocks. -/
theorem step (h : c.Only G) (hstep : Step c i d)
    (hi : ∀ rand, i ≠ .downloadTask rand) : d.Only G := by
  cases hstep with
  | quiet => exact h
  | @task rand => exact absurd rfl (hi rand)
  | @taskApply rand => exact absurd rfl (hi rand)
  | newBlock _ htry => exact (h.advance _).tryCommit htry
  | executed hexecuting _ htry =>
      refine tryCommit ?_ htry
      exact ((h.receive _ _).setExecutedBlock _).enqueue
        (h.pending _ hexecuting)
  | executeFailed => exact (h.receive _ _).setExecutedBlock _
  | checked hchecking =>
      exact (h.receive _ _).commitBlock (h.pending _ hchecking)
  | checkFailed => exact (h.receive _ _).setExecutedBlock _
  | stored hstoring =>
      exact (h.receive _ _).commitBlockState (h.pending _ hstoring)
  | storeFailed => exact (h.receive _ _).setExecutedBlock _
  | committed _ _ htry =>
      exact (((h.receive _ _).log _).advance _).tryCommit htry
  | handlerThrew => exact ((h.receive _ _).log _).log _
  | commitFailed => exact (h.receive _ _).setExecutedBlock _

end Only

end CommitSide

/-! ## The block queue -/

namespace DownloadingQueue

variable {P : BlockQueue} {createBlock : BlockFactory} {Q : Bytes → Prop}
  {q : DownloadingQueue P}

/-- The data in the buffer has property `Q`, and the blocks of the queue were
decoded from such data. -/
structure Only (createBlock : BlockFactory) (Q : Bytes → Prop)
    (q : DownloadingQueue P) : Prop where
  buffered : ∀ msg ∈ q.blockBuffer, ∀ data ∈ msg.blocksData, Q data
  blocks : ∀ b ∈ P.elems q.blocks, Decodes createBlock Q b

namespace Only

theorem setBlocks (h : q.Only createBlock Q) {blocks : P.Carrier}
    (hle : P.elems blocks ≤ P.elems q.blocks) :
    ({ q with blocks := blocks } : DownloadingQueue P).Only createBlock Q :=
  ⟨h.buffered, fun b hb => h.blocks b (Multiset.mem_of_le hle hb)⟩

theorem clearQueue (h : q.Only createBlock Q) :
    q.clearQueue.Only createBlock Q :=
  h.setBlocks (by rw [P.elems_empty]; exact Multiset.zero_le _)

theorem clear (h : q.Only createBlock Q) : q.clear.Only createBlock Q :=
  clearQueue (q := { q with blockBuffer := [] })
    ⟨fun _ hmsg => absurd hmsg List.not_mem_nil, h.blocks⟩

theorem push (h : q.Only createBlock Q) {msg : BlocksMsg}
    (hmsg : ∀ data ∈ msg.blocksData, Q data) (c : BlockSyncConfig) :
    (q.push msg c).Only createBlock Q := by
  unfold DownloadingQueue.push
  split_ifs
  · exact h
  · refine ⟨fun msg' hmsg' => ?_, h.blocks⟩
    rcases List.mem_append.mp hmsg' with hmsg' | hmsg'
    · exact h.buffered msg' hmsg'
    · exact List.mem_singleton.mp hmsg' ▸ hmsg

theorem flushBlockData (h : q.Only createBlock Q) {data : Bytes}
    (hdata : Q data) (c : BlockSyncConfig) :
    (q.flushBlockData createBlock c data).Only createBlock Q := by
  unfold DownloadingQueue.flushBlockData
  cases hblock : createBlock data with
  | none => exact h
  | some blockData =>
      dsimp only
      split_ifs
      · refine ⟨h.buffered, fun b hb => ?_⟩
        rw [P.elems_push] at hb
        rcases Multiset.mem_cons.mp hb with rfl | hb
        · exact ⟨data, hdata, hblock⟩
        · exact h.blocks b hb
      · exact ⟨h.buffered, h.blocks⟩

theorem flushOneShard (h : q.Only createBlock Q) {msg : BlocksMsg}
    (hmsg : ∀ data ∈ msg.blocksData, Q data) (c : BlockSyncConfig) :
    (q.flushOneShard createBlock c msg).2.Only createBlock Q := by
  have hdatas : ∀ (datas : List Bytes) (q : DownloadingQueue P),
      (∀ data ∈ datas, Q data) → q.Only createBlock Q →
        (datas.foldl (fun q data => q.flushBlockData createBlock c data)
          q).Only createBlock Q := by
    intro datas
    induction datas with
    | nil => exact fun _ _ h => h
    | cons data datas ih =>
        intro q hdatas h
        rw [List.foldl_cons]
        exact ih _ (fun d hd => hdatas d (List.mem_cons_of_mem data hd))
          (h.flushBlockData (hdatas data List.mem_cons_self) c)
  unfold DownloadingQueue.flushOneShard
  split
  · exact h
  · exact hdatas msg.blocksData q hmsg h

theorem flushLoop (c : BlockSyncConfig) (shards : List BlocksMsg) :
    ∀ q : DownloadingQueue P,
      (∀ msg ∈ shards, ∀ data ∈ msg.blocksData, Q data) →
        q.Only createBlock Q →
          (DownloadingQueue.flushLoop createBlock c shards q).Only createBlock
            Q := by
  induction shards with
  | nil =>
      exact fun q _ h =>
        ⟨fun _ hmsg => absurd hmsg List.not_mem_nil, h.blocks⟩
  | cons shard shards ih =>
      intro q hshards h
      have hrest : ∀ msg ∈ shards, ∀ data ∈ msg.blocksData, Q data :=
        fun msg hmsg => hshards msg (List.mem_cons_of_mem shard hmsg)
      have hshard := h.flushOneShard (hshards shard List.mem_cons_self) c
      rw [DownloadingQueue.flushLoop]
      split
      · next q' hq =>
          rw [hq] at hshard
          exact ih q' hrest hshard
      · next q' hq =>
          rw [hq] at hshard
          exact ⟨hrest, hshard.blocks⟩

theorem clearFullQueueIfNotHas (h : q.Only createBlock Q)
    (c : BlockSyncConfig) (blockNumber : ℤ) :
    (q.clearFullQueueIfNotHas c blockNumber).Only createBlock Q := by
  unfold DownloadingQueue.clearFullQueueIfNotHas
  split
  · exact h
  · split_ifs
    · exact h.clearQueue
    · exact h

end Only

end DownloadingQueue

/-! ## Steps -/

namespace BlockSync

variable {P : BlockQueue} {createBlock : BlockFactory} {Q : Bytes → Prop}
  {s t : BlockSync P} {i : Input}

/-- The block data of a message has property `Q`. -/
def CarriesOnly (Q : Bytes → Prop) (i : Input) : Prop :=
  ∀ nodeID syncMsg, i = .syncMessage nodeID syncMsg →
    syncMsg.packetType = BlockSyncPacketType.blockResponsePacket →
      ∀ data ∈ syncMsg.blocksData, Q data

/-- All blocks of the node were decoded from data with property `Q`. -/
structure HoldsOnly (createBlock : BlockFactory) (Q : Bytes → Prop)
    (s : BlockSync P) : Prop where
  queue : s.downloadingQueue.Only createBlock Q
  side : s.commitSide.Only (Decodes createBlock Q)

theorem blockBuffer_tryToCommit (throws : Option ThrowSite)
    (s : BlockSync P) :
    (tryToCommitBlockToLedger throws s).downloadingQueue.blockBuffer =
      s.downloadingQueue.blockBuffer := by
  obtain ⟨q, pending, trace, heq⟩ := tryToCommit_eq throws s
  rw [heq]
  rfl

theorem blockBuffer_onNewBlock (l : LedgerConfig) (s : BlockSync P) :
    (s.onNewBlock l).downloadingQueue.blockBuffer =
      s.downloadingQueue.blockBuffer := by
  obtain ⟨out, hout⟩ := broadcastSyncStatus_eq (s.resetConfig l)
  rw [onNewBlock, hout]
  unfold resetConfig
  split_ifs <;> rfl

theorem blockBuffer_onExecuteBlock (throws : Option ThrowSite) (b : Block)
    (a : Except Error BlockHeader) (s : BlockSync P) :
    (onExecuteBlock throws b a s).downloadingQueue.blockBuffer =
      s.downloadingQueue.blockBuffer := by
  unfold onExecuteBlock
  split
  · rfl
  · dsimp only
    split_ifs
    · exact blockBuffer_tryToCommit throws _
    · rfl

theorem blockBuffer_onCheckBlock (throws : Option ThrowSite) (b : Block)
    (a : Except Error Bool) (s : BlockSync P) :
    (onCheckBlock throws b a s).downloadingQueue.blockBuffer =
      s.downloadingQueue.blockBuffer := by
  match a with
  | .error _ => rfl
  | .ok false => rfl
  | .ok true =>
      exact congrArg DownloadingQueue.blockBuffer
        (downloadingQueue_commitBlock throws b (s.log _))

theorem blockBuffer_onStoreTransactions (throws : Option ThrowSite)
    (b : Block) (e : Option Error) (s : BlockSync P) :
    (onStoreTransactions throws b e s).downloadingQueue.blockBuffer =
      s.downloadingQueue.blockBuffer := by
  cases e with
  | none =>
      exact congrArg DownloadingQueue.blockBuffer
        (downloadingQueue_commitBlockState throws b (s.log _))
  | some e => rfl

theorem blockBuffer_onCommitBlock (throws : Option ThrowSite) (b : Block)
    (a : Except Error LedgerConfig) (s : BlockSync P) :
    (onCommitBlock throws b a s).downloadingQueue.blockBuffer =
      s.downloadingQueue.blockBuffer := by
  cases a with
  | error e => rfl
  | ok l =>
      dsimp only [onCommitBlock]
      unfold finalizeBlock
      dsimp only
      split_ifs
      · rfl
      · rw [blockBuffer_tryToCommit, blockBuffer_onNewBlock]
        rfl

/-- The queue takes in the data of a message and nothing else. -/
theorem queue_step (h : s.downloadingQueue.Only createBlock Q)
    (hcarries : CarriesOnly Q i) (hi : ∀ rand, i ≠ .downloadTask rand)
    (hstep : s.step createBlock i = some t) :
    t.downloadingQueue.Only createBlock Q := by
  have hle := (step_blocksLe hi hstep).blocks_le
  have hblocks : ∀ b ∈ t.blocks, Decodes createBlock Q b :=
    fun b hb => h.blocks b (Multiset.mem_of_le hle hb)
  have hsame : t.downloadingQueue.blockBuffer =
      s.downloadingQueue.blockBuffer →
        t.downloadingQueue.Only createBlock Q := by
    intro hbuffer
    refine ⟨?_, hblocks⟩
    rw [hbuffer]
    exact h.buffered
  cases i with
  | downloadTask rand => exact absurd rfl (hi rand)
  | maintainPeersConnection =>
      obtain ⟨table, config, out, heq, -⟩ := maintainPeersConnection_eq s
      obtain rfl := heq.symm.trans (Option.some.inj hstep)
      exact hsame rfl
  | downloadTimeout =>
      simp only [step] at hstep
      split_ifs at hstep
      obtain rfl := Option.some.inj hstep
      exact h
  | syncMessage nodeID syncMsg =>
      obtain rfl := Option.some.inj hstep
      unfold asyncNotifyBlockSyncMessage
      split_ifs with hstatus hrequest hresponse
      · unfold onPeerStatus
        split_ifs <;> exact h
      · unfold onPeerBlocksRequest
        dsimp only
        split <;> exact h
      · exact h.push (hcarries nodeID syncMsg rfl hresponse) s.config
      · exact h
  | notifyNewBlock l =>
      obtain rfl := Option.some.inj hstep
      refine hsame ?_
      unfold asyncNotifyNewBlock
      split_ifs
      · rw [blockBuffer_tryToCommit, blockBuffer_onNewBlock]
      · rfl
  | notifyCommittedIndex number =>
      obtain rfl := Option.some.inj hstep
      exact h
  | notifyConnectedNodes nodes =>
      obtain rfl := Option.some.inj hstep
      exact h
  | executeBlockAnswer b a throws =>
      obtain ⟨-, rfl⟩ := answer_eq_some.mp hstep
      exact hsame (blockBuffer_onExecuteBlock throws b a _)
  | asyncCheckBlockAnswer b a throws =>
      obtain ⟨-, rfl⟩ := answer_eq_some.mp hstep
      exact hsame (blockBuffer_onCheckBlock throws b a _)
  | asyncStoreTransactionsAnswer b e throws =>
      obtain ⟨-, rfl⟩ := answer_eq_some.mp hstep
      exact hsame (blockBuffer_onStoreTransactions throws b e _)
  | commitBlockAnswer b a throws =>
      obtain ⟨-, rfl⟩ := answer_eq_some.mp hstep
      exact hsame (blockBuffer_onCommitBlock throws b a _)

namespace HoldsOnly

theorem maintainDownloadingBuffer (h : s.HoldsOnly createBlock Q) :
    (s.maintainDownloadingBuffer createBlock).HoldsOnly createBlock Q := by
  refine ⟨?_, by rw [commitSide_maintainDownloadingBuffer]; exact h.side⟩
  unfold BlockSync.maintainDownloadingBuffer
  split_ifs
  · exact h.queue
  · exact h.queue.clear
  · have hcleared := h.queue.clearFullQueueIfNotHas s.config
      s.config.nextBlock
    exact .flushLoop s.config _ _ hcleared.buffered hcleared

theorem prepareExecution (h : s.HoldsOnly createBlock Q)
    (hordered : s.commitSide.Ordered) :
    s.prepareExecution.HoldsOnly createBlock Q := by
  have htry : TryCommit none s.commitSide s.prepareExecution.commitSide :=
    tryCommit_commitSide none hordered.nextBlock_eq
  obtain ⟨q, pending, trace, heq⟩ := prepareExecution_eq s
  refine ⟨⟨?_, fun b hb => ?_⟩, h.side.tryCommit htry⟩
  · rw [heq]
    exact h.queue.buffered
  · have hb : b ∈ s.prepareExecution.blocks := hb
    rw [blocks_prepareExecution] at hb
    exact h.queue.blocks b (Multiset.mem_filter.mp hb).1

/-- The block handed to `applyBlock` is one of the block queue. -/
theorem applyBlock (h : s.HoldsOnly createBlock Q) {b : Block}
    (htop : P.top s.downloadingQueue.blocks = some b) (state : SyncState) :
    (BlockSync.applyBlock b
      { s.setBlocks (P.pop s.downloadingQueue.blocks) with
        state := state }).HoldsOnly createBlock Q := by
  have hpop : P.elems (P.pop s.downloadingQueue.blocks) ≤
      P.elems s.downloadingQueue.blocks := by
    rw [P.elems_of_top _ b htop]
    exact Multiset.le_cons_self _ _
  have hb : Decodes createBlock Q b := h.queue.blocks b (P.mem_of_top htop)
  unfold BlockSync.applyBlock
  split_ifs
  · refine ⟨h.queue.setBlocks hpop, ?_⟩
    rw [commitSide_setExecutedBlock]
    exact h.side.setExecutedBlock _
  · exact ⟨h.queue.setBlocks hpop, (h.side.log _).await hb⟩

theorem downloadTask (h : s.HoldsOnly createBlock Q)
    (hordered : s.commitSide.Ordered) (rand : ℕ → ℕ → ℕ) :
    (s.downloadTask createBlock rand).HoldsOnly createBlock Q := by
  have hbuffer := h.maintainDownloadingBuffer
  have hqueue : ((s.maintainDownloadingBuffer
      createBlock).maintainDownloadingQueue).HoldsOnly createBlock Q := by
    unfold maintainDownloadingQueue
    split_ifs
    · exact ⟨hbuffer.queue.clear, hbuffer.side⟩
    · have hprepared := hbuffer.prepareExecution
        (by rwa [commitSide_maintainDownloadingBuffer])
      dsimp only
      split
      · exact hprepared
      · next b htop =>
          exact hprepared.applyBlock (expectedTop_eq_some.mp htop).1 _
  refine ⟨?_, ?_⟩
  · rw [BlockSync.downloadTask, downloadingQueue_tryToRequestBlocks]
    exact hqueue.queue
  · rw [BlockSync.downloadTask, commitSide_tryToRequestBlocks]
    exact hqueue.side

theorem step (h : s.HoldsOnly createBlock Q)
    (hordered : s.commitSide.Ordered) (hcarries : CarriesOnly Q i)
    (hstep : s.step createBlock i = some t) : t.HoldsOnly createBlock Q := by
  by_cases htask : ∃ rand, i = .downloadTask rand
  · obtain ⟨rand, rfl⟩ := htask
    obtain rfl := Option.some.inj hstep
    exact h.downloadTask hordered rand
  · have hi : ∀ rand, i ≠ .downloadTask rand :=
      fun rand heq => htask ⟨rand, heq⟩
    exact ⟨queue_step h.queue hcarries hi hstep,
      h.side.step (step_commitSide hordered hstep) hi⟩

end HoldsOnly

theorem IsInit.holdsOnly (h : IsInit P s) : s.HoldsOnly createBlock Q := by
  have hside := h.commitSide_eq
  obtain ⟨c, genesisHash, l, -⟩ := h
  have hqueue : ((new P c).init genesisHash l).downloadingQueue =
      (new P c).downloadingQueue := by
    unfold init resetConfig
    split_ifs <;> rfl
  refine ⟨⟨?_, ?_⟩, ?_⟩
  · rw [hqueue]
    exact fun _ hmsg => absurd hmsg List.not_mem_nil
  · rw [hqueue]
    intro b hb
    have hb : b ∈ P.elems P.empty := hb
    rw [P.elems_empty] at hb
    exact absurd hb (Multiset.notMem_zero b)
  · rw [hside]
    exact ⟨fun b hb => absurd hb (Multiset.notMem_zero b),
      fun _ hcb => absurd hcb List.not_mem_nil⟩

theorem reachable_holdsOnly
    (hs : (nodeSystem P createBlock).ReachableBy (CarriesOnly Q) s) :
    s.commitSide.Ordered ∧ s.HoldsOnly createBlock Q := by
  refine hs.invariant
    (I := fun s => s.commitSide.Ordered ∧ s.HoldsOnly createBlock Q) ?_ ?_
  · exact fun s (hs : IsInit P s) => ⟨hs.ordered, hs.holdsOnly⟩
  · rintro s i t hi ⟨hordered, hs⟩ hstep
    exact ⟨(step_commitSide hordered hstep).ordered hordered,
      hs.step hordered hi hstep⟩

/-- The block is in a queue of the node, or a callback for it is
outstanding. -/
def Holds (s : BlockSync P) (b : Block) : Prop :=
  b ∈ s.blocks ∨ b ∈ s.commitQueue ∨ ∃ cb ∈ s.pending, callbackBlock cb = b

theorem HoldsOnly.decodes (h : s.HoldsOnly createBlock Q) {b : Block}
    (hb : s.Holds b) : Decodes createBlock Q b := by
  rcases hb with hb | hb | ⟨cb, hcb, rfl⟩
  · exact h.queue.blocks b hb
  · exact h.side.waiting b hb
  · exact h.side.pending cb hcb

/-- Every block that a node has in a queue, executes, checks, stores or
commits in a run was decoded from the data of a packet of blocks that it
received in this run. -/
theorem run_holds_received (hs : IsInit P s) {is : List Input}
    (hrun : (nodeSystem P createBlock).exec s is = some t) (b : Block)
    (hb : t.Holds b) :
    ∃ nodeID syncMsg data, .syncMessage nodeID syncMsg ∈ is ∧
      syncMsg.packetType = BlockSyncPacketType.blockResponsePacket ∧
        data ∈ syncMsg.blocksData ∧
          createBlock data = some b.toBlockData := by
  let Q : Bytes → Prop := fun data =>
    ∃ nodeID syncMsg, .syncMessage nodeID syncMsg ∈ is ∧
      syncMsg.packetType = BlockSyncPacketType.blockResponsePacket ∧
        data ∈ syncMsg.blocksData
  have hcarries : ∀ i ∈ is, CarriesOnly Q i := by
    rintro i hi nodeID syncMsg rfl htype data hdata
    exact ⟨nodeID, syncMsg, hi, htype, hdata⟩
  have hreach : (nodeSystem P createBlock).ReachableBy (CarriesOnly Q) t :=
    (TransitionSystem.ReachableBy.init hs).exec hcarries hrun
  obtain ⟨data, ⟨nodeID, syncMsg, hi, htype, hdata⟩, hblock⟩ :=
    (reachable_holdsOnly hreach).2.decodes hb
  exact ⟨nodeID, syncMsg, data, hi, htype, hdata, hblock⟩

/-- The block of the packet is being executed. -/
theorem run_holds_received_sample :
    ∃ s nodeID syncMsg data, Sample.system.exec Sample.node
        [Sample.status Sample.peer 2, Sample.blocks [[1, 1]], Sample.task] =
          some s ∧
      .syncMessage nodeID syncMsg ∈
        [Sample.status Sample.peer 2, Sample.blocks [[1, 1]], Sample.task] ∧
      data ∈ syncMsg.blocksData ∧
      Sample.createBlock data = some (Sample.block 0 1 1).toBlockData := by
  obtain ⟨s, hrun, hexecuting⟩ : ∃ s, Sample.system.exec Sample.node
        [Sample.status Sample.peer 2, Sample.blocks [[1, 1]], Sample.task] =
          some s ∧ s.Executing (Sample.block 0 1 1) :=
    ⟨_, rfl, List.mem_cons_self⟩
  obtain ⟨nodeID, syncMsg, data, hi, -, hdata, hblock⟩ :=
    run_holds_received Sample.isInit_node hrun (Sample.block 0 1 1)
      (.inr (.inr ⟨_, hexecuting, rfl⟩))
  exact ⟨s, nodeID, syncMsg, data, hrun, hi, hdata, hblock⟩

end BlockSync

end BcosSync
