import BcosSync.Commit.Effects
import BcosSync.Commit.Refinement
import Mathlib.Data.Multiset.Bind
import Mathlib.Data.Multiset.MapFold

/-!
# Each block object is in one place

A block object is created when its bytes are decoded and is moved, never
copied: from the block queue into an execution, from there into the commit
queue, and from there to the check.  So the block queue, the executions, the
commit queue and the calls of the check hold pairwise different objects.
-/

namespace BcosSync

open BlockSync

namespace CommitSide

variable {c d : CommitSide} {i : Input} {throws : Option ThrowSite}

/-! ## The blocks past the block queue -/

/-- The block a callback waits to be executed. -/
def executingBlock : Callback → Option Block
  | .executeBlock b => some b
  | _ => none

/-- The block an event sends to the check. -/
def checkedBlock : Event → Option Block
  | .asyncCheckBlock b _ => some b
  | _ => none

def executingBlocks (c : CommitSide) : Multiset Block :=
  (c.pending.filterMap executingBlock : List Block)

def checkedBlocks (c : CommitSide) : Multiset Block :=
  (c.trace.filterMap checkedBlock : List Block)

/-- The blocks being executed, waiting for their commit, or sent to the
check at some time. -/
def issued (c : CommitSide) : Multiset Block :=
  c.executingBlocks + c.commitQueue + c.checkedBlocks

theorem mem_checkedBlocks {b : Block} :
    b ∈ c.checkedBlocks ↔ ∃ n, .asyncCheckBlock b n ∈ c.trace := by
  simp only [checkedBlocks, Multiset.mem_coe, List.mem_filterMap]
  constructor
  · rintro ⟨e, he, heq⟩
    cases e <;> cases heq
    exact ⟨_, he⟩
  · rintro ⟨n, h⟩
    exact ⟨_, h, rfl⟩

theorem issued_log {e : Event} (he : checkedBlock e = none) :
    (c.log e).issued = c.issued := by
  simp only [issued, executingBlocks, checkedBlocks, log,
    List.filterMap_cons_none he]

theorem issued_await {cb : Callback} (hcb : executingBlock cb = none) :
    (c.await cb).issued = c.issued := by
  simp only [issued, executingBlocks, checkedBlocks, await,
    List.filterMap_cons_none hcb]

theorem issued_execute {b : Block} :
    ((c.log (.executeBlock b)).await (.executeBlock b)).issued =
      b ::ₘ c.issued := by
  simp only [issued, executingBlocks, checkedBlocks, log, await,
    List.filterMap_cons_none (f := checkedBlock) (a := .executeBlock b) rfl,
    List.filterMap_cons_some (f := executingBlock) (a := .executeBlock b) rfl,
    ← Multiset.cons_coe, Multiset.cons_add]

theorem issued_call {site : ThrowSite} {b : Block} {e : Event}
    {cb : Callback} (he : checkedBlock e = none)
    (hcb : executingBlock cb = none) :
    (c.call throws site b e cb).issued = c.issued := by
  unfold call
  split_ifs
  · rw [issued_log rfl, issued_log he]
  · rw [issued_await hcb, issued_log he]

theorem issued_commitBlock {b : Block} :
    (c.commitBlock throws b).issued = c.issued := by
  unfold commitBlock commitBlockState storeTransactions
  split_ifs
  · exact issued_call rfl rfl
  · rw [issued_call rfl rfl, issued_call rfl rfl]
  · exact issued_log rfl
  · exact issued_call rfl rfl

theorem issued_setExecutedBlock (n : ℤ) :
    (c.setExecutedBlock n).issued = c.issued := rfl

theorem issued_receive_le {cb : Callback} {e : Event}
    (he : checkedBlock e = none) : (c.receive cb e).issued ≤ c.issued := by
  have hsub := (List.erase_sublist (a := cb) (l := c.pending)).filterMap
    executingBlock
  simp only [issued, executingBlocks, checkedBlocks, receive,
    List.filterMap_cons_none he]
  gcongr
  exact Multiset.coe_le.mpr hsub.subperm

/-- An answered execution leaves its block to be placed elsewhere. -/
theorem issued_receive_executed {b : Block}
    {a : Except Error BlockHeader} (h : c.Executing b) :
    b ::ₘ (c.receive (.executeBlock b) (.executeBlockAnswer b a)).issued =
      c.issued := by
  have hperm : (c.pending.filterMap executingBlock).Perm
      (b :: (c.pending.erase (.executeBlock b)).filterMap executingBlock) :=
    (List.perm_cons_erase h).filterMap executingBlock
  simp only [issued, executingBlocks, checkedBlocks, receive,
    List.filterMap_cons_none (f := checkedBlock)
      (a := .executeBlockAnswer b a) rfl]
  rw [← Multiset.cons_add, ← Multiset.cons_add, Multiset.cons_coe,
    Multiset.coe_eq_coe.mpr hperm.symm]

theorem issued_enqueue {b : Block} :
    (c.enqueue b).issued = b ::ₘ c.issued := by
  simp only [issued, enqueue, executingBlocks, checkedBlocks,
    Multiset.add_cons, Multiset.cons_add]

theorem issued_restrict {queue : Multiset Block} (h : queue ≤ c.commitQueue) :
    ({ c with commitQueue := queue } : CommitSide).issued ≤ c.issued := by
  simp only [issued, executingBlocks, checkedBlocks]
  gcongr

theorem issued_advance_le {l : LedgerConfig} :
    (c.advance l).issued ≤ c.issued :=
  issued_restrict (c := c.reset l) (Multiset.filter_le _ _)

theorem TryCommit.issued_le (h : TryCommit throws c d) :
    d.issued ≤ c.issued := by
  cases h with
  | idle => exact issued_restrict (Multiset.filter_le _ _)
  | @check b rest hwaiting hnumber =>
      have hle : b ::ₘ rest ≤ c.commitQueue :=
        hwaiting ▸ Multiset.filter_le _ _
      have hissued : ∀ {e : Event}, e = .asyncCheckBlock b c.nextBlock →
          (({ c with commitQueue := rest } : CommitSide).log e).issued =
            ({ c with commitQueue := b ::ₘ rest } : CommitSide).issued := by
        rintro e rfl
        simp only [issued, executingBlocks, checkedBlocks, log,
          List.filterMap_cons_some (f := checkedBlock)
            (a := .asyncCheckBlock b c.nextBlock) rfl,
          ← Multiset.cons_coe, Multiset.add_cons, Multiset.cons_add]
      refine le_of_eq_of_le ?_ (issued_restrict hle)
      unfold call
      split_ifs
      · rw [issued_log rfl, hissued rfl]
      · rw [issued_await rfl, hissued rfl]

/-- Only the download task issues a block. -/
theorem Step.issued_le (h : Step c i d) (hi : ∀ rand, i ≠ .downloadTask rand) :
    d.issued ≤ c.issued := by
  cases h with
  | quiet => exact le_rfl
  | @task rand => exact absurd rfl (hi rand)
  | @taskApply rand => exact absurd rfl (hi rand)
  | newBlock _ htry => exact htry.issued_le.trans issued_advance_le
  | executed hexecuting _ htry =>
      refine htry.issued_le.trans (le_of_eq ?_)
      rw [issued_enqueue, issued_setExecutedBlock]
      exact issued_receive_executed hexecuting
  | executeFailed => exact issued_receive_le rfl
  | checked =>
      rw [issued_commitBlock]
      exact issued_receive_le rfl
  | checkFailed => exact issued_receive_le rfl
  | stored =>
      rw [commitBlockState, issued_call rfl rfl]
      exact issued_receive_le rfl
  | storeFailed => exact issued_receive_le rfl
  | committed _ _ htry =>
      refine htry.issued_le.trans (issued_advance_le.trans ?_)
      rw [issued_log rfl]
      exact issued_receive_le rfl
  | handlerThrew =>
      rw [issued_log rfl, issued_log rfl]
      exact issued_receive_le rfl
  | commitFailed => exact issued_receive_le rfl

/-! ## Distinct objects -/

/-- The block objects are pairwise different and older than `nextPtr`. -/
def Distinct (nextPtr : ℕ) (bs : Multiset Block) : Prop :=
  (bs.map Block.ptr).Nodup ∧ ∀ b ∈ bs, b.ptr < nextPtr

theorem Distinct.mono {nextPtr : ℕ} {bs bs' : Multiset Block}
    (h : Distinct nextPtr bs) (hle : bs' ≤ bs) : Distinct nextPtr bs' :=
  ⟨Multiset.nodup_of_le (Multiset.map_le_map hle) h.1,
    fun b hb => h.2 b (Multiset.mem_of_le hle hb)⟩

theorem Distinct.nodup {nextPtr : ℕ} {bs : Multiset Block}
    (h : Distinct nextPtr bs) : bs.Nodup :=
  Multiset.Nodup.of_map Block.ptr h.1

theorem Distinct.cons {nextPtr : ℕ} {bs : Multiset Block}
    (h : Distinct nextPtr bs) {b : Block} (hb : b.ptr = nextPtr) :
    Distinct (nextPtr + 1) (b ::ₘ bs) := by
  constructor
  · rw [Multiset.map_cons, Multiset.nodup_cons]
    refine ⟨?_, h.1⟩
    intro hmem
    obtain ⟨a, ha, heq⟩ := Multiset.mem_map.mp hmem
    have hlt := h.2 a ha
    omega
  · intro a ha
    rcases Multiset.mem_cons.mp ha with rfl | ha
    · omega
    · have hlt := h.2 a ha
      omega

end CommitSide

namespace BlockSync

open CommitSide

variable {P : BlockQueue}

/-- The objects of the block queue and those issued from it. -/
def Identified (s : BlockSync P) : Prop :=
  Distinct s.downloadingQueue.nextPtr (s.blocks + s.commitSide.issued)

theorem Identified.nodup_issued {s : BlockSync P} (h : s.Identified) :
    s.commitSide.issued.Nodup :=
  Multiset.nodup_of_le (Multiset.le_add_left _ _) h.nodup

/-- A block is sent to the check once at most. -/
theorem Identified.count_checkedBlocks_le {s : BlockSync P}
    (h : s.Identified) (b : Block) :
    s.commitSide.checkedBlocks.count b ≤ 1 := by
  have hle : s.commitSide.checkedBlocks ≤ s.commitSide.issued :=
    Multiset.le_add_left _ _
  exact Multiset.nodup_iff_count_le_one.mp
    (Multiset.nodup_of_le hle h.nodup_issued) b

/-- A waiting block has not been sent to the check. -/
theorem Identified.not_mem_checkedBlocks {s : BlockSync P}
    (h : s.Identified) {b : Block} (hb : b ∈ s.commitQueue) :
    b ∉ s.commitSide.checkedBlocks := by
  have hdisjoint := (Multiset.nodup_add.mp h.nodup_issued).2.2
  intro hchecked
  exact Multiset.disjoint_left.mp hdisjoint
    (Multiset.mem_add.mpr (.inr hb)) hchecked

end BlockSync

namespace DownloadingQueue

open CommitSide

variable {P : BlockQueue} {rest : Multiset Block}

/-- The objects of the block queue and those of `rest`. -/
def IdentifiedWith (rest : Multiset Block) (q : DownloadingQueue P) : Prop :=
  Distinct q.nextPtr (P.elems q.blocks + rest)

theorem IdentifiedWith.setBlocks {q : DownloadingQueue P}
    (h : q.IdentifiedWith rest) {blocks : P.Carrier}
    (hle : P.elems blocks ≤ P.elems q.blocks) :
    ({ q with blocks := blocks } : DownloadingQueue P).IdentifiedWith rest :=
  h.mono (by gcongr)

theorem IdentifiedWith.clearQueue {q : DownloadingQueue P}
    (h : q.IdentifiedWith rest) : q.clearQueue.IdentifiedWith rest :=
  h.setBlocks (by rw [P.elems_empty]; exact Multiset.zero_le _)

/-- A decoded block is a new object. -/
theorem IdentifiedWith.flushBlockData {q : DownloadingQueue P}
    (h : q.IdentifiedWith rest) (createBlock : BlockFactory)
    (c : BlockSyncConfig) (data : Bytes) :
    (q.flushBlockData createBlock c data).IdentifiedWith rest := by
  unfold DownloadingQueue.flushBlockData
  cases createBlock data with
  | none => exact h
  | some blockData =>
      have hcons : Distinct (q.nextPtr + 1)
          ({ toBlockData := blockData, ptr := q.nextPtr } ::ₘ
            (P.elems q.blocks + rest)) := Distinct.cons h rfl
      dsimp only
      split
      · rw [IdentifiedWith, P.elems_push, Multiset.cons_add]
        exact hcons
      · exact hcons.mono (Multiset.le_cons_self _ _)

theorem IdentifiedWith.flushOneShard {q : DownloadingQueue P}
    (h : q.IdentifiedWith rest) (createBlock : BlockFactory)
    (c : BlockSyncConfig) (msg : BlocksMsg) :
    (q.flushOneShard createBlock c msg).2.IdentifiedWith rest := by
  have hdata : ∀ (datas : List Bytes) (q : DownloadingQueue P),
      q.IdentifiedWith rest →
        (datas.foldl (fun q data => q.flushBlockData createBlock c data)
          q).IdentifiedWith rest := by
    intro datas
    induction datas with
    | nil => exact fun _ h => h
    | cons data datas ih =>
        intro q h
        rw [List.foldl_cons]
        exact ih _ (h.flushBlockData createBlock c data)
  unfold DownloadingQueue.flushOneShard
  split
  · exact h
  · exact hdata msg.blocksData q h

theorem IdentifiedWith.flushLoop (createBlock : BlockFactory)
    (c : BlockSyncConfig) (shards : List BlocksMsg) :
    ∀ q : DownloadingQueue P, q.IdentifiedWith rest →
      (flushLoop createBlock c shards q).IdentifiedWith rest := by
  induction shards with
  | nil => exact fun _ h => h
  | cons shard shards ih =>
      intro q h
      have hshard := h.flushOneShard createBlock c shard
      rw [DownloadingQueue.flushLoop]
      split
      · next q' hq =>
          rw [hq] at hshard
          exact ih q' hshard
      · next q' hq =>
          rw [hq] at hshard
          exact hshard

theorem IdentifiedWith.clearFullQueueIfNotHas {q : DownloadingQueue P}
    (h : q.IdentifiedWith rest) (c : BlockSyncConfig) (blockNumber : ℤ) :
    (q.clearFullQueueIfNotHas c blockNumber).IdentifiedWith rest := by
  unfold DownloadingQueue.clearFullQueueIfNotHas
  split
  · exact h
  · split
    · exact h.clearQueue
    · exact h

end DownloadingQueue

namespace BlockSync

open CommitSide

variable {P : BlockQueue}

/-! ## The block queue along a step -/

theorem Identified.maintainDownloadingBuffer {s : BlockSync P}
    (h : s.Identified) (createBlock : BlockFactory) :
    (s.maintainDownloadingBuffer createBlock).Identified := by
  have hqueue : s.downloadingQueue.IdentifiedWith s.commitSide.issued := h
  unfold Identified
  rw [commitSide_maintainDownloadingBuffer]
  unfold BlockSync.maintainDownloadingBuffer
  split_ifs
  · exact h
  · exact hqueue.clearQueue
  · exact (hqueue.clearFullQueueIfNotHas s.config s.config.nextBlock).flushLoop
      createBlock s.config _ _

/-- The block queue has at most lost blocks, and nothing was created. -/
structure BlocksLe (t s : BlockSync P) : Prop where
  blocks_le : t.blocks ≤ s.blocks
  nextPtr_eq : t.downloadingQueue.nextPtr = s.downloadingQueue.nextPtr

theorem BlocksLe.refl (s : BlockSync P) : BlocksLe s s := ⟨le_rfl, rfl⟩

theorem BlocksLe.trans {s t u : BlockSync P} (htu : BlocksLe u t)
    (hst : BlocksLe t s) : BlocksLe u s :=
  ⟨htu.blocks_le.trans hst.blocks_le, htu.nextPtr_eq.trans hst.nextPtr_eq⟩

theorem Identified.of_blocksLe {s t : BlockSync P} (h : s.Identified)
    (hblocks : BlocksLe t s)
    (hissued : t.commitSide.issued ≤ s.commitSide.issued) : t.Identified := by
  unfold Identified at h ⊢
  rw [hblocks.nextPtr_eq]
  exact h.mono (add_le_add hblocks.blocks_le hissued)

theorem tryToCommit_blocksLe (throws : Option ThrowSite) (s : BlockSync P) :
    BlocksLe (tryToCommitBlockToLedger throws s) s := by
  obtain ⟨q, pending, trace, heq⟩ := tryToCommit_eq throws s
  rw [heq]
  exact ⟨le_rfl, rfl⟩

theorem onNewBlock_blocksLe (l : LedgerConfig) (s : BlockSync P) :
    BlocksLe (s.onNewBlock l) s := by
  obtain ⟨out, hout⟩ := broadcastSyncStatus_eq (s.resetConfig l)
  have hreset : (s.resetConfig l).downloadingQueue = s.downloadingQueue := by
    unfold resetConfig
    split <;> rfl
  rw [onNewBlock, hout]
  constructor
  · simp only [clearExpiredQueueCache, blocks, elems_popUpTo, hreset]
    exact Multiset.filter_le _ _
  · simp only [clearExpiredQueueCache, hreset]

theorem downloadingQueue_commitBlockState (throws : Option ThrowSite)
    (b : Block) (s : BlockSync P) :
    (commitBlockState throws b s).downloadingQueue = s.downloadingQueue := by
  obtain ⟨pending, trace, heq⟩ := commitBlockState_eq throws b s
  rw [heq]

theorem downloadingQueue_commitBlock (throws : Option ThrowSite)
    (b : Block) (s : BlockSync P) :
    (commitBlock throws b s).downloadingQueue = s.downloadingQueue := by
  obtain ⟨pending, trace, heq⟩ := commitBlock_eq throws b s
  rw [heq]

theorem downloadingQueue_tryToRequestBlocks (rand : ℕ → ℕ → ℕ)
    (s : BlockSync P) :
    (s.tryToRequestBlocks rand).downloadingQueue = s.downloadingQueue := by
  unfold tryToRequestBlocks
  dsimp only
  split_ifs <;> rfl

theorem onExecuteBlock_blocksLe (throws : Option ThrowSite) (b : Block)
    (a : Except Error BlockHeader) (s : BlockSync P) :
    BlocksLe (onExecuteBlock throws b a s) s := by
  unfold onExecuteBlock
  split
  · exact ⟨le_rfl, rfl⟩
  · dsimp only
    split
    · exact (tryToCommit_blocksLe throws _).trans ⟨le_rfl, rfl⟩
    · exact ⟨le_rfl, rfl⟩

theorem onCheckBlock_blocksLe (throws : Option ThrowSite) (b : Block)
    (a : Except Error Bool) (s : BlockSync P) :
    BlocksLe (onCheckBlock throws b a s) s := by
  unfold onCheckBlock
  split
  · exact ⟨le_rfl, rfl⟩
  · constructor
    · simp only [blocks, downloadingQueue_commitBlock]
      exact le_rfl
    · rw [downloadingQueue_commitBlock]
      rfl
  · exact ⟨le_rfl, rfl⟩

theorem onStoreTransactions_blocksLe (throws : Option ThrowSite) (b : Block)
    (e : Option Error) (s : BlockSync P) :
    BlocksLe (onStoreTransactions throws b e s) s := by
  unfold onStoreTransactions
  split
  · exact ⟨le_rfl, rfl⟩
  · constructor
    · simp only [blocks, downloadingQueue_commitBlockState]
      exact le_rfl
    · rw [downloadingQueue_commitBlockState]
      rfl

theorem onCommitBlock_blocksLe (throws : Option ThrowSite) (b : Block)
    (a : Except Error LedgerConfig) (s : BlockSync P) :
    BlocksLe (onCommitBlock throws b a s) s := by
  unfold onCommitBlock
  split
  · exact ⟨le_rfl, rfl⟩
  · unfold finalizeBlock
    dsimp only
    split
    · exact ⟨le_rfl, rfl⟩
    · exact (tryToCommit_blocksLe throws _).trans
        ((onNewBlock_blocksLe _ _).trans ⟨le_rfl, rfl⟩)

/-- Only the download task creates block objects. -/
theorem step_blocksLe {createBlock : BlockFactory} {s t : BlockSync P}
    {i : Input} (hi : ∀ rand, i ≠ .downloadTask rand)
    (hstep : s.step createBlock i = some t) : BlocksLe t s := by
  cases i with
  | downloadTask rand => exact absurd rfl (hi rand)
  | maintainPeersConnection =>
      obtain ⟨table, config, out, heq, -⟩ := maintainPeersConnection_eq s
      obtain rfl := heq.symm.trans (Option.some.inj hstep)
      exact ⟨le_rfl, rfl⟩
  | downloadTimeout =>
      simp only [step] at hstep
      split_ifs at hstep
      obtain rfl := Option.some.inj hstep
      exact ⟨le_rfl, rfl⟩
  | syncMessage nodeID syncMsg =>
      obtain ⟨table, config, buffer, heq, -⟩ :=
        syncMessage_eq nodeID syncMsg s
      obtain rfl := heq.symm.trans (Option.some.inj hstep)
      exact ⟨le_rfl, rfl⟩
  | notifyNewBlock l =>
      obtain rfl := Option.some.inj hstep
      unfold asyncNotifyNewBlock
      split
      · exact (tryToCommit_blocksLe none _).trans (onNewBlock_blocksLe l s)
      · exact .refl s
  | notifyCommittedIndex number =>
      obtain rfl := Option.some.inj hstep
      exact ⟨le_rfl, rfl⟩
  | notifyConnectedNodes nodes =>
      obtain rfl := Option.some.inj hstep
      exact ⟨le_rfl, rfl⟩
  | executeBlockAnswer b a throws =>
      obtain ⟨-, rfl⟩ := answer_eq_some.mp hstep
      exact (onExecuteBlock_blocksLe throws b a _).trans ⟨le_rfl, rfl⟩
  | asyncCheckBlockAnswer b a throws =>
      obtain ⟨-, rfl⟩ := answer_eq_some.mp hstep
      exact (onCheckBlock_blocksLe throws b a _).trans ⟨le_rfl, rfl⟩
  | asyncStoreTransactionsAnswer b e throws =>
      obtain ⟨-, rfl⟩ := answer_eq_some.mp hstep
      exact (onStoreTransactions_blocksLe throws b e _).trans ⟨le_rfl, rfl⟩
  | commitBlockAnswer b a throws =>
      obtain ⟨-, rfl⟩ := answer_eq_some.mp hstep
      exact (onCommitBlock_blocksLe throws b a _).trans ⟨le_rfl, rfl⟩

theorem prepareExecution_identified {s : BlockSync P} (h : s.Identified)
    (hordered : s.commitSide.Ordered) : s.prepareExecution.Identified := by
  have htry : TryCommit none s.commitSide s.prepareExecution.commitSide :=
    tryCommit_commitSide none hordered.nextBlock_eq
  refine h.of_blocksLe ⟨?_, ?_⟩ htry.issued_le
  · rw [blocks_prepareExecution]
    exact Multiset.filter_le _ _
  · obtain ⟨q, pending, trace, heq⟩ := prepareExecution_eq s
    rw [heq]
    rfl

/-- The block handed to `applyBlock` leaves the block queue. -/
theorem applyBlock_identified {s : BlockSync P} (h : s.Identified) {b : Block}
    (htop : P.top s.downloadingQueue.blocks = some b) (state : SyncState) :
    (applyBlock b { s.setBlocks (P.pop s.downloadingQueue.blocks) with
      state := state }).Identified := by
  have hblocks : s.blocks = b ::ₘ P.elems (P.pop s.downloadingQueue.blocks) :=
    P.elems_of_top _ b htop
  unfold Identified at h
  rw [hblocks] at h
  have hsame : ({ s.setBlocks (P.pop s.downloadingQueue.blocks) with
      state := state } : BlockSync P).commitSide = s.commitSide := rfl
  unfold applyBlock
  split
  · unfold Identified
    rw [commitSide_setExecutedBlock, issued_setExecutedBlock, hsame]
    exact h.mono (Multiset.add_le_add_right (Multiset.le_cons_self _ _))
  · unfold Identified
    rw [commitSide_await, commitSide_log, hsame, issued_execute,
      Multiset.add_cons, ← Multiset.cons_add]
    exact h

theorem maintainDownloadingQueue_identified {s : BlockSync P}
    (h : s.Identified) (hordered : s.commitSide.Ordered) :
    s.maintainDownloadingQueue.Identified := by
  unfold maintainDownloadingQueue
  split
  · have hqueue : s.downloadingQueue.IdentifiedWith s.commitSide.issued := h
    exact hqueue.clearQueue
  · have hprepared := prepareExecution_identified h hordered
    dsimp only
    cases htop : s.prepareExecution.expectedTop with
    | none => exact hprepared
    | some b =>
        exact applyBlock_identified hprepared
          (expectedTop_eq_some.mp htop).1 .downloading

theorem downloadTask_identified {s : BlockSync P} (h : s.Identified)
    (hordered : s.commitSide.Ordered) (createBlock : BlockFactory)
    (rand : ℕ → ℕ → ℕ) : (s.downloadTask createBlock rand).Identified := by
  have hbuffer := h.maintainDownloadingBuffer createBlock
  have hqueue := maintainDownloadingQueue_identified hbuffer
    (by rwa [commitSide_maintainDownloadingBuffer])
  unfold downloadTask Identified
  rw [blocks, downloadingQueue_tryToRequestBlocks,
    commitSide_tryToRequestBlocks]
  exact hqueue

theorem IsInit.identified {s : BlockSync P} (h : IsInit P s) :
    s.Identified := by
  have hside := h.commitSide_eq
  unfold Identified
  rw [hside]
  obtain ⟨c, genesisHash, l, -⟩ := h
  have hqueue : ((new P c).init genesisHash l).blocks = 0 := by
    unfold init resetConfig
    split <;> exact P.elems_empty
  rw [hqueue]
  exact ⟨by simp [issued, executingBlocks, checkedBlocks],
    by simp [issued, executingBlocks, checkedBlocks]⟩

/-- In every reachable node the block objects of the block queue, of the
executions, of the commit queue and of the calls of the check are pairwise
different. -/
theorem reachable_identified {createBlock : BlockFactory} {s : BlockSync P}
    (hs : (nodeSystem P createBlock).Reachable s) :
    s.commitSide.Ordered ∧ s.Identified := by
  refine TransitionSystem.ReachableBy.invariant
    (I := fun s => s.commitSide.Ordered ∧ s.Identified) ?_ ?_ hs
  · exact fun s (hs : IsInit P s) => ⟨hs.ordered, hs.identified⟩
  intro s i t _ ⟨hordered, hs⟩ hstep
  have hside := step_commitSide hordered hstep
  refine ⟨hside.ordered hordered, ?_⟩
  by_cases htask : ∃ rand, i = .downloadTask rand
  · obtain ⟨rand, rfl⟩ := htask
    obtain rfl := Option.some.inj hstep
    exact downloadTask_identified hs hordered createBlock rand
  · have hi : ∀ rand, i ≠ .downloadTask rand :=
      fun rand heq => htask ⟨rand, heq⟩
    exact hs.of_blocksLe (step_blocksLe hi hstep) (hside.issued_le hi)

end BlockSync

end BcosSync
