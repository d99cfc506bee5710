import BcosSync.Commit.Identity

/-!
# The download buffer

`maintainDownloadingBuffer` moves the shards of the buffer to the block queue,
and before it does so it may throw the block queue away.  The first part of
the module is about the move: which shards leave the buffer, what of them
reaches the block queue, and which shard is lost on the way.  The second part
says when the block that is executed next is thrown away.
-/

namespace BcosSync

namespace DownloadingQueue

variable {P : BlockQueue} {createBlock : BlockFactory} {c : BlockSyncConfig}

/-! ## What a shard brings -/

/-- The blocks above the chain that the data of the shard decode to. -/
def newerData (createBlock : BlockFactory) (c : BlockSyncConfig)
    (shard : BlocksMsg) : List BlockData :=
  shard.blocksData.filterMap fun data =>
    (createBlock data).filter fun b => c.blockNumber < b.blockHeader.number

/-- The block queue has gained new objects with the contents `contents`. -/
structure Gains (q q' : DownloadingQueue P) (contents : List BlockData) :
    Prop where
  nextPtr_le : q.nextPtr ≤ q'.nextPtr
  gained : ∃ new : Multiset Block,
    P.elems q'.blocks = P.elems q.blocks + new ∧
      new.map Block.toBlockData = ↑contents ∧ ∀ b ∈ new, q.nextPtr ≤ b.ptr

theorem Gains.refl (q : DownloadingQueue P) : Gains q q [] :=
  ⟨le_rfl, 0, (add_zero _).symm, rfl,
    fun b hb => absurd hb (Multiset.notMem_zero b)⟩

theorem Gains.trans {q₁ q₂ q₃ : DownloadingQueue P}
    {contents contents' : List BlockData} (h : Gains q₁ q₂ contents)
    (h' : Gains q₂ q₃ contents') : Gains q₁ q₃ (contents ++ contents') := by
  obtain ⟨hptr, new, hblocks, hnew, hfresh⟩ := h
  obtain ⟨hptr', new', hblocks', hnew', hfresh'⟩ := h'
  refine ⟨hptr.trans hptr', new + new', ?_, ?_, ?_⟩
  · rw [hblocks', hblocks, add_assoc]
  · rw [Multiset.map_add, hnew, hnew', Multiset.coe_add]
  · intro b hb
    rcases Multiset.mem_add.mp hb with hb | hb
    · exact hfresh b hb
    · exact hptr.trans (hfresh' b hb)

theorem Gains.size_eq {q q' : DownloadingQueue P}
    {contents : List BlockData} (h : Gains q q' contents) :
    P.size q'.blocks = P.size q.blocks + contents.length := by
  obtain ⟨-, new, hblocks, hnew, -⟩ := h
  rw [P.size_eq, P.size_eq, hblocks, Multiset.card_add,
    ← Multiset.card_map Block.toBlockData new, hnew, Multiset.coe_card]

theorem Gains.setBlockBuffer {q q' : DownloadingQueue P}
    {contents : List BlockData} (h : Gains q q' contents)
    (buffer : List BlocksMsg) :
    Gains q { q' with blockBuffer := buffer } contents :=
  ⟨h.nextPtr_le, h.gained⟩

/-- A block of height `n` is an old one, or the contents have this height. -/
theorem Gains.exists_number_iff {q q' : DownloadingQueue P}
    {contents : List BlockData} (h : Gains q q' contents) (n : ℤ) :
    (∃ b ∈ P.elems q'.blocks, b.number = n) ↔
      (∃ b ∈ P.elems q.blocks, b.number = n) ∨
        ∃ b ∈ contents, b.blockHeader.number = n := by
  obtain ⟨-, new, hblocks, hnew, -⟩ := h
  have hcontents : ∀ b, b ∈ contents ↔ b ∈ new.map Block.toBlockData := by
    intro b
    rw [hnew, Multiset.mem_coe]
  simp only [hblocks, hcontents, Multiset.mem_add, Multiset.mem_map,
    or_and_right, exists_or, exists_exists_and_eq_and]
  exact Iff.rfl

theorem isNewerBlock_iff {b : Block} :
    isNewerBlock c b = true ↔ c.blockNumber < b.number := by
  rw [isNewerBlock, Bool.not_eq_true', decide_eq_false_iff_not, not_le]

variable (createBlock) in
/-- One datum brings its block if that is newer than the chain, and nothing
otherwise. -/
theorem flushBlockData_gains (data : Bytes) (q : DownloadingQueue P) :
    Gains q (q.flushBlockData createBlock c data)
      (((createBlock data).filter fun b =>
        c.blockNumber < b.blockHeader.number).toList) := by
  unfold flushBlockData
  cases createBlock data with
  | none => exact .refl q
  | some blockData =>
      by_cases hnewer : c.blockNumber < blockData.blockHeader.number
      · rw [Option.filter_some_pos (by simpa using hnewer)]
        dsimp only
        rw [if_pos (isNewerBlock_iff.mpr hnewer)]
        refine ⟨Nat.le_succ _, {⟨blockData, q.nextPtr⟩}, ?_, rfl, ?_⟩
        · rw [P.elems_push, add_comm, Multiset.singleton_add]
        · intro b hb
          rw [Multiset.mem_singleton.mp hb]
      · rw [Option.filter_some_neg (by simpa using hnewer)]
        dsimp only
        rw [if_neg (isNewerBlock_iff.not.mpr hnewer)]
        exact ⟨Nat.le_succ _, (Gains.refl q).gained⟩

variable (createBlock) in
/-- A shard that is taken brings all its newer blocks. -/
theorem flushOneShard_gains {q : DownloadingQueue P}
    (hroom : P.size q.blocks < c.maxDownloadingBlockQueueSize)
    (shard : BlocksMsg) :
    ∃ q', q.flushOneShard createBlock c shard = (true, q') ∧
      Gains q q' (newerData createBlock c shard) := by
  have hdata : ∀ (datas : List Bytes) (q : DownloadingQueue P),
      Gains q
        (datas.foldl (fun q data => q.flushBlockData createBlock c data) q)
        (datas.filterMap fun data => (createBlock data).filter fun b =>
          c.blockNumber < b.blockHeader.number) := by
    intro datas
    induction datas with
    | nil => exact fun q => .refl q
    | cons data datas ih =>
        intro q
        rw [List.foldl_cons, List.filterMap_cons]
        have hfirst := flushBlockData_gains createBlock (c := c)
          data q
        have hall := hfirst.trans (ih _)
        cases hone : (createBlock data).filter fun b =>
            c.blockNumber < b.blockHeader.number with
        | none =>
            rw [hone] at hall
            exact hall
        | some b =>
            rw [hone] at hall
            exact hall
  refine ⟨_, if_neg (not_le.mpr hroom), hdata shard.blocksData q⟩

/-! ## The shard that is lost -/

/-- The shard that is popped when the block queue, `n` blocks long before the
shards, has reached its limit. -/
def refusedShard (createBlock : BlockFactory) (c : BlockSyncConfig) :
    ℕ → List BlocksMsg → Option BlocksMsg
  | _, [] => none
  | n, shard :: rest =>
      if c.maxDownloadingBlockQueueSize ≤ n then some shard
      else
        refusedShard createBlock c
          (n + (newerData createBlock c shard).length) rest

/-- The shards before the refused one, which the block queue takes. -/
def takenShards (createBlock : BlockFactory) (c : BlockSyncConfig) :
    ℕ → List BlocksMsg → List BlocksMsg
  | _, [] => []
  | n, shard :: rest =>
      if c.maxDownloadingBlockQueueSize ≤ n then []
      else
        shard :: takenShards createBlock c
          (n + (newerData createBlock c shard).length) rest

/-- What the shards bring, one after the other. -/
def newerDataOf (createBlock : BlockFactory) (c : BlockSyncConfig)
    (shards : List BlocksMsg) : List BlockData :=
  shards.flatMap (newerData createBlock c)

variable (createBlock) in
/-- The loop flushes shards up to the refused one, drops that one, and leaves
the rest in the buffer. -/
theorem flushLoop_gains (shards : List BlocksMsg) (q : DownloadingQueue P) :
    Gains q (flushLoop createBlock c shards q)
        (newerDataOf createBlock c
          (takenShards createBlock c (P.size q.blocks) shards)) ∧
      (refusedShard createBlock c (P.size q.blocks) shards = none ∧
          shards = takenShards createBlock c (P.size q.blocks) shards ∧
          (flushLoop createBlock c shards q).blockBuffer = [] ∨
        ∃ shard,
          refusedShard createBlock c (P.size q.blocks) shards = some shard ∧
          shards = takenShards createBlock c (P.size q.blocks) shards ++
            shard :: (flushLoop createBlock c shards q).blockBuffer ∧
          c.maxDownloadingBlockQueueSize ≤
            P.size (flushLoop createBlock c shards q).blocks) := by
  induction shards generalizing q with
  | nil => exact ⟨(Gains.refl q).setBlockBuffer [], .inl ⟨rfl, rfl, rfl⟩⟩
  | cons shard rest ih =>
      by_cases hfull : c.maxDownloadingBlockQueueSize ≤ P.size q.blocks
      · have hloop : flushLoop createBlock c (shard :: rest) q =
            { q with blockBuffer := rest } := by
          rw [flushLoop, flushOneShard, if_pos hfull]
        rw [hloop, takenShards, if_pos hfull]
        refine ⟨(Gains.refl q).setBlockBuffer rest, .inr ⟨shard, ?_⟩⟩
        exact ⟨if_pos hfull, rfl, hfull⟩
      · obtain ⟨q', hflush, hgains⟩ := flushOneShard_gains createBlock
          (not_le.mp hfull) shard
        have hloop : flushLoop createBlock c (shard :: rest) q =
            flushLoop createBlock c rest q' := by
          rw [flushLoop, hflush]
        have hrefused : refusedShard createBlock c (P.size q.blocks)
            (shard :: rest) =
              refusedShard createBlock c (P.size q'.blocks) rest := by
          rw [refusedShard, if_neg hfull, hgains.size_eq]
        have htaken : takenShards createBlock c (P.size q.blocks)
            (shard :: rest) =
              shard :: takenShards createBlock c (P.size q'.blocks) rest := by
          rw [takenShards, if_neg hfull, hgains.size_eq]
        rw [hloop, hrefused, htaken]
        obtain ⟨hrest, hend⟩ := ih q'
        refine ⟨hgains.trans hrest, ?_⟩
        rcases hend with ⟨hnone, hall, hbuffer⟩ | ⟨lost, hsome, heq, hsize⟩
        · exact .inl ⟨hnone, congrArg (shard :: ·) hall, hbuffer⟩
        · exact .inr ⟨lost, hsome, congrArg (shard :: ·) heq, hsize⟩

/-- The shards that have left the buffer are in the block queue, each newer
block once, and the loop has stopped early only at the limit. -/
def FlushedAll (createBlock : BlockFactory) (c : BlockSyncConfig)
    (q q' : DownloadingQueue P) : Prop :=
  ∃ (left : List BlocksMsg) (new : Multiset Block),
    q.blockBuffer = left ++ q'.blockBuffer ∧
    P.elems q'.blocks = P.elems q.blocks + new ∧
    new.map Block.toBlockData = ↑(newerDataOf createBlock c left) ∧
    (q'.blockBuffer ≠ [] →
      c.maxDownloadingBlockQueueSize ≤ P.size q'.blocks)

/-- Flushing loses nothing if and only if the shard that is popped when the
block queue is full, if there is one, has no block above the chain. -/
theorem flushBufferToQueue_flushedAll_iff (createBlock : BlockFactory)
    (c : BlockSyncConfig) (q : DownloadingQueue P) :
    FlushedAll createBlock c q (q.flushBufferToQueue createBlock c) ↔
      ∀ shard ∈ refusedShard createBlock c (P.size q.blocks) q.blockBuffer,
        newerData createBlock c shard = [] := by
  obtain ⟨hgains, hend⟩ := flushLoop_gains createBlock (c := c)
    q.blockBuffer q
  generalize takenShards createBlock c (P.size q.blocks) q.blockBuffer =
    flushed at hgains hend
  obtain ⟨-, new, hblocks, hnew, -⟩ := hgains
  rcases hend with ⟨hnone, hall, hbuffer⟩ | ⟨shard, hsome, hsplit, hfull⟩
  · refine iff_of_true ?_ (by simp [hnone])
    refine ⟨flushed, new, ?_, hblocks, hnew, fun hne => absurd hbuffer hne⟩
    rw [flushBufferToQueue, hbuffer, List.append_nil]
    exact hall
  · rw [hsome]
    simp only [Option.mem_some_iff, forall_eq']
    constructor
    · rintro ⟨left, new', hleft, hblocks', hnew', -⟩
      -- the refused shard has left the buffer, and nothing of it arrived
      have hgone : left = flushed ++ [shard] := by
        rw [hsplit, ← List.singleton_append, ← List.append_assoc] at hleft
        exact (List.append_cancel_right hleft).symm
      have hsame : new' = new := by
        rw [flushBufferToQueue, hblocks] at hblocks'
        exact (add_left_cancel hblocks').symm
      rw [hgone, hsame, hnew, newerDataOf, newerDataOf, List.flatMap_append,
        List.flatMap_singleton, ← Multiset.coe_add] at hnew'
      have hzero := left_eq_add.mp hnew'
      exact (Multiset.coe_eq_zero _).mp hzero
    · intro hempty
      refine ⟨flushed ++ [shard], new, ?_, hblocks, ?_, fun _ => hfull⟩
      · rw [List.append_assoc]
        exact hsplit
      · rw [hnew, newerDataOf, newerDataOf, List.flatMap_append,
          List.flatMap_singleton, hempty, List.append_nil]

/-! ## The discard of a full block queue -/

/-- A full block queue is discarded if all its blocks are above `n`. -/
theorem clearFullQueueIfNotHas_of_above {q : DownloadingQueue P} {n : ℤ}
    (hsize : P.size q.blocks = c.maxDownloadingBlockQueueSize)
    (habove : ∀ b ∈ P.elems q.blocks, n < b.number) :
    ∃ blocks, q.clearFullQueueIfNotHas c n = { q with blocks := blocks } ∧
      P.elems blocks = 0 := by
  unfold clearFullQueueIfNotHas top
  cases htop : P.top q.blocks with
  | none => exact ⟨q.blocks, rfl, P.elems_of_top_none _ htop⟩
  | some top =>
      exact ⟨P.empty, if_pos ⟨hsize, habove top (P.mem_of_top htop)⟩,
        P.elems_empty⟩

/-- It is kept if one of its blocks is at most `n`, or if it is not full. -/
theorem clearFullQueueIfNotHas_of_kept {q : DownloadingQueue P} {n : ℤ}
    (hkept : P.size q.blocks = c.maxDownloadingBlockQueueSize →
      ∃ b ∈ P.elems q.blocks, b.number ≤ n) :
    q.clearFullQueueIfNotHas c n = q := by
  unfold clearFullQueueIfNotHas top
  cases htop : P.top q.blocks with
  | none => rfl
  | some top =>
      apply if_neg
      rintro ⟨hsize, habove⟩
      obtain ⟨b, hb, hle⟩ := hkept hsize
      have htople : top.number ≤ b.number := P.le_of_top _ top htop b hb
      omega

end DownloadingQueue

namespace BlockSync

open DownloadingQueue

variable {P : BlockQueue} {createBlock : BlockFactory}

/-- The block after the executed height survives the maintenance of the
buffer, and the block queue is discarded only if it has no such block. -/
structure KeepsNext (createBlock : BlockFactory) (s : BlockSync P) :
    Prop where
  keeps : ∀ b ∈ s.blocks, b.number = s.config.executedBlock + 1 →
    b ∈ (s.maintainDownloadingBuffer createBlock).blocks
  discards : P.elems (s.downloadingQueue.clearFullQueueIfNotHas s.config
      s.config.nextBlock).blocks ≠ s.blocks →
    ∀ b ∈ s.blocks, b.number ≠ s.config.executedBlock + 1

/-- If the block queue is full and has the block after the executed height, it
also has one that is not above the next height of the chain. -/
def FullWithLowBlock (s : BlockSync P) : Prop :=
  (∃ b ∈ s.blocks, b.number = s.config.executedBlock + 1) →
    P.size s.downloadingQueue.blocks =
      s.config.maxDownloadingBlockQueueSize →
    ∃ b ∈ s.blocks, b.number ≤ s.config.nextBlock

theorem mem_blocks_flush {q : DownloadingQueue P} {c : BlockSyncConfig}
    {b : Block} (hb : b.ptr < q.nextPtr) :
    b ∈ P.elems (q.flushBufferToQueue createBlock c).blocks ↔
      b ∈ P.elems q.blocks := by
  obtain ⟨⟨-, new, hblocks, -, hfresh⟩, -⟩ := flushLoop_gains createBlock
    (c := c) q.blockBuffer q
  rw [flushBufferToQueue, hblocks, Multiset.mem_add]
  constructor
  · rintro (hold | hnew)
    · exact hold
    · exact absurd (hfresh b hnew) (not_le.mpr hb)
  · exact .inl

/-- In a state in which the node should sync, the next block to execute is
kept if and only if a full block queue that has it also has a block that is
not above the next height of the chain. -/
theorem reachable_keepsNext_iff {s : BlockSync P}
    (hs : (nodeSystem P createBlock).Reachable s)
    (hsync : s.shouldSyncing = true) :
    s.KeepsNext createBlock ↔ s.FullWithLowBlock := by
  obtain ⟨-, hidentified⟩ := reachable_identified hs
  have hold : ∀ b ∈ s.blocks, b.ptr < s.downloadingQueue.nextPtr :=
    fun b hb => hidentified.2 b (Multiset.mem_add.mpr (.inl hb))
  have hbuffer : ∀ b ∈ s.blocks,
      (s.maintainDownloadingBuffer createBlock).blocks =
        P.elems ((s.downloadingQueue.clearFullQueueIfNotHas s.config
          s.config.nextBlock).flushBufferToQueue createBlock
            s.config).blocks := by
    intro b hb
    have hpos : 0 < P.size s.downloadingQueue.blocks := by
      rw [P.size_eq]
      exact Multiset.card_pos_iff_exists_mem.mpr ⟨b, hb⟩
    unfold maintainDownloadingBuffer
    rw [if_neg (by unfold DownloadingQueue.size; omega),
      if_neg (by simp [hsync])]
    rfl
  constructor
  · intro hkeeps ⟨b, hb, hnext⟩ hsize
    by_contra hlow
    have habove : ∀ b ∈ s.blocks, s.config.nextBlock < b.number := by
      intro b hb
      by_contra hle
      exact hlow ⟨b, hb, not_lt.mp hle⟩
    -- the block queue is discarded, and what is flushed are new objects
    obtain ⟨blocks, hclear, hempty⟩ :=
      clearFullQueueIfNotHas_of_above hsize habove
    have hmem := hkeeps.keeps b hb hnext
    rw [hbuffer b hb, hclear, mem_blocks_flush (by exact hold b hb)] at hmem
    exact absurd (hempty ▸ hmem) (Multiset.notMem_zero b)
  · intro hlow
    have hkept : ∀ b ∈ s.blocks, b.number = s.config.executedBlock + 1 →
        s.downloadingQueue.clearFullQueueIfNotHas s.config
          s.config.nextBlock = s.downloadingQueue :=
      fun b hb hnext => clearFullQueueIfNotHas_of_kept (hlow ⟨b, hb, hnext⟩)
    constructor
    · intro b hb hnext
      rw [hbuffer b hb, hkept b hb hnext, mem_blocks_flush (hold b hb)]
      exact hb
    · intro hdiscards b hb hnext
      rw [hkept b hb hnext] at hdiscards
      exact hdiscards rfl

/-! ## A node with a small block queue -/

/-- A node whose block queue is limited to two blocks. -/
def smallNode : BlockSync sortedBlockQueue :=
  (new sortedBlockQueue
    { nodeID := Sample.nodeID, maxDownloadingBlockQueueSize := 2 }).init
      HashType.zero (Sample.ledgerConfig 0)

theorem isInit_smallNode : IsInit sortedBlockQueue smallNode :=
  .mk { nodeID := Sample.nodeID, maxDownloadingBlockQueueSize := 2 }
    HashType.zero (Sample.ledgerConfig 0) ⟨rfl, rfl, rfl, rfl, rfl, rfl, rfl⟩

/-- One packet fills the block queue beyond its limit; the shard of the next
packet is popped and refused. -/
theorem fullQueue_loses_shard :
    ∃ s, Sample.system.Reachable s ∧ s.shouldSyncing = true ∧
      ¬ FlushedAll Sample.createBlock s.config s.downloadingQueue
        (s.downloadingQueue.flushBufferToQueue Sample.createBlock
          s.config) := by
  obtain ⟨s, hrun, hsync, hnewer, hafter, hsame⟩ :
      ∃ s, Sample.system.exec smallNode
        [Sample.status Sample.peer 9,
          Sample.blocks [[1, 1], [2, 1], [3, 1], [4, 1]], Sample.task,
          Sample.blocks [[5, 1]]] = some s ∧
        s.shouldSyncing = true ∧
        (newerDataOf Sample.createBlock s.config
          s.downloadingQueue.blockBuffer).length = 1 ∧
        (s.downloadingQueue.flushBufferToQueue Sample.createBlock
          s.config).blockBuffer = [] ∧
        (s.downloadingQueue.flushBufferToQueue Sample.createBlock
          s.config).blocks = s.downloadingQueue.blocks :=
    ⟨_, rfl, rfl, rfl, rfl, rfl⟩
  refine ⟨s, .of_exec isInit_smallNode hrun, hsync, ?_⟩
  rintro ⟨left, new, hleft, hblocks, hnew, -⟩
  rw [hafter, List.append_nil] at hleft
  rw [hsame, left_eq_add] at hblocks
  rw [hblocks, ← hleft, Multiset.map_zero] at hnew
  have hcard := congrArg Multiset.card hnew
  rw [Multiset.card_zero, Multiset.coe_card, hnewer] at hcard
  exact absurd hcard (by decide)

/-- Block 1 is executed and being checked, and the block queue is full with
the blocks 2 and 3: both are thrown away. -/
theorem executedAhead_loses_next :
    ∃ s, Sample.system.Reachable s ∧ s.shouldSyncing = true ∧
      ¬ s.KeepsNext Sample.createBlock := by
  obtain ⟨s, hrun, hsync, hnumber, hmem, hafter⟩ :
      ∃ s, Sample.system.exec smallNode
        [Sample.status Sample.peer 9,
          Sample.blocks [[1, 1], [2, 1], [3, 1]], Sample.task,
          Sample.executed (Sample.block 0 1 1)] = some s ∧
        s.shouldSyncing = true ∧ s.config.executedBlock = 1 ∧
        Sample.block 1 2 1 ∈ s.blocks ∧
        (s.maintainDownloadingBuffer Sample.createBlock).blocks = 0 :=
    ⟨_, rfl, rfl, rfl, by decide +kernel, rfl⟩
  refine ⟨s, .of_exec isInit_smallNode hrun, hsync, ?_⟩
  intro hkeeps
  have hkept := hkeeps.keeps (Sample.block 1 2 1) hmem (by rw [hnumber]; rfl)
  rw [hafter] at hkept
  exact Multiset.notMem_zero _ hkept

theorem reachable_keepsNext_sample :
    ∃ s, Sample.system.Reachable s ∧ s.shouldSyncing = true ∧
      (∃ b ∈ s.blocks, b.number = s.config.executedBlock + 1) ∧
      (s.KeepsNext Sample.createBlock ↔ s.FullWithLowBlock) := by
  obtain ⟨s, hrun, hsync, hnumber, hmem⟩ :
      ∃ s, Sample.system.exec Sample.node
        [Sample.status Sample.peer 9, Sample.blocks [[1, 1], [2, 1]],
          Sample.task, Sample.executed (Sample.block 0 1 1)] = some s ∧
        s.shouldSyncing = true ∧ s.config.executedBlock = 1 ∧
        Sample.block 1 2 1 ∈ s.blocks :=
    ⟨_, rfl, rfl, rfl, by decide +kernel⟩
  have hreach : Sample.system.Reachable s := .of_exec Sample.isInit_node hrun
  refine ⟨s, hreach, hsync, ⟨_, hmem, ?_⟩,
    reachable_keepsNext_iff hreach hsync⟩
  rw [hnumber]
  rfl

end BlockSync

end BcosSync
