import BcosSync.Commit.Window
import BcosSync.Download.Buffer

/-!
# One execution per height in flight

The download task passes on the block after the executed height, and the
executed height moves only when the execution is answered.  Until then a
second block of the height that is left in the block queue, or arrives in the
buffer, is passed on too.
-/

namespace BcosSync

namespace BlockSync

open DownloadingQueue TransitionSystem

variable {P : BlockQueue} {createBlock : BlockFactory}

/-- The step starts no execution of a height whose execution has not been
answered. -/
def ExecutesAlone (s t : BlockSync P) : Prop :=
  ∀ b, s.Starts t b → ∀ a, s.Executing a → a.number ≠ b.number

/-! ## The blocks at hand -/

/-- The block queue is full, and all its blocks are above the next height of
the chain. -/
def DiscardsQueue (s : BlockSync P) : Prop :=
  P.size s.downloadingQueue.blocks =
      s.config.maxDownloadingBlockQueueSize ∧
    ∀ b ∈ s.blocks, s.config.nextBlock < b.number

instance (s : BlockSync P) : Decidable s.DiscardsQueue :=
  inferInstanceAs (Decidable (_ ∧ _))

/-- The length of the block queue before the shards of the buffer come. -/
def keptSize (s : BlockSync P) : ℕ :=
  if s.DiscardsQueue then 0 else P.size s.downloadingQueue.blocks

/-- A block of height `n` is in the block queue, and that is not discarded, or
in a shard of the buffer for which the block queue has room. -/
def AtHand (createBlock : BlockFactory) (s : BlockSync P) (n : ℤ) : Prop :=
  (¬ s.DiscardsQueue ∧ ∃ b ∈ s.blocks, b.number = n) ∨
    ∃ shard ∈ takenShards createBlock s.config s.keptSize
        s.downloadingQueue.blockBuffer,
      ∃ b ∈ newerData createBlock s.config shard, b.blockHeader.number = n

instance (s : BlockSync P) (n : ℤ) : Decidable (s.AtHand createBlock n) :=
  have : Decidable (∃ b ∈ s.blocks, b.number = n) :=
    Multiset.decidableExistsMultiset
  inferInstanceAs (Decidable (_ ∨ _))

/-- An execution of height `n` has not been answered. -/
def HeightInFlight (s : BlockSync P) (n : ℤ) : Prop :=
  ∃ a, s.Executing a ∧ a.number = n

instance (s : BlockSync P) (n : ℤ) : Decidable (s.HeightInFlight n) :=
  decidable_of_iff
    (∃ cb ∈ s.pending, ∃ a ∈ CommitSide.executingBlock cb, a.number = n) (by
      constructor
      · rintro ⟨cb, hmem, a, ha, hnumber⟩
        cases cb <;> cases ha
        exact ⟨a, hmem, hnumber⟩
      · rintro ⟨a, hmem, hnumber⟩
        exact ⟨_, hmem, a, rfl, hnumber⟩)

/-- While the height after the executed one is being executed, no download
task that may execute blocks has another block of this height at hand. -/
def FindsNoDuplicate (createBlock : BlockFactory) (s : BlockSync P) :
    Input → Prop
  | .downloadTask _ =>
      s.shouldSyncing = true →
      s.config.executedBlock < s.config.blockNumber + waterMark →
      s.HeightInFlight (s.config.executedBlock + 1) →
        ¬ s.AtHand createBlock (s.config.executedBlock + 1)
  | _ => True

instance (s : BlockSync P) (i : Input) :
    Decidable (s.FindsNoDuplicate createBlock i) := by
  unfold FindsNoDuplicate
  split <;> infer_instance

/-- A queue after flushing has the blocks it had and those of the shards it
has room for. -/
theorem exists_mem_flush_iff {c : BlockSyncConfig} {q : DownloadingQueue P}
    (n : ℤ) :
    (∃ b ∈ P.elems (q.flushBufferToQueue createBlock c).blocks,
        b.number = n) ↔
      (∃ b ∈ P.elems q.blocks, b.number = n) ∨
        ∃ shard ∈ takenShards createBlock c (P.size q.blocks) q.blockBuffer,
          ∃ b ∈ newerData createBlock c shard, b.blockHeader.number = n := by
  obtain ⟨hgains, -⟩ := flushLoop_gains createBlock (c := c) q.blockBuffer q
  refine (hgains.exists_number_iff n).trans (or_congr Iff.rfl ?_)
  simp only [newerDataOf, List.mem_flatMap]
  constructor
  · rintro ⟨b, ⟨shard, hshard, hb⟩, hnumber⟩
    exact ⟨shard, hshard, b, hb, hnumber⟩
  · rintro ⟨shard, hshard, b, hb, hnumber⟩
    exact ⟨b, ⟨shard, hshard, hb⟩, hnumber⟩

/-- What the maintenance of the buffer leaves in the block queue is what was
at hand before it. -/
theorem exists_mem_maintainDownloadingBuffer_iff {s : BlockSync P}
    (hsync : s.shouldSyncing = true) (n : ℤ) :
    (∃ b ∈ (s.maintainDownloadingBuffer createBlock).blocks, b.number = n) ↔
      s.AtHand createBlock n := by
  unfold maintainDownloadingBuffer
  by_cases hsize : s.downloadingQueue.size = 0
  · have hbuffer : s.downloadingQueue.blockBuffer = [] :=
      List.eq_nil_of_length_eq_zero (Nat.eq_zero_of_add_eq_zero_right hsize)
    have hblocks : s.blocks = 0 := by
      rw [← Multiset.card_eq_zero, blocks, ← P.size_eq]
      exact Nat.eq_zero_of_add_eq_zero_left hsize
    rw [if_pos hsize]
    simp [AtHand, hbuffer, hblocks, takenShards]
  · rw [if_neg hsize, if_neg (by simp [hsync])]
    refine (exists_mem_flush_iff n).trans ?_
    by_cases hdiscards : s.DiscardsQueue
    · obtain ⟨queue, hclear, hempty⟩ :=
        clearFullQueueIfNotHas_of_above hdiscards.1 hdiscards.2
      have hzero : P.size queue = 0 := by
        rw [P.size_eq, hempty, Multiset.card_zero]
      simp [AtHand, keptSize, hdiscards, hclear, hempty, hzero]
    · have hkept := clearFullQueueIfNotHas_of_kept
        (q := s.downloadingQueue) (c := s.config) (n := s.config.nextBlock)
        fun hfull => by
          by_contra hlow
          refine hdiscards ⟨hfull, fun b hb => ?_⟩
          by_contra hle
          exact hlow ⟨b, hb, not_lt.mp hle⟩
      simp [AtHand, keptSize, hdiscards, hkept, blocks]

/-! ## The block that is handed on -/

theorem appliedBlock_eq {s : BlockSync P} :
    s.appliedBlock createBlock =
      if s.shouldSyncing then
        (s.maintainDownloadingBuffer createBlock).prepareExecution.expectedTop
      else none := by
  have hsame : (s.maintainDownloadingBuffer createBlock).shouldSyncing =
      s.shouldSyncing := by
    simp only [shouldSyncing, config_maintainDownloadingBuffer]
  rw [appliedBlock, hsame]

/-- The top of the block queue is the block after the executed height if the
queue holds any block of that height. -/
theorem exists_expectedTop_iff {s : BlockSync P} :
    (∃ b, s.prepareExecution.expectedTop = some b) ↔
      s.config.executedBlock < s.config.blockNumber + waterMark ∧
        ∃ b ∈ s.blocks, b.number = s.config.executedBlock + 1 := by
  have hblocks := blocks_prepareExecution s
  constructor
  · rintro ⟨b, hb⟩
    obtain ⟨htop, hlt, hnumber⟩ := expectedTop_eq_some.mp hb
    rw [config_prepareExecution] at hlt hnumber
    have hmem : b ∈ s.prepareExecution.blocks := P.mem_of_top htop
    rw [hblocks] at hmem
    exact ⟨hlt, b, (Multiset.mem_filter.mp hmem).1, hnumber⟩
  · rintro ⟨hlt, b, hb, hnumber⟩
    have hmem : b ∈ s.prepareExecution.blocks := by
      rw [hblocks, Multiset.mem_filter]
      exact ⟨hb, by omega⟩
    cases htop : P.top s.prepareExecution.downloadingQueue.blocks with
    | none =>
        have hempty : s.prepareExecution.blocks = 0 :=
          P.elems_of_top_none _ htop
        rw [hempty] at hmem
        exact absurd hmem (Multiset.notMem_zero b)
    | some top =>
        have htopmem : top ∈ s.prepareExecution.blocks := P.mem_of_top htop
        rw [hblocks] at htopmem
        have habove := (Multiset.mem_filter.mp htopmem).2
        have hle : top.number ≤ b.number := P.le_of_top _ top htop b hmem
        refine ⟨top, expectedTop_eq_some.mpr ⟨htop, ?_, ?_⟩⟩ <;>
          rw [config_prepareExecution]
        · exact hlt
        · omega

theorem exists_appliedBlock_iff {s : BlockSync P} :
    (∃ b, s.appliedBlock createBlock = some b) ↔
      s.shouldSyncing = true ∧
        s.config.executedBlock < s.config.blockNumber + waterMark ∧
        s.AtHand createBlock (s.config.executedBlock + 1) := by
  have htop := exists_expectedTop_iff
    (s := s.maintainDownloadingBuffer createBlock)
  rw [config_maintainDownloadingBuffer] at htop
  rw [appliedBlock_eq]
  split_ifs with hsync
  · rw [htop, exists_mem_maintainDownloadingBuffer_iff hsync]
    simp [hsync]
  · simp [hsync]

theorem number_of_appliedBlock {s : BlockSync P} {b : Block}
    (hb : s.appliedBlock createBlock = some b) :
    b.number = s.config.executedBlock + 1 := by
  rw [appliedBlock_eq] at hb
  split_ifs at hb
  have hnumber := (expectedTop_eq_some.mp hb).2.2
  rwa [config_prepareExecution, config_maintainDownloadingBuffer] at hnumber

theorem step_executesAlone_iff {s t : BlockSync P} {i : Input}
    (hordered : s.commitSide.Ordered)
    (hstep : s.step createBlock i = some t) :
    s.ExecutesAlone t ↔ s.FindsNoDuplicate createBlock i := by
  constructor
  · intro halone
    cases i with
    | downloadTask rand =>
        rintro hsync hmark ⟨a, ha, hnumber⟩ hhand
        obtain ⟨b, hb⟩ := exists_appliedBlock_iff.mpr ⟨hsync, hmark, hhand⟩
        exact halone b ((step_starts_iff hordered hstep).mpr ⟨rand, rfl, hb⟩)
          a ha (hnumber.trans (number_of_appliedBlock hb).symm)
    | _ => trivial
  · intro hfinds b hstarts a ha heq
    obtain ⟨rand, rfl, hb⟩ := (step_starts_iff hordered hstep).mp hstarts
    obtain ⟨hsync, hmark, hhand⟩ := exists_appliedBlock_iff.mp ⟨b, hb⟩
    exact hfinds hsync hmark ⟨a, ha, heq.trans (number_of_appliedBlock hb)⟩
      hhand

/-- A run from `init` starts no execution of a height in flight if and only if
none of its download tasks has a second block of such a height at hand. -/
theorem run_executesAlone_iff {s : BlockSync P} (hs : IsInit P s)
    (is : List Input) :
    (nodeSystem P createBlock).AllTransitions (fun s _ t => ExecutesAlone s t)
        s is ↔
      (nodeSystem P createBlock).AllSteps (FindsNoDuplicate createBlock)
        s is :=
  allTransitions_iff (A := fun _ => True) (I := fun s => s.commitSide.Ordered)
    (fun _ _ _ _ hordered ht => (step_commitSide hordered ht).ordered hordered)
    (fun _ _ _ _ hordered ht => step_executesAlone_iff hordered ht)
    (fun _ _ => trivial) hs.ordered

/-- Two copies of block 1 arrive: the second download task passes the second
copy to the scheduler while the first one is being executed. -/
theorem duplicate_executed_together :
    ∃ s t, Sample.system.Reachable s ∧
      Sample.system.step s Sample.task = some t ∧ ¬ s.ExecutesAlone t := by
  obtain ⟨s, t, hrun, hstep, hpending, hbefore, hafter⟩ :
      ∃ s t, Sample.system.exec Sample.node
        [Sample.status Sample.peer 2, Sample.blocks [[1, 1], [1, 1]],
          Sample.task] = some s ∧
        Sample.system.step s Sample.task = some t ∧
        s.pending = [.executeBlock (Sample.block 1 1 1)] ∧
        s.trace.count (.executeBlock (Sample.block 0 1 1)) = 0 ∧
        t.trace.count (.executeBlock (Sample.block 0 1 1)) = 1 :=
    ⟨_, _, rfl, rfl, by decide +kernel, by decide +kernel, by decide +kernel⟩
  refine ⟨s, t, .of_exec Sample.isInit_node hrun, hstep, fun halone => ?_⟩
  have hexecuting : s.Executing (Sample.block 1 1 1) := by
    rw [Executing, hpending]
    exact List.mem_cons_self
  refine halone (Sample.block 0 1 1) ?_ _ hexecuting rfl
  rw [Starts, hbefore, hafter]
  exact Nat.zero_lt_one

/-- A second block of height 1 arrives after the first one has been executed,
and two more download tasks run. -/
def lateDuplicateRun : List Input :=
  [Sample.status Sample.peer 3, Sample.blocks [[1, 1]], Sample.task,
    Sample.executed (Sample.block 0 1 1), Sample.blocks [[1, 1], [2, 1]],
    Sample.task, Sample.task]

theorem run_executesAlone_sample :
    (Sample.system.AllTransitions (fun s _ t => ExecutesAlone s t) Sample.node
      lateDuplicateRun) ∧
    ∃ t, Sample.system.exec Sample.node lateDuplicateRun = some t ∧
      .executeBlock (Sample.block 2 2 1) ∈ t.pending :=
  ⟨(run_executesAlone_iff Sample.isInit_node lateDuplicateRun).mpr
      (by decide +kernel),
    _, rfl, by decide +kernel⟩

end BlockSync

end BcosSync
