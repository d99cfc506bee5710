import BcosSync.Download.Buffer
import BcosSync.Peers.Model

/-!
# The capacity of the downloading queue

The block buffer and the block queue as a system of their own, whose inputs
are the operations of `DownloadingQueue` in any order.  The buffer is tested
for room before each shard and stays within the capacity.  The block queue is
tested before each shard as well, but gains a block per datum: it stays within
the capacity if and only if no shard brings more than there is room for.

`clearFullQueueIfNotHas` takes the block queue for full only at exactly the
capacity, so that beyond it the queue is never cleared.
-/

namespace BcosSync

namespace DownloadingQueue

variable {P : BlockQueue} {createBlock : BlockFactory} {c : BlockSyncConfig}

/-- The block queue takes no more shards, and all its blocks are above `n`. -/
def FullAbove (n : ℤ) (c : BlockSyncConfig) (q : DownloadingQueue P) : Prop :=
  c.maxDownloadingBlockQueueSize ≤ P.size q.blocks ∧
    ∀ b ∈ P.elems q.blocks, n < b.number

/-- A full block queue without a block up to `n` is cleared if and only if it
is at exactly the capacity. -/
theorem not_fullAbove_clearFullQueueIfNotHas_iff {n : ℤ}
    {q : DownloadingQueue P} :
    ¬ FullAbove n c (q.clearFullQueueIfNotHas c n) ↔
      (P.size q.blocks = 0 → 0 < c.maxDownloadingBlockQueueSize) ∧
        (P.size q.blocks ≤ c.maxDownloadingBlockQueueSize ∨
          ∃ b ∈ P.elems q.blocks, b.number ≤ n) := by
  unfold clearFullQueueIfNotHas top
  cases htop : P.top q.blocks with
  | none =>
      have hzero : P.elems q.blocks = 0 := P.elems_of_top_none _ htop
      have hsize : P.size q.blocks = 0 := by
        rw [P.size_eq, hzero, Multiset.card_zero]
      simp [FullAbove, hzero, hsize]
  | some b =>
      have hsize := P.size_pop htop
      have habove : (∀ a ∈ P.elems q.blocks, n < a.number) ↔ n < b.number :=
        ⟨fun h => h b (P.mem_of_top htop),
          fun h a ha => h.trans_le (P.le_of_top _ b htop a ha)⟩
      have hlow : (∃ a ∈ P.elems q.blocks, a.number ≤ n) ↔ b.number ≤ n := by
        constructor
        · rintro ⟨a, ha, hle⟩
          exact (P.le_of_top _ b htop a ha).trans hle
        · exact fun hle => ⟨b, P.mem_of_top htop, hle⟩
      dsimp only
      rw [hlow]
      split_ifs with hclear
      · have hempty : P.size (clearQueue q).blocks = 0 := P.size_empty
        unfold FullAbove
        omega
      · unfold FullAbove
        rw [habove]
        omega

/-- No height finds the block queue stuck after the clearing if and only if
its size is within the capacity. -/
theorem forall_not_fullAbove_iff {q : DownloadingQueue P} :
    (∀ n, ¬ FullAbove n c (q.clearFullQueueIfNotHas c n)) ↔
      (P.size q.blocks = 0 → 0 < c.maxDownloadingBlockQueueSize) ∧
        P.size q.blocks ≤ c.maxDownloadingBlockQueueSize := by
  simp only [not_fullAbove_clearFullQueueIfNotHas_iff]
  constructor
  · intro h
    refine ⟨(h 0).1, ?_⟩
    cases htop : P.top q.blocks with
    | none =>
        rw [P.size_eq, P.elems_of_top_none _ htop, Multiset.card_zero]
        exact Nat.zero_le _
    | some b =>
        -- below the top there is no block at all
        rcases (h (b.number - 1)).2 with hsize | ⟨a, ha, hle⟩
        · exact hsize
        · have hab : b.number ≤ a.number := P.le_of_top _ b htop a ha
          omega
  · exact fun h n => ⟨h.1, .inl h.2⟩

/-! ## One shard at a time -/

/-- The shards of the buffer have no part in flushing one of them. -/
theorem flushOneShard_setBlockBuffer (shard : BlocksMsg)
    (q : DownloadingQueue P) (buffer : List BlocksMsg) :
    { q with blockBuffer := buffer }.flushOneShard createBlock c shard =
      ((q.flushOneShard createBlock c shard).1,
        { (q.flushOneShard createBlock c shard).2 with
          blockBuffer := buffer }) := by
  have hdata : ∀ (datas : List Bytes) (q : DownloadingQueue P),
      datas.foldl (fun q data => q.flushBlockData createBlock c data)
          { q with blockBuffer := buffer } =
        { datas.foldl (fun q data => q.flushBlockData createBlock c data) q
            with blockBuffer := buffer } := by
    intro datas
    induction datas with
    | nil => exact fun _ => rfl
    | cons data datas ih =>
        intro q
        rw [List.foldl_cons, List.foldl_cons, ← ih]
        congr 1
        unfold flushBlockData
        split
        · rfl
        · dsimp only
          split <;> rfl
  unfold flushOneShard
  split_ifs
  · rfl
  · rw [hdata]

end DownloadingQueue

/-! ## Operations -/

/-- The config and the queues of a node. -/
structure QueueSide (P : BlockQueue) where
  config : BlockSyncConfig
  downloadingQueue : DownloadingQueue P

namespace QueueSide

open DownloadingQueue

/-- The operations on the queues.  A flush is one `flushOneShard` for each
shard it pops; what executions and commits do to the commit queue, and what
new blocks and statuses do to the config, is left open. -/
inductive Operation (P : BlockQueue)
  | push (msg : BlocksMsg)
  | flushOneShard
  | pop
  | clearBuffer
  | clearQueue
  | clearFullQueueIfNotHas (blockNumber : ℤ)
  | clearExpired (limit : ℤ)
  | setCommitQueue (commitQueue : P.Carrier)
  | setConfig (config : BlockSyncConfig)

variable {P : BlockQueue} {createBlock : BlockFactory}

def setBlocks (q : P.Carrier) (s : QueueSide P) : QueueSide P :=
  { s with downloadingQueue := { s.downloadingQueue with blocks := q } }

/-- The capacity is set once, when the config is made. -/
def step (createBlock : BlockFactory) (s : QueueSide P) :
    Operation P → Option (QueueSide P)
  | .push msg =>
      some { s with downloadingQueue := s.downloadingQueue.push msg s.config }
  | .flushOneShard =>
      match s.downloadingQueue.blockBuffer with
      | [] => none
      | shard :: rest =>
          some { s with
            downloadingQueue :=
              (DownloadingQueue.flushOneShard createBlock s.config shard
                { s.downloadingQueue with blockBuffer := rest }).2 }
  | .pop => some (s.setBlocks (P.pop s.downloadingQueue.blocks))
  | .clearBuffer =>
      some { s with
        downloadingQueue := { s.downloadingQueue with blockBuffer := [] } }
  | .clearQueue =>
      some { s with downloadingQueue := s.downloadingQueue.clearQueue }
  | .clearFullQueueIfNotHas n =>
      some { s with
        downloadingQueue :=
          s.downloadingQueue.clearFullQueueIfNotHas s.config n }
  | .clearExpired limit =>
      some (s.setBlocks (popUpTo limit s.downloadingQueue.blocks))
  | .setCommitQueue q =>
      some { s with
        downloadingQueue := { s.downloadingQueue with commitQueue := q } }
  | .setConfig c =>
      if c.maxDownloadingBlockQueueSize =
          s.config.maxDownloadingBlockQueueSize then
        some { s with config := c }
      else none

/-- Both queues and the buffer are empty. -/
inductive IsInit (P : BlockQueue) : QueueSide P → Prop
  | mk (c : BlockSyncConfig) :
      IsInit P ⟨c, ⟨P.empty, [], P.empty, 0⟩⟩

/-- The runs of the downloading queue. -/
def system (P : BlockQueue) (createBlock : BlockFactory) :
    TransitionSystem (QueueSide P) (Operation P) where
  IsInit := IsInit P
  step := step createBlock

/-! ## What an operation does to the sizes -/

def capacity (s : QueueSide P) : ℕ := s.config.maxDownloadingBlockQueueSize

def bufferSize (s : QueueSide P) : ℕ :=
  s.downloadingQueue.blockBuffer.length

def queueSize (s : QueueSide P) : ℕ := P.size s.downloadingQueue.blocks

/-- A shard that is taken brings no more newer blocks than there is room
for. -/
def Fits (createBlock : BlockFactory) (s : QueueSide P) :
    Operation P → Prop
  | .flushOneShard =>
      s.queueSize < s.capacity →
        ∀ shard ∈ s.downloadingQueue.blockBuffer.head?,
          s.queueSize + (newerData createBlock s.config shard).length ≤
            s.capacity
  | _ => True

theorem size_popUpTo_le (limit : ℤ) (q : P.Carrier) :
    P.size (popUpTo limit q) ≤ P.size q := by
  rw [P.size_eq, P.size_eq, BlockSync.elems_popUpTo]
  exact Multiset.card_le_card (Multiset.filter_le _ _)

theorem size_pop_le (q : P.Carrier) : P.size (P.pop q) ≤ P.size q := by
  cases htop : P.top q with
  | none =>
      rw [P.size_eq, P.elems_pop_of_top_none q htop, Multiset.card_zero]
      exact Nat.zero_le _
  | some b =>
      have hsize := P.size_pop htop
      omega

theorem size_clearFullQueueIfNotHas_le (c : BlockSyncConfig) (n : ℤ)
    (q : DownloadingQueue P) :
    P.size (q.clearFullQueueIfNotHas c n).blocks ≤ P.size q.blocks := by
  unfold clearFullQueueIfNotHas
  split
  · exact le_rfl
  · split
    · exact P.size_empty.trans_le (Nat.zero_le _)
    · exact le_rfl

/-- Flushing the front shard. -/
theorem step_flushOneShard {s t : QueueSide P}
    (h : step createBlock s .flushOneShard = some t) :
    ∃ shard rest, s.downloadingQueue.blockBuffer = shard :: rest ∧
      t.config = s.config ∧ t.downloadingQueue.blockBuffer = rest ∧
      (s.capacity ≤ s.queueSize ∧ t.queueSize = s.queueSize ∨
        s.queueSize < s.capacity ∧ t.queueSize =
          s.queueSize + (newerData createBlock s.config shard).length) := by
  rw [step] at h
  split at h
  · cases h
  · next shard rest hbuffer =>
      obtain rfl := Option.some.inj h
      rw [flushOneShard_setBlockBuffer]
      refine ⟨shard, rest, hbuffer, rfl, rfl, ?_⟩
      by_cases hfull : s.capacity ≤ s.queueSize
      · have hrefused : DownloadingQueue.flushOneShard createBlock s.config
            shard s.downloadingQueue = (false, s.downloadingQueue) :=
          if_pos hfull
        rw [hrefused]
        exact .inl ⟨hfull, rfl⟩
      · obtain ⟨q, hflush, hgains⟩ := flushOneShard_gains createBlock
          (c := s.config) (not_le.mp hfull) shard
        rw [hflush]
        exact .inr ⟨not_le.mp hfull, hgains.size_eq⟩

/-- The other operations add no block to the block queue. -/
theorem step_of_ne_flush {s t : QueueSide P} {op : Operation P}
    (hop : op ≠ .flushOneShard) (h : step createBlock s op = some t) :
    t.capacity = s.capacity ∧ t.queueSize ≤ s.queueSize ∧
      t.bufferSize ≤ max s.bufferSize s.capacity := by
  cases op with
  | push msg =>
      obtain rfl := Option.some.inj h
      dsimp only [capacity, queueSize, bufferSize]
      unfold DownloadingQueue.push
      split_ifs with hfull
      · exact ⟨rfl, le_rfl, le_max_left _ _⟩
      · refine ⟨rfl, le_rfl, le_max_of_le_right ?_⟩
        rw [List.length_append]
        exact not_le.mp hfull
  | flushOneShard => exact absurd rfl hop
  | pop =>
      obtain rfl := Option.some.inj h
      exact ⟨rfl, size_pop_le _, le_max_left _ _⟩
  | clearBuffer =>
      obtain rfl := Option.some.inj h
      exact ⟨rfl, le_rfl, Nat.zero_le _⟩
  | clearQueue =>
      obtain rfl := Option.some.inj h
      exact ⟨rfl, P.size_empty.trans_le (Nat.zero_le _), le_max_left _ _⟩
  | clearFullQueueIfNotHas n =>
      obtain rfl := Option.some.inj h
      refine ⟨rfl, size_clearFullQueueIfNotHas_le _ _ _, ?_⟩
      refine le_max_of_le_left (le_of_eq ?_)
      dsimp only [bufferSize]
      unfold DownloadingQueue.clearFullQueueIfNotHas
      split
      · rfl
      · split <;> rfl
  | clearExpired limit =>
      obtain rfl := Option.some.inj h
      exact ⟨rfl, size_popUpTo_le _ _, le_max_left _ _⟩
  | setCommitQueue q =>
      obtain rfl := Option.some.inj h
      exact ⟨rfl, le_rfl, le_max_left _ _⟩
  | setConfig c =>
      rw [step] at h
      split_ifs at h with hsame
      obtain rfl := Option.some.inj h
      exact ⟨hsame, le_rfl, le_max_left _ _⟩

theorem step_capacity {s t : QueueSide P} {op : Operation P}
    (h : step createBlock s op = some t) : t.capacity = s.capacity := by
  by_cases hop : op = .flushOneShard
  · subst hop
    obtain ⟨_, _, -, hconfig, -⟩ := step_flushOneShard h
    exact congrArg BlockSyncConfig.maxDownloadingBlockQueueSize hconfig
  · exact (step_of_ne_flush hop h).1

/-- The buffer is tested before each shard that it gains. -/
theorem step_bufferSize {s t : QueueSide P} {op : Operation P}
    (hs : s.bufferSize ≤ s.capacity) (h : step createBlock s op = some t) :
    t.bufferSize ≤ t.capacity := by
  rw [step_capacity h]
  by_cases hop : op = .flushOneShard
  · subst hop
    obtain ⟨shard, rest, hbuffer, -, hrest, -⟩ := step_flushOneShard h
    unfold bufferSize at hs ⊢
    rw [hbuffer, List.length_cons] at hs
    rw [hrest]
    omega
  · have hle := (step_of_ne_flush hop h).2.2
    rwa [max_eq_right hs] at hle

/-- The step lemma: the block queue stays within the capacity if and only if
the shard fits. -/
theorem step_queueSize_iff {s t : QueueSide P} {op : Operation P}
    (hs : s.queueSize ≤ s.capacity) (h : step createBlock s op = some t) :
    t.queueSize ≤ t.capacity ↔ Fits createBlock s op := by
  rw [step_capacity h]
  by_cases hop : op = .flushOneShard
  · subst hop
    obtain ⟨shard, rest, hbuffer, -, -, hfull | hroom⟩ :=
      step_flushOneShard h
    · rw [hfull.2]
      exact iff_of_true hs fun hlt => absurd hlt (not_lt.mpr hfull.1)
    · rw [hroom.2, Fits, hbuffer]
      simp [hroom.1]
  · have hle := (step_of_ne_flush hop h).2.1
    refine iff_of_true (hle.trans hs) ?_
    cases op with
    | flushOneShard => exact absurd rfl hop
    | _ => trivial

/-! ## Runs -/

/-- The buffer and the block queue are within the capacity. -/
structure Bounded (s : QueueSide P) : Prop where
  bufferSize_le : s.bufferSize ≤ s.capacity
  queueSize_le : s.queueSize ≤ s.capacity

theorem IsInit.queueSize_eq {s : QueueSide P} (h : IsInit P s) :
    s.queueSize = 0 := by
  obtain ⟨c⟩ := h
  exact P.size_empty

theorem IsInit.bounded {s : QueueSide P} (h : IsInit P s) : s.Bounded := by
  refine ⟨?_, h.queueSize_eq ▸ Nat.zero_le _⟩
  obtain ⟨c⟩ := h
  exact Nat.zero_le _

open TransitionSystem

/-- The block buffer is always within the capacity, and the block queue is as
long as no shard that is taken brings more newer blocks than there is room
for. -/
theorem run_bounded_iff {s : QueueSide P} (hs : IsInit P s)
    (ops : List (Operation P)) :
    (system P createBlock).AllStates (fun s => s.bufferSize ≤ s.capacity)
        s ops ∧
      ((system P createBlock).AllStates Bounded s ops ↔
        (system P createBlock).AllSteps (Fits createBlock) s ops) := by
  constructor
  · refine allStates_of_allSteps (A := fun _ => True) (I := fun _ => True)
      (C := fun _ _ => True) (fun _ _ _ _ _ _ => trivial) ?_
      (fun _ _ => trivial) trivial hs.bounded.bufferSize_le .trivial
    exact fun s op t _ _ hbuffer _ h => step_bufferSize hbuffer h
  · refine allStates_iff_allSteps (A := fun _ => True) (I := fun _ => True)
      (fun _ _ _ _ _ _ => trivial) ?_ (fun _ _ => trivial) trivial hs.bounded
    intro s op t _ _ hbounded h
    rw [← step_queueSize_iff hbounded.queueSize_le h]
    exact ⟨fun ht => ht.queueSize_le,
      fun ht => ⟨step_bufferSize hbounded.bufferSize_le h, ht⟩⟩

/-- An empty queue with room for two blocks. -/
def sample : QueueSide sortedBlockQueue where
  config := { nodeID := Sample.nodeID, maxDownloadingBlockQueueSize := 2 }
  downloadingQueue := ⟨sortedBlockQueue.empty, [], sortedBlockQueue.empty, 0⟩

/-- A packet with two blocks is flushed. -/
def sampleOperations : List (Operation sortedBlockQueue) :=
  [.push ⟨[[1, 1], [2, 1]]⟩, .flushOneShard]

theorem allSteps_fits_sample :
    (system sortedBlockQueue Sample.createBlock).AllSteps
      (Fits Sample.createBlock) sample sampleOperations := by
  refine fun s hs => ⟨trivial, fun t _ => ⟨?_, trivial⟩⟩
  obtain rfl := Option.some.inj hs
  intro _ shard hshard
  obtain rfl := Option.some.inj hshard
  decide

theorem run_bounded_iff_sample :
    (system sortedBlockQueue Sample.createBlock).AllStates Bounded sample
      sampleOperations :=
  (run_bounded_iff (IsInit.mk _) sampleOperations).2.mpr allSteps_fits_sample

/-- No height finds the block queue full after `clearFullQueueIfNotHas` and
without a block up to that height. -/
def AlwaysCleared (s : QueueSide P) : Prop :=
  ∀ n, ¬ FullAbove n s.config
    (s.downloadingQueue.clearFullQueueIfNotHas s.config n)

theorem alwaysCleared_iff {s : QueueSide P} (hcapacity : 0 < s.capacity) :
    s.AlwaysCleared ↔ s.queueSize ≤ s.capacity :=
  forall_not_fullAbove_iff.trans (and_iff_right fun _ => hcapacity)

theorem exec_capacity {s t : QueueSide P} {ops : List (Operation P)}
    (h : (system P createBlock).exec s ops = some t) :
    t.capacity = s.capacity := by
  induction ops generalizing s with
  | nil => exact congrArg capacity (Option.some.inj h).symm
  | cons op ops ih =>
      obtain ⟨u, hu, hrest⟩ := exists_of_exec_cons h
      exact (ih hrest).trans (step_capacity hu)

/-- Without capacity no shard is taken. -/
theorem reachable_capacity_pos {s : QueueSide P}
    (hs : (system P createBlock).Reachable s) (hsize : s.queueSize ≠ 0) :
    0 < s.capacity := by
  revert hsize
  refine hs.invariant (I := fun s => s.queueSize ≠ 0 → 0 < s.capacity) ?_ ?_
  · exact fun s hs hsize => absurd hs.queueSize_eq hsize
  · intro s op t _ ih h hsize
    rw [step_capacity h]
    by_cases hop : op = .flushOneShard
    · subst hop
      obtain ⟨_, _, -, -, -, hfull | hroom⟩ := step_flushOneShard h
      · exact ih (hfull.2 ▸ hsize)
      · exact (Nat.zero_le _).trans_lt hroom.1
    · have hle := (step_of_ne_flush hop h).2.1
      exact ih (by omega)

/-- A full block queue without the wanted block is cleared in every state of a
run if and only if the block queue never grows beyond the capacity.  For a
single state and height, it is enough that a wanted block is there. -/
theorem run_alwaysCleared_iff {s : QueueSide P} (hs : IsInit P s)
    (ops : List (Operation P)) :
    ((system P createBlock).AllStates AlwaysCleared s ops ↔
        0 < s.capacity ∧
          (system P createBlock).AllSteps (Fits createBlock) s ops) ∧
      ∀ t, (system P createBlock).exec s ops = some t → ∀ n,
        (¬ FullAbove n t.config
            (t.downloadingQueue.clearFullQueueIfNotHas t.config n) ↔
          0 < s.capacity ∧ (t.queueSize ≤ t.capacity ∨
            ∃ b ∈ P.elems t.downloadingQueue.blocks, b.number ≤ n)) := by
  constructor
  · by_cases hcapacity : 0 < s.capacity
    · rw [and_iff_right hcapacity]
      refine allStates_iff_allSteps (A := fun _ => True)
        (I := fun s => 0 < s.capacity) ?_ ?_ (fun _ _ => trivial) hcapacity ?_
      · exact fun s op t _ hpos h => (step_capacity h).symm ▸ hpos
      · intro s op t _ hpos hcleared h
        have hpos' : 0 < t.capacity := (step_capacity h).symm ▸ hpos
        rw [alwaysCleared_iff hpos']
        exact step_queueSize_iff ((alwaysCleared_iff hpos).mp hcleared) h
      · exact (alwaysCleared_iff hcapacity).mpr hs.bounded.queueSize_le
    · refine iff_of_false ?_ fun h => hcapacity h.1
      exact fun h => hcapacity
        ((forall_not_fullAbove_iff.mp h.1).1 hs.queueSize_eq)
  · intro t ht n
    have hreach : (system P createBlock).Reachable t := .of_exec hs ht
    rw [not_fullAbove_clearFullQueueIfNotHas_iff, ← exec_capacity ht]
    refine and_congr_left' ⟨fun h => ?_, fun h _ => h⟩
    by_cases hzero : t.queueSize = 0
    · exact h hzero
    · exact reachable_capacity_pos hreach hzero

theorem run_alwaysCleared_iff_sample :
    (system sortedBlockQueue Sample.createBlock).AllStates AlwaysCleared
      sample sampleOperations :=
  (run_alwaysCleared_iff (IsInit.mk _) sampleOperations).1.mpr
    ⟨by decide, allSteps_fits_sample⟩

end QueueSide

/-! ## The node -/

namespace BlockSync

open QueueSide DownloadingQueue TransitionSystem

variable {P : BlockQueue} {createBlock : BlockFactory} {c : BlockSyncConfig}

def queueSide (s : BlockSync P) : QueueSide P :=
  ⟨s.config, s.downloadingQueue⟩

/-- Operations lead from one queue to the other, the config left alone. -/
def Operates (createBlock : BlockFactory) (c : BlockSyncConfig)
    (q q' : DownloadingQueue P) : Prop :=
  ∃ ops, (QueueSide.system P createBlock).exec ⟨c, q⟩ ops = some ⟨c, q'⟩

namespace Operates

variable {q q' q'' : DownloadingQueue P}

theorem refl (q : DownloadingQueue P) : Operates createBlock c q q :=
  ⟨[], rfl⟩

theorem trans (h : Operates createBlock c q q')
    (h' : Operates createBlock c q' q'') : Operates createBlock c q q'' := by
  obtain ⟨ops, hops⟩ := h
  obtain ⟨ops', hops'⟩ := h'
  exact ⟨ops ++ ops', exec_append hops hops'⟩

theorem single (op : QueueSide.Operation P)
    (h : QueueSide.step createBlock ⟨c, q⟩ op = some ⟨c, q'⟩) :
    Operates createBlock c q q' :=
  ⟨[op], exec_cons h rfl⟩

theorem setCommitQueue (q : DownloadingQueue P) (commitQueue : P.Carrier) :
    Operates createBlock c q { q with commitQueue := commitQueue } :=
  single (.setCommitQueue commitQueue) rfl

theorem clear (q : DownloadingQueue P) :
    Operates createBlock c q q.clear :=
  (single .clearBuffer rfl).trans (single .clearQueue rfl)

/-- A flush is one operation for each shard it pops. -/
theorem flushLoop (shards : List BlocksMsg) (q : DownloadingQueue P) :
    Operates createBlock c { q with blockBuffer := shards }
      (DownloadingQueue.flushLoop createBlock c shards q) := by
  induction shards generalizing q with
  | nil => exact .refl _
  | cons shard rest ih =>
      have hshard : Operates createBlock c
          { q with blockBuffer := shard :: rest }
          { (q.flushOneShard createBlock c shard).2 with
            blockBuffer := rest } := by
        refine single .flushOneShard ?_
        simp only [QueueSide.step,
          DownloadingQueue.flushOneShard_setBlockBuffer]
      rw [DownloadingQueue.flushLoop]
      split
      · next q' hflush =>
          rw [hflush] at hshard
          exact hshard.trans (ih q')
      · next q' hflush =>
          rw [hflush] at hshard
          exact hshard

end Operates

/-! ### Steps of the node -/

theorem operates_maintainDownloadingBuffer (s : BlockSync P) :
    Operates createBlock s.config s.downloadingQueue
      (s.maintainDownloadingBuffer createBlock).downloadingQueue := by
  unfold maintainDownloadingBuffer
  split_ifs
  · exact .refl _
  · exact .clear _
  · exact (Operates.single (.clearFullQueueIfNotHas _) rfl).trans
      (.flushLoop _ _)

theorem operates_tryToCommit (throws : Option ThrowSite) (s : BlockSync P) :
    Operates createBlock c s.downloadingQueue
      (tryToCommitBlockToLedger throws s).downloadingQueue := by
  obtain ⟨q, pending, trace, heq⟩ := tryToCommit_eq throws s
  rw [heq]
  exact .setCommitQueue _ q

theorem operates_updateCommitQueue (throws : Option ThrowSite) (b : Block)
    (s : BlockSync P) :
    Operates createBlock c s.downloadingQueue
      (updateCommitQueue throws b s).downloadingQueue :=
  (Operates.setCommitQueue _ _).trans
    (operates_tryToCommit throws (s.setCommitQueue
      (P.push s.downloadingQueue.commitQueue b)))

theorem operates_maintainDownloadingQueue (s : BlockSync P) :
    Operates createBlock c s.downloadingQueue
      s.maintainDownloadingQueue.downloadingQueue := by
  have hprepared : Operates createBlock c s.downloadingQueue
      s.prepareExecution.downloadingQueue :=
    (operates_tryToCommit none s).trans (.single (.clearExpired _) rfl)
  unfold maintainDownloadingQueue
  split_ifs
  · exact .clear _
  · dsimp only
    split
    · exact hprepared
    · refine hprepared.trans (.single .pop ?_)
      unfold applyBlock
      split_ifs <;> rfl

theorem operates_onNewBlock (l : LedgerConfig) (s : BlockSync P) :
    Operates createBlock c s.downloadingQueue
      (s.onNewBlock l).downloadingQueue := by
  obtain ⟨out, hout⟩ := broadcastSyncStatus_eq (s.resetConfig l)
  have hreset : (s.resetConfig l).downloadingQueue = s.downloadingQueue := by
    unfold resetConfig
    split_ifs <;> rfl
  rw [onNewBlock, hout, ← hreset]
  exact (Operates.single (.clearExpired _) rfl).trans (.setCommitQueue _ _)

theorem operates_downloadTask (rand : ℕ → ℕ → ℕ) (s : BlockSync P) :
    Operates createBlock s.config s.downloadingQueue
      (s.downloadTask createBlock rand).downloadingQueue := by
  rw [downloadTask, downloadingQueue_tryToRequestBlocks]
  exact (operates_maintainDownloadingBuffer s).trans
    (operates_maintainDownloadingQueue _)

theorem operates_syncMessage (nodeID : PublicPtr)
    (syncMsg : BlockSyncMessage) (s : BlockSync P) :
    Operates createBlock s.config s.downloadingQueue
      (s.asyncNotifyBlockSyncMessage nodeID syncMsg).downloadingQueue := by
  unfold asyncNotifyBlockSyncMessage
  split_ifs
  · unfold onPeerStatus
    split_ifs <;> exact .refl _
  · unfold onPeerBlocksRequest
    dsimp only
    split <;> exact .refl _
  · exact .single (.push (BlocksMsg.ofMessage syncMsg)) rfl
  · exact .refl _

theorem operates_onExecuteBlock (throws : Option ThrowSite) (b : Block)
    (a : Except Error BlockHeader) (s : BlockSync P) :
    Operates createBlock c s.downloadingQueue
      (onExecuteBlock throws b a s).downloadingQueue := by
  unfold onExecuteBlock
  cases a with
  | error e => exact .refl _
  | ok header =>
      dsimp only
      split_ifs
      · exact operates_updateCommitQueue throws b
          ((s.log (.executeBlockAnswer b (.ok header))).setExecutedBlock
            b.number)
      · exact .refl _

/-- The check and the store change the commit pipeline only. -/
theorem operates_onCheckBlock (throws : Option ThrowSite) (b : Block)
    (a : Except Error Bool) (s : BlockSync P) :
    Operates createBlock c s.downloadingQueue
      (onCheckBlock throws b a s).downloadingQueue := by
  cases a with
  | error e => exact .refl _
  | ok valid =>
      cases valid with
      | false => exact .refl _
      | true =>
          have hsame := downloadingQueue_commitBlock throws b
            (s.log (.asyncCheckBlockAnswer b (.ok true)))
          rw [onCheckBlock, hsame]
          exact .refl _

theorem operates_onStoreTransactions (throws : Option ThrowSite) (b : Block)
    (e : Option Error) (s : BlockSync P) :
    Operates createBlock c s.downloadingQueue
      (onStoreTransactions throws b e s).downloadingQueue := by
  cases e with
  | none =>
      have hsame := downloadingQueue_commitBlockState throws b
        (s.log (.asyncStoreTransactionsAnswer b none))
      rw [onStoreTransactions, hsame]
      exact .refl _
  | some e => exact .refl _

theorem operates_onCommitBlock (throws : Option ThrowSite) (b : Block)
    (a : Except Error LedgerConfig) (s : BlockSync P) :
    Operates createBlock c s.downloadingQueue
      (onCommitBlock throws b a s).downloadingQueue := by
  cases a with
  | error e => exact .refl _
  | ok l =>
      unfold onCommitBlock finalizeBlock
      dsimp only
      split_ifs
      · exact .refl _
      · exact (operates_onNewBlock _ (s.log (.commitBlockAnswer b (.ok l))
          |>.log (.newBlockHandler b
            (CommitSide.completedConfig b l)))).trans
          (operates_tryToCommit throws _)

/-- A step changes the queues by operations under the config it starts
from. -/
theorem step_operates {s t : BlockSync P} {i : Input}
    (hstep : s.step createBlock i = some t) :
    Operates createBlock s.config s.downloadingQueue t.downloadingQueue := by
  cases i with
  | downloadTask rand =>
      obtain rfl := Option.some.inj hstep
      exact operates_downloadTask rand s
  | maintainPeersConnection =>
      obtain rfl := Option.some.inj hstep
      obtain ⟨table, config, out, heq, -⟩ := maintainPeersConnection_eq s
      rw [heq]
      exact .refl _
  | downloadTimeout =>
      simp only [step] at hstep
      split_ifs at hstep
      obtain rfl := Option.some.inj hstep
      exact .refl _
  | syncMessage nodeID syncMsg =>
      obtain rfl := Option.some.inj hstep
      exact operates_syncMessage nodeID syncMsg s
  | notifyNewBlock l =>
      obtain rfl := Option.some.inj hstep
      unfold asyncNotifyNewBlock
      split_ifs
      · exact (operates_onNewBlock l s).trans (operates_tryToCommit none _)
      · exact .refl _
  | notifyCommittedIndex number =>
      obtain rfl := Option.some.inj hstep
      exact .refl _
  | notifyConnectedNodes nodes =>
      obtain rfl := Option.some.inj hstep
      exact .refl _
  | executeBlockAnswer b a throws =>
      obtain ⟨-, rfl⟩ := answer_eq_some.mp hstep
      exact operates_onExecuteBlock throws b a (s.resolve _)
  | asyncCheckBlockAnswer b a throws =>
      obtain ⟨-, rfl⟩ := answer_eq_some.mp hstep
      exact operates_onCheckBlock throws b a (s.resolve _)
  | asyncStoreTransactionsAnswer b e throws =>
      obtain ⟨-, rfl⟩ := answer_eq_some.mp hstep
      exact operates_onStoreTransactions throws b e (s.resolve _)
  | commitBlockAnswer b a throws =>
      obtain ⟨-, rfl⟩ := answer_eq_some.mp hstep
      exact operates_onCommitBlock throws b a (s.resolve _)

theorem step_maxDownloadingBlockQueueSize {s t : BlockSync P} {i : Input}
    (hstep : s.step createBlock i = some t) :
    t.config.maxDownloadingBlockQueueSize =
      s.config.maxDownloadingBlockQueueSize := by
  refine (step_updates hstep).preserves (K := fun p =>
    p.config.maxDownloadingBlockQueueSize =
      s.config.maxDownloadingBlockQueueSize) ?_ rfl
  intro p q hp hupdate
  rw [← hp]
  cases hupdate with
  | executed n c t =>
      unfold BlockSyncConfig.setExecutedBlock
      dsimp only
      split_ifs <;> rfl
  | reset l c t =>
      unfold BlockSyncConfig.resetConfig BlockSyncConfig.resetBlockInfo
      dsimp only
      split_ifs <;> rfl
  | peerStatus nodeID syncMsg c t =>
      obtain ⟨_, _, heq⟩ := SyncPeerStatus.updatePeerStatus_config nodeID
        (BlockSyncStatus.ofMessage syncMsg) t c
      rw [heq]
  | ownStatus c t =>
      obtain ⟨_, _, heq⟩ := SyncPeerStatus.updatePeerStatus_config c.nodeID
        (currentStatus c) t c
      rw [heq]
  | _ => rfl

/-- The queues of a reachable node are reached by operations. -/
theorem reachable_queueSide {s : BlockSync P}
    (hs : (nodeSystem P createBlock).Reachable s) :
    (QueueSide.system P createBlock).Reachable s.queueSide := by
  refine hs.invariant (I := fun s =>
    (QueueSide.system P createBlock).Reachable s.queueSide) ?_ ?_
  · rintro s ⟨c, genesisHash, l, -⟩
    have hqueue : ((new P c).init genesisHash l).downloadingQueue =
        (new P c).downloadingQueue := by
      unfold init resetConfig
      split_ifs <;> rfl
    unfold queueSide
    rw [hqueue]
    exact .init (.mk _)
  · intro s i t _ h hstep
    obtain ⟨ops, hops⟩ := step_operates hstep
    refine .step (i := .setConfig t.config)
      (h.exec (fun _ _ => trivial) hops) trivial ?_
    exact if_pos (step_maxDownloadingBlockQueueSize hstep)

/-! ### A packet with too many blocks -/

/-- A packet with four blocks is flushed into a block queue with room for
two; one of the blocks is executed. -/
theorem longShard_exceeds_capacity :
    ∃ s, Sample.system.Reachable s ∧
      (QueueSide.system sortedBlockQueue Sample.createBlock).Reachable
        s.queueSide ∧
      ¬ s.queueSide.Bounded := by
  obtain ⟨s, hrun, hcapacity, hsize⟩ :
      ∃ s, Sample.system.exec smallNode
        [Sample.status Sample.peer 9,
          Sample.blocks [[1, 1], [2, 1], [3, 1], [4, 1]], Sample.task] =
            some s ∧
        s.queueSide.capacity = 2 ∧ s.queueSide.queueSize = 3 :=
    ⟨_, rfl, rfl, rfl⟩
  have hreach : Sample.system.Reachable s := .of_exec isInit_smallNode hrun
  refine ⟨s, hreach, reachable_queueSide hreach, ?_⟩
  intro hbounded
  have hle := hbounded.queueSize_le
  rw [hcapacity, hsize] at hle
  exact absurd hle (by decide)

/-- Three blocks beyond a gap are flushed into a block queue with room for
two.  It takes no more shards, and is not cleared for the missing block. -/
theorem longShard_never_cleared :
    ∃ s, Sample.system.Reachable s ∧ s.shouldSyncing = true ∧
      FullAbove s.config.nextBlock s.config
        (s.downloadingQueue.clearFullQueueIfNotHas s.config
          s.config.nextBlock) := by
  obtain ⟨s, hrun, hsync, hnext, hcapacity, hsize, htop⟩ :
      ∃ s, Sample.system.exec smallNode
        [Sample.status Sample.peer 9,
          Sample.blocks [[3, 1], [4, 1], [5, 1]], Sample.task] = some s ∧
        s.shouldSyncing = true ∧ s.config.nextBlock = 1 ∧
        s.config.maxDownloadingBlockQueueSize = 2 ∧
        sortedBlockQueue.size (s.downloadingQueue.clearFullQueueIfNotHas
          s.config s.config.nextBlock).blocks = 3 ∧
        sortedBlockQueue.top (s.downloadingQueue.clearFullQueueIfNotHas
          s.config s.config.nextBlock).blocks = some (Sample.block 0 3 1) :=
    ⟨_, rfl, rfl, rfl, rfl, rfl, rfl⟩
  refine ⟨s, .of_exec isInit_smallNode hrun, hsync, ?_, ?_⟩
  · rw [hcapacity, hsize]
    decide
  · intro b hb
    have hle : (3 : ℤ) ≤ b.number := sortedBlockQueue.le_of_top _ _ htop b hb
    rw [hnext]
    omega

end BlockSync

end BcosSync
