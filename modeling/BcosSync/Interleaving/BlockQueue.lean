import BcosSync.Commit.Refinement
import Mathlib.Logic.Relation

/-!
# The download task between new blocks

`maintainDownloadingQueue` call by call: each call on the block queue takes
the lock for itself, and between two of them `onNewBlock`, called on another
thread or by a commit callback, may clear the queue of expired blocks.

The task asks for the top again and again and trusts the answer before.  What
it trusts at a point is the invariant here, and a clear that breaks it is the
only step that can go wrong.
-/

namespace BcosSync

open TransitionSystem BlockSync

/-- The next call of `maintainDownloadingQueue`, with what its variables hold
and, where it is about to pop, the block whose number it has tested. -/
inductive TaskPoint
  | start
  /-- The node should not sync: `clear()` and `downloadFinish()`. -/
  | clearBuffer
  | clearQueue
  | downloadFinish
  | tryToCommit
  | readExecuted
  /-- The loop that removes expired blocks. -/
  | expiredTop (executedBlock : ℤ)
  | expiredNumber (executedBlock : ℤ)
  | expiredPop (executedBlock : ℤ) (tested : Block)
  | anyLeft (executedBlock : ℤ)
  | waterMark (executedBlock : ℤ)
  | topNumber (executedBlock : ℤ)
  | expectedTop (executedBlock : ℤ)
  | expectedNumber (executedBlock : ℤ)
  | takeTop (executedBlock : ℤ) (tested : Block)
  | takePop (executedBlock : ℤ) (tested : Block) (block : Option Block)
  | applyBlock (block : Option Block)
  | finished

variable {P : BlockQueue}

/-- One call of the task.  There is none where a null pointer would be
dereferenced, or after the end. -/
def TaskPoint.call (s : BlockSync P) :
    TaskPoint → Option (BlockSync P × TaskPoint)
  | start => some (s, if s.shouldSyncing then tryToCommit else clearBuffer)
  | clearBuffer =>
      some ({ s with
        downloadingQueue := { s.downloadingQueue with blockBuffer := [] } },
        clearQueue)
  | clearQueue =>
      some ({ s with downloadingQueue := s.downloadingQueue.clearQueue },
        downloadFinish)
  | downloadFinish => some (s.downloadFinish, finished)
  | tryToCommit => some (s.tryToCommitBlockToLedger none, readExecuted)
  | readExecuted => some (s, expiredTop s.config.executedBlock)
  | expiredTop e =>
      some (s, if s.downloadingQueue.top.isSome then expiredNumber e
        else anyLeft e)
  | expiredNumber e =>
      s.downloadingQueue.top.map fun top =>
        (s, if top.number ≤ e then expiredPop e top else anyLeft e)
  | expiredPop e _ =>
      some (s.setBlocks (P.pop s.downloadingQueue.blocks), expiredTop e)
  | anyLeft e =>
      some (s, if s.downloadingQueue.top.isSome then waterMark e
        else finished)
  | waterMark e =>
      some (s, if s.config.blockNumber + BlockSync.waterMark ≤ e then finished
        else topNumber e)
  | topNumber e =>
      s.downloadingQueue.top.map fun top =>
        (s, if e + 1 < top.number then finished else expectedTop e)
  | expectedTop e =>
      some (s, if s.downloadingQueue.top.isSome then expectedNumber e
        else finished)
  | expectedNumber e =>
      s.downloadingQueue.top.map fun top =>
        (s, if top.number = e + 1 then takeTop e top else finished)
  | takeTop e tested => some (s, takePop e tested s.downloadingQueue.top)
  | takePop _ _ block =>
      some (s.setBlocks (P.pop s.downloadingQueue.blocks), applyBlock block)
  | applyBlock block =>
      block.map fun b =>
        (BlockSync.applyBlock b { s with state := .downloading }, finished)
  | finished => none

/-- Where a concurrent call of `onNewBlock` stands. -/
inductive NewBlockCall
  | idle
  | resetConfig (ledgerConfig : LedgerConfig)
  | broadcast
  | clearBlocks
  | clearCommitQueue
deriving DecidableEq

/-- One call of `onNewBlock`; `clearExpiredQueueCache` locks one queue after
the other. -/
def NewBlockCall.call (s : BlockSync P) :
    NewBlockCall → Option (BlockSync P × NewBlockCall)
  | idle => none
  | resetConfig l => some (s.resetConfig l, broadcast)
  | broadcast => some (s.broadcastSyncStatus, clearBlocks)
  | clearBlocks =>
      some (s.setBlocks (DownloadingQueue.popUpTo s.config.blockNumber
        s.downloadingQueue.blocks), clearCommitQueue)
  | clearCommitQueue =>
      some (s.setCommitQueue (DownloadingQueue.popUpTo s.config.blockNumber
        s.downloadingQueue.commitQueue), idle)

/-- One run of the task, and any number of calls of `onNewBlock` beside it. -/
structure TaskRun (P : BlockQueue) where
  node : BlockSync P
  point : TaskPoint
  calls : ℕ → NewBlockCall

namespace TaskRun

inductive Input
  /-- The task makes its next call. -/
  | task
  | onNewBlock (call : ℕ) (ledgerConfig : LedgerConfig)
  | advance (call : ℕ)
  /-- A callback of an execution, a check, a store or a commit sets
  `executedBlock`. -/
  | setExecutedBlock (executedBlock : ℤ)

def step (r : TaskRun P) : Input → Option (TaskRun P)
  | .task =>
      (r.point.call r.node).map fun (node, point) =>
        { r with node := node, point := point }
  | .onNewBlock call l =>
      match r.calls call with
      | .idle =>
          some { r with calls := Function.update r.calls call (.resetConfig l) }
      | _ => none
  | .advance call =>
      ((r.calls call).call r.node).map fun (node, next) =>
        { r with node := node, calls := Function.update r.calls call next }
  | .setExecutedBlock e => some { r with node := r.node.setExecutedBlock e }

structure IsInit (r : TaskRun P) : Prop where
  point : r.point = .start
  calls : ∀ call, r.calls call = .idle

end TaskRun

/-- The interleavings of one run of the task with calls of `onNewBlock`. -/
def taskSystem (P : BlockQueue) :
    TransitionSystem (TaskRun P) TaskRun.Input where
  IsInit := TaskRun.IsInit
  step := TaskRun.step

/-! ## A task that is left alone -/

section Alone

/-- The task makes one call after another. -/
abbrev TaskCalls : BlockSync P × TaskPoint → BlockSync P × TaskPoint → Prop :=
  Relation.ReflTransGen fun x y => x.2.call x.1 = some y

/-- The loop that removes expired blocks. -/
theorem taskCalls_expired (e : ℤ) (n : ℕ) (s : BlockSync P)
    (hn : P.size s.downloadingQueue.blocks ≤ n) :
    TaskCalls (s, .expiredTop e)
      (s.setBlocks (P.discardLoop (fun b => decide (b.number ≤ e)) n
        s.downloadingQueue.blocks), .anyLeft e) := by
  induction n generalizing s with
  | zero =>
      have htop : s.downloadingQueue.top = none :=
        P.top_eq_none_of_size_eq_zero (Nat.le_zero.mp hn)
      refine .single ?_
      simp only [TaskPoint.call, htop]
      rfl
  | succ n ih =>
      rw [PriorityQueue.discardLoop]
      cases htop : P.top s.downloadingQueue.blocks with
      | none =>
          have hnone : s.downloadingQueue.top = none := htop
          refine .single ?_
          simp only [TaskPoint.call, hnone]
          rfl
      | some b =>
          have hsome : s.downloadingQueue.top = some b := htop
          have hask : (TaskPoint.expiredTop e).call s =
              some (s, .expiredNumber e) := by
            simp only [TaskPoint.call, hsome]
            rfl
          refine .head hask ?_
          dsimp only
          by_cases hle : b.number ≤ e
          · have htest : (TaskPoint.expiredNumber e).call s =
                some (s, .expiredPop e b) := by
              simp only [TaskPoint.call, hsome, Option.map_some, if_pos hle]
            refine .head htest (.head (by rfl) ?_)
            rw [if_pos (decide_eq_true hle)]
            have hsize := P.size_pop htop
            have hrest := ih (s.setBlocks (P.pop s.downloadingQueue.blocks))
              (by show P.size (P.pop _) ≤ n; omega)
            exact hrest
          · have htest : (TaskPoint.expiredNumber e).call s =
                some (s, .anyLeft e) := by
              simp only [TaskPoint.call, hsome, Option.map_some, if_neg hle]
            refine .single ?_
            rw [if_neg (by simpa using hle)]
            exact htest

/-- No block is executed: the task ends. -/
theorem taskCalls_of_none {s : BlockSync P} (h : s.expectedTop = none) :
    TaskCalls (s, .anyLeft s.config.executedBlock) (s, .finished) := by
  rw [BlockSync.expectedTop] at h
  cases htop : s.downloadingQueue.top with
  | none =>
      refine .single ?_
      simp only [TaskPoint.call, htop]
      rfl
  | some top =>
      rw [htop] at h
      dsimp only at h
      refine .head (b := (s, .waterMark s.config.executedBlock)) ?_ ?_
      · simp only [TaskPoint.call, htop]
        rfl
      split_ifs at h with hmark hgap hnumber
      · refine .single ?_
        simp only [TaskPoint.call, if_pos hmark]
      · refine .head (b := (s, .topNumber s.config.executedBlock)) ?_
          (.single ?_)
        · simp only [TaskPoint.call, if_neg hmark]
        · simp only [TaskPoint.call, htop, Option.map_some, if_pos hgap]
      · refine .head (b := (s, .topNumber s.config.executedBlock)) ?_
          (.head (b := (s, .expectedTop s.config.executedBlock)) ?_
            (.head (b := (s, .expectedNumber s.config.executedBlock)) ?_
              (.single ?_)))
        · simp only [TaskPoint.call, if_neg hmark]
        · simp only [TaskPoint.call, htop, Option.map_some, if_neg hgap]
        · simp only [TaskPoint.call, htop]
          rfl
        · simp only [TaskPoint.call, htop, Option.map_some, if_neg hnumber]

/-- The expected block is on top: it is popped and executed. -/
theorem taskCalls_of_some {s : BlockSync P} {b : Block}
    (h : s.expectedTop = some b) :
    TaskCalls (s, .anyLeft s.config.executedBlock)
      (applyBlock b { s.setBlocks (P.pop s.downloadingQueue.blocks) with
        state := .downloading }, .finished) := by
  obtain ⟨htop, hmark, hnumber⟩ := expectedTop_eq_some.mp h
  have htop : s.downloadingQueue.top = some b := htop
  refine .head (b := (s, .waterMark s.config.executedBlock)) ?_
    (.head (b := (s, .topNumber s.config.executedBlock)) ?_
      (.head (b := (s, .expectedTop s.config.executedBlock)) ?_
        (.head (b := (s, .expectedNumber s.config.executedBlock)) ?_
          (.head (b := (s, .takeTop s.config.executedBlock b)) ?_
            (.head (by rfl) (.head (by rfl) (.single ?_)))))))
  · simp only [TaskPoint.call, htop]
    rfl
  · simp only [TaskPoint.call, if_neg (not_le.mpr hmark)]
  · simp only [TaskPoint.call, htop, Option.map_some,
      if_neg (not_lt.mpr hnumber.le)]
  · simp only [TaskPoint.call, htop]
    rfl
  · simp only [TaskPoint.call, htop, Option.map_some, if_pos hnumber]
  · rw [htop]
    rfl

/-- A task that is left alone does what `maintainDownloadingQueue` does in one
step. -/
theorem taskCalls_maintainDownloadingQueue (s : BlockSync P) :
    TaskCalls (s, .start) (s.maintainDownloadingQueue, .finished) := by
  rw [maintainDownloadingQueue]
  by_cases hsync : s.shouldSyncing = true
  · rw [if_neg (by simp [hsync])]
    have hstart : TaskPoint.start.call s = some (s, .tryToCommit) := by
      simp only [TaskPoint.call, if_pos hsync]
    have hexpired := taskCalls_expired
      (s.tryToCommitBlockToLedger none).config.executedBlock _
      (s.tryToCommitBlockToLedger none) le_rfl
    refine .head hstart (.head (by rfl) (.head (by rfl)
      (hexpired.trans ?_)))
    dsimp only
    cases htop : s.prepareExecution.expectedTop with
    | none => exact taskCalls_of_none htop
    | some b => exact taskCalls_of_some htop
  · have hstart : TaskPoint.start.call s = some (s, .clearBuffer) := by
      simp only [TaskPoint.call, if_neg hsync]
    rw [if_pos (by simpa using hsync)]
    exact .head hstart (.head rfl (.head rfl (.single rfl)))

/-- A call of `onNewBlock` that is left alone. -/
theorem newBlockCalls_onNewBlock (l : LedgerConfig) (s : BlockSync P) :
    Relation.ReflTransGen
      (fun x y : BlockSync P × NewBlockCall => x.2.call x.1 = some y)
      (s, .resetConfig l) (s.onNewBlock l, .idle) :=
  .head rfl (.head rfl (.head rfl (.single rfl)))

/-- The calls of the task as steps of the system. -/
theorem exec_of_taskCalls {x y : BlockSync P × TaskPoint}
    (h : TaskCalls x y) (calls : ℕ → NewBlockCall) :
    ∃ n, (taskSystem P).exec ⟨x.1, x.2, calls⟩ (List.replicate n .task) =
      some ⟨y.1, y.2, calls⟩ := by
  induction h using Relation.ReflTransGen.head_induction_on with
  | refl => exact ⟨0, rfl⟩
  | head hcall _ ih =>
      obtain ⟨n, hrest⟩ := ih
      refine ⟨n + 1, exec_cons ?_ hrest⟩
      exact Option.map_eq_some_iff.mpr ⟨_, hcall, rfl⟩

end Alone

/-! ## What the task trusts -/

/-- What the next call of the task relies on: a top that it dereferences is
there, and what it pops is the block whose number it has tested. -/
def TaskPoint.Trusts (top : Option Block) : TaskPoint → Prop
  | expiredNumber _ | topNumber _ | expectedNumber _ => top ≠ none
  | expiredPop e tested => top = some tested ∧ tested.number ≤ e
  | takeTop e tested => top = some tested ∧ tested.number = e + 1
  | takePop e tested block =>
      top = some tested ∧ block = some tested ∧ tested.number = e + 1
  | applyBlock block => block ≠ none
  | _ => True

/-- The expired blocks do not include what the task trusts. -/
def TaskPoint.Spared (s : BlockSync P) : TaskPoint → Prop
  | expiredNumber _ | topNumber _ | expectedNumber _ =>
      ∃ b ∈ s.blocks, s.config.blockNumber < b.number
  | expiredPop _ tested | takeTop _ tested | takePop _ tested _ =>
      s.config.blockNumber < tested.number
  | _ => True

/-- Where the water mark lets the task go on, the block queue is not empty. -/
def TaskPoint.GoesOn (s : BlockSync P) : TaskPoint → Prop
  | waterMark e =>
      s.config.blockNumber + BlockSync.waterMark ≤ e ∨
        s.downloadingQueue.top ≠ none
  | _ => True

instance (s : BlockSync P) (point : TaskPoint) :
    Decidable (point.Spared s) := by
  have : Decidable (∃ b ∈ s.blocks, s.config.blockNumber < b.number) :=
    Multiset.decidableExistsMultiset
  unfold TaskPoint.Spared
  split <;> infer_instance

instance (s : BlockSync P) (point : TaskPoint) :
    Decidable (point.GoesOn s) := by
  unfold TaskPoint.GoesOn
  split <;> infer_instance

/-- A call of the task from a point whose trust is justified leads to another
one, unless the block queue has been emptied behind the test of its top. -/
theorem TaskPoint.trusts_call_iff {s t : BlockSync P}
    {point next : TaskPoint}
    (htrusts : point.Trusts s.downloadingQueue.top)
    (h : point.call s = some (t, next)) :
    next.Trusts t.downloadingQueue.top ↔ point.GoesOn s := by
  cases point with
  | start =>
      obtain ⟨rfl, rfl⟩ := Prod.mk.inj (Option.some.inj h)
      refine iff_of_true ?_ trivial
      split_ifs <;> trivial
  | clearBuffer | clearQueue | downloadFinish | tryToCommit | readExecuted =>
      obtain ⟨rfl, rfl⟩ := Prod.mk.inj (Option.some.inj h)
      exact Iff.rfl
  | expiredTop e =>
      obtain ⟨rfl, rfl⟩ := Prod.mk.inj (Option.some.inj h)
      refine iff_of_true ?_ trivial
      split_ifs with htop
      · exact Option.isSome_iff_ne_none.mp htop
      · trivial
  | expiredNumber e =>
      obtain ⟨top, htop, hnext⟩ := Option.map_eq_some_iff.mp h
      obtain ⟨rfl, rfl⟩ := Prod.mk.inj hnext
      refine iff_of_true ?_ trivial
      split_ifs with hle
      · exact ⟨htop, hle⟩
      · trivial
  | expiredPop e tested =>
      obtain ⟨rfl, rfl⟩ := Prod.mk.inj (Option.some.inj h)
      exact Iff.rfl
  | anyLeft e =>
      obtain ⟨rfl, rfl⟩ := Prod.mk.inj (Option.some.inj h)
      refine iff_of_true ?_ trivial
      split_ifs <;> trivial
  | waterMark e =>
      -- the answer of `anyLeft` is trusted beyond the test of the mark
      obtain ⟨rfl, rfl⟩ := Prod.mk.inj (Option.some.inj h)
      split_ifs with hmark
      · exact iff_of_true trivial (.inl hmark)
      · exact (or_iff_right hmark).symm
  | topNumber e =>
      obtain ⟨top, htop, hnext⟩ := Option.map_eq_some_iff.mp h
      obtain ⟨rfl, rfl⟩ := Prod.mk.inj hnext
      refine iff_of_true ?_ trivial
      split_ifs <;> trivial
  | expectedTop e =>
      obtain ⟨rfl, rfl⟩ := Prod.mk.inj (Option.some.inj h)
      refine iff_of_true ?_ trivial
      split_ifs with htop
      · exact Option.isSome_iff_ne_none.mp htop
      · trivial
  | expectedNumber e =>
      obtain ⟨top, htop, hnext⟩ := Option.map_eq_some_iff.mp h
      obtain ⟨rfl, rfl⟩ := Prod.mk.inj hnext
      refine iff_of_true ?_ trivial
      split_ifs with hnumber
      · exact ⟨htop, hnumber⟩
      · trivial
  | takeTop e tested =>
      obtain ⟨rfl, rfl⟩ := Prod.mk.inj (Option.some.inj h)
      exact iff_of_true ⟨htrusts.1, htrusts.1, htrusts.2⟩ trivial
  | takePop e tested block =>
      obtain ⟨rfl, rfl⟩ := Prod.mk.inj (Option.some.inj h)
      refine iff_of_true ?_ trivial
      exact htrusts.2.1 ▸ Option.some_ne_none tested
  | applyBlock block =>
      obtain ⟨b, -, hnext⟩ := Option.map_eq_some_iff.mp h
      obtain ⟨rfl, rfl⟩ := Prod.mk.inj hnext
      exact Iff.rfl
  | finished => cases h

/-! ## What a clear leaves -/

theorem top_popUpTo_ne_none_iff {limit : ℤ} {q : P.Carrier} :
    P.top (DownloadingQueue.popUpTo limit q) ≠ none ↔
      ∃ b ∈ P.elems q, limit < b.number := by
  rw [Ne, P.top_eq_none_iff, BlockSync.elems_popUpTo,
    Multiset.filter_eq_nil]
  push Not
  rfl

/-- The top stays where it is above the limit, and only there. -/
theorem top_popUpTo_eq_iff {limit : ℤ} {q : P.Carrier} {b : Block}
    (htop : P.top q = some b) :
    P.top (DownloadingQueue.popUpTo limit q) = some b ↔
      limit < b.number := by
  constructor
  · intro hstays
    have hmem := P.mem_of_top hstays
    rw [BlockSync.elems_popUpTo, Multiset.mem_filter] at hmem
    exact hmem.2
  · intro habove
    rw [DownloadingQueue.popUpTo, PriorityQueue.discard_of_top htop]
    · exact htop
    · exact decide_eq_false (not_le.mpr habove)

/-- A clear of the expired blocks justifies the trust of the task further on
if and only if it spares what the task trusts. -/
theorem TaskPoint.trusts_clear_iff {s : BlockSync P} {point : TaskPoint}
    (htrusts : point.Trusts s.downloadingQueue.top) :
    point.Trusts (P.top (DownloadingQueue.popUpTo s.config.blockNumber
      s.downloadingQueue.blocks)) ↔ point.Spared s := by
  cases point with
  | expiredNumber e | topNumber e | expectedNumber e =>
      exact top_popUpTo_ne_none_iff
  | expiredPop e tested | takeTop e tested | takePop e tested block =>
      exact (and_iff_left htrusts.2).trans (top_popUpTo_eq_iff htrusts.1)
  | applyBlock block => exact iff_of_true htrusts trivial
  | start | clearBuffer | clearQueue | downloadFinish | tryToCommit
  | readExecuted | expiredTop e | anyLeft e | waterMark e | expectedTop e
  | finished => exact Iff.rfl

/-! ## Runs -/

namespace TaskRun

variable {r t : TaskRun P}

/-- Every top the task dereferences next is there, and the block it pops next
is the one whose number it has tested. -/
def Trusted (r : TaskRun P) : Prop :=
  r.point.Trusts r.node.downloadingQueue.top

/-- No clear of expired blocks includes what the task trusts, and the task
does not pass the water mark with the block queue emptied. -/
def Undisturbed (r : TaskRun P) : Input → Prop
  | .task => r.point.GoesOn r.node
  | .advance call =>
      r.calls call = .clearBlocks → r.point.Spared r.node
  | _ => True

instance (r : TaskRun P) (i : Input) : Decidable (r.Undisturbed i) := by
  unfold Undisturbed
  split <;> infer_instance

/-- Of the calls of `onNewBlock` only one touches the block queue. -/
theorem blocks_of_call {s t : BlockSync P} {point next : NewBlockCall}
    (hpoint : point ≠ .clearBlocks) (h : point.call s = some (t, next)) :
    t.downloadingQueue.top = s.downloadingQueue.top := by
  cases point with
  | idle => cases h
  | resetConfig l =>
      obtain ⟨rfl, -⟩ := Prod.mk.inj (Option.some.inj h)
      unfold BlockSync.resetConfig
      split_ifs <;> rfl
  | broadcast =>
      obtain ⟨rfl, -⟩ := Prod.mk.inj (Option.some.inj h)
      obtain ⟨outbox, heq⟩ := broadcastSyncStatus_eq s
      rw [heq]
  | clearBlocks => exact absurd rfl hpoint
  | clearCommitQueue =>
      obtain ⟨rfl, -⟩ := Prod.mk.inj (Option.some.inj h)
      rfl

/-- One step keeps the trust of the task justified if and only if it does not
disturb the task. -/
theorem step_trusted_iff {i : Input} (htrusted : r.Trusted)
    (h : r.step i = some t) : t.Trusted ↔ r.Undisturbed i := by
  cases i with
  | task =>
      obtain ⟨⟨node, point⟩, hcall, rfl⟩ := Option.map_eq_some_iff.mp h
      exact TaskPoint.trusts_call_iff htrusted hcall
  | onNewBlock call l =>
      rw [step] at h
      split at h
      · obtain rfl := Option.some.inj h
        exact iff_of_true htrusted trivial
      · cases h
  | advance call =>
      obtain ⟨⟨node, next⟩, hcall, rfl⟩ := Option.map_eq_some_iff.mp h
      by_cases hclear : r.calls call = .clearBlocks
      · rw [hclear] at hcall
        obtain ⟨rfl, rfl⟩ := Prod.mk.inj (Option.some.inj hcall)
        exact (TaskPoint.trusts_clear_iff htrusted).trans
          ⟨fun hspared _ => hspared, fun hspared => hspared hclear⟩
      · have hsame := blocks_of_call hclear hcall
        refine iff_of_true ?_ fun h => absurd h hclear
        rw [Trusted, hsame]
        exact htrusted
  | setExecutedBlock e =>
      obtain rfl := Option.some.inj h
      exact iff_of_true htrusted trivial

/-- In every interleaving, each top the task dereferences is there and each
block it pops is the one it has tested, if and only if nothing disturbs the
task. -/
theorem run_trusted_iff (hr : (taskSystem P).IsInit r) (is : List Input) :
    (taskSystem P).AllStates Trusted r is ↔
      (taskSystem P).AllSteps Undisturbed r is := by
  have hstart : r.Trusted := by
    rw [Trusted, hr.point]
    trivial
  exact allStates_iff_allSteps (A := fun _ => True) (I := fun _ => True)
    (fun _ _ _ _ _ _ => trivial)
    (fun _ _ _ _ _ htrusted h => step_trusted_iff htrusted h)
    (fun _ _ => trivial) trivial hstart

/-- A download task of a node at height 0 that holds the blocks of
`blocksData`. -/
def sample (blocksData : List Bytes) : TaskRun sortedBlockQueue where
  node :=
    ((Sample.node.asyncNotifyBlockSyncMessage Sample.peer
        { number := 2, hash := HashType.zero.1
          genesisHash := HashType.zero.1 }).asyncNotifyBlockSyncMessage
      Sample.peer
        { packetType := BlockSyncPacketType.blockResponsePacket
          blocksData := blocksData }).maintainDownloadingBuffer
      Sample.createBlock
  point := .start
  calls _ := .idle

theorem isInit_sample (blocksData : List Bytes) :
    (taskSystem sortedBlockQueue).IsInit (sample blocksData) :=
  ⟨rfl, fun _ => rfl⟩

/-- The task sees block 1 on top; consensus notifies block 1 and clears the
queue; the task dereferences a top that is not there. -/
theorem clear_between_tops :
    ∃ r, (taskSystem sortedBlockQueue).Reachable r ∧ ¬ r.Trusted ∧
      r.point = .expiredNumber 0 ∧ r.node.downloadingQueue.top = none := by
  obtain ⟨r, hrun, hpoint, htop⟩ :
      ∃ r, (taskSystem sortedBlockQueue).exec (sample [[1, 1]])
        [.task, .task, .task, .task, .onNewBlock 0 (Sample.ledgerConfig 1),
          .advance 0, .advance 0, .advance 0] = some r ∧
        r.point = .expiredNumber 0 ∧ r.node.downloadingQueue.top = none :=
    ⟨_, rfl, rfl, rfl⟩
  refine ⟨r, .of_exec (isInit_sample _) hrun, fun htrusted => ?_, hpoint,
    htop⟩
  rw [Trusted, hpoint] at htrusted
  exact htrusted htop

/-- The same calls as in `clear_between_tops`, with block 2 in the queue: the
clear leaves the task a top.  A failed execution is answered too. -/
def sparedCalls : List Input :=
  [.task, .setExecutedBlock 0, .task, .task, .task,
    .onNewBlock 0 (Sample.ledgerConfig 1), .advance 0, .advance 0, .advance 0,
    .task, .task]

theorem run_trusted_iff_sample :
    (taskSystem sortedBlockQueue).AllStates Trusted (sample [[1, 1], [2, 1]])
      sparedCalls ∧
    ∃ r, (taskSystem sortedBlockQueue).exec (sample [[1, 1], [2, 1]])
        sparedCalls = some r ∧
      r.point = .waterMark 0 ∧ r.node.config.blockNumber = 1 :=
  ⟨(run_trusted_iff (isInit_sample _) sparedCalls).mpr (by decide +kernel),
    _, rfl, rfl, rfl⟩

end TaskRun

end BcosSync
