import BcosSync.Commit.Effects
import BcosSync.Commit.Refinement

/-!
# Ordered, bounded execution

The executed height stays between the chain height and the water mark above
it.  The bound needs an invariant on the outstanding callbacks: a block that
is being executed lies below the water mark, and a block that is being
committed is at most the next one, so that a commit that fails late can set
the executed height to the chain height at most.
-/

namespace BcosSync

open BlockSync TransitionSystem

namespace CommitSide

variable {c d : CommitSide} {i : Input}

structure InWindow (c : CommitSide) : Prop where
  nonneg : 0 ≤ c.blockNumber
  executedBlock_le : c.executedBlock ≤ c.blockNumber + waterMark
  executing_le : ∀ b, c.Executing b → b.number ≤ c.blockNumber + waterMark
  committing_le : ∀ b, c.Committing b → b.number ≤ c.blockNumber + 1

theorem waterMark_pos : 0 < waterMark := by decide

/-- The heights the executed height is set to are inside the window. -/
theorem Resets.le {n : ℤ} (h : Resets c n) (hwindow : c.InWindow) :
    n ≤ c.blockNumber + waterMark := by
  have hpos := waterMark_pos
  cases h with
  | chain => omega
  | executed hb => exact hwindow.executing_le _ hb
  | failed hb =>
      have hle := hwindow.committing_le _ hb
      omega

theorem Step.blockNumber_le (h : Step c i d) (hi : NonNegative i)
    (hnonneg : 0 ≤ c.blockNumber) : c.blockNumber ≤ d.blockNumber := by
  rcases h.toHeights_cases with hd | ⟨n, -, hd⟩ | ⟨l, hl, hd⟩
  · rw [hd]
  · rw [hd]
    exact le_rfl
  · rw [hd]
    have hln := hi _ hl
    unfold Heights.reset
    split_ifs with hignored
    · exact le_rfl
    · dsimp only
      omega

theorem Step.executedBlock_le (h : Step c i d) (hi : NonNegative i)
    (hwindow : c.InWindow) :
    d.executedBlock ≤ d.blockNumber + waterMark := by
  have hmono := h.blockNumber_le hi hwindow.nonneg
  have hle := hwindow.executedBlock_le
  rcases h.toHeights_cases with hd | ⟨n, hn, hd⟩ | ⟨l, hl, hd⟩
  · rwa [hd]
  · have hnle := hn.le hwindow
    rw [hd]
    dsimp only [Heights.setExecutedBlock]
    split_ifs
    · exact hnle
    · exact hle
  · have hpos := waterMark_pos
    rw [hd] at hmono ⊢
    unfold Heights.reset at hmono ⊢
    split_ifs at hmono ⊢ with hignored
    · exact hle
    · dsimp only at hmono ⊢
      omega

theorem Step.inWindow (h : Step c i d) (hi : NonNegative i)
    (hordered : c.Ordered) (hwindow : c.InWindow) : d.InWindow := by
  have hmono := h.blockNumber_le hi hwindow.nonneg
  refine ⟨hwindow.nonneg.trans hmono, h.executedBlock_le hi hwindow, ?_, ?_⟩
  · intro b hb
    rcases h.executing hb with hb | ⟨_, -, hexpects⟩
    · have hle := hwindow.executing_le b hb
      omega
    · have hnumber := hexpects.number_eq
      have hlt := hexpects.executedBlock_lt
      omega
  · intro b hb
    rcases h.committing hb with hb | ⟨hnumber, -⟩
    · have hle := hwindow.committing_le b hb
      omega
    · have hnext := (h.ordered hordered).nextBlock_eq
      omega

end CommitSide

namespace BlockSync

open CommitSide

variable {P : BlockQueue}

/-- The heights of the node, in order and no further apart than the water
mark. -/
structure HeightsInOrder (s : BlockSync P) : Prop where
  nextBlock_eq : s.config.nextBlock = s.config.blockNumber + 1
  blockNumber_le : s.config.blockNumber ≤ s.config.executedBlock
  executedBlock_le :
    s.config.executedBlock ≤ s.config.blockNumber + waterMark

/-- The step calls `scheduler->executeBlock` for the block. -/
def Starts (s t : BlockSync P) (b : Block) : Prop :=
  s.trace.count (.executeBlock b) < t.trace.count (.executeBlock b)

/-- What one transition does in order: the chain height does not decrease,
and a block handed to `applyBlock` is the one after the executed height,
inside the window, and is passed to the scheduler.  No other block is. -/
structure ExecutesInOrder (createBlock : BlockFactory) (s : BlockSync P)
    (i : Input) (t : BlockSync P) : Prop where
  blockNumber_le : s.config.blockNumber ≤ t.config.blockNumber
  applied : ∀ rand b, i = .downloadTask rand →
    s.appliedBlock createBlock = some b →
      b.number = s.config.executedBlock + 1 ∧
      s.config.blockNumber < b.number ∧
      b.number ≤ s.config.blockNumber + waterMark ∧
      ∃ before, s.trace <:+ before ∧ t.trace = .executeBlock b :: before
  started : ∀ b, s.Starts t b →
    ∃ rand, i = .downloadTask rand ∧ s.appliedBlock createBlock = some b

theorem IsInit.inWindow {s : BlockSync P} (h : IsInit P s)
    (hnumber : 0 ≤ s.config.blockNumber) : s.commitSide.InWindow := by
  have hpos := waterMark_pos
  rw [h.commitSide_eq]
  refine ⟨hnumber, ?_, ?_, ?_⟩
  · dsimp only
    omega
  · intro b hb
    exact absurd hb List.not_mem_nil
  · intro b hb
    simp [CommitSide.Committing] at hb

theorem CommitInvariant.heightsInOrder {s : BlockSync P}
    (h : s.CommitInvariant InWindow) : s.HeightsInOrder where
  nextBlock_eq := h.1.nextBlock_eq
  blockNumber_le := h.1.blockNumber_le
  executedBlock_le := h.2.executedBlock_le

/-- The heights stay in the window. -/
theorem step_inWindow {createBlock : BlockFactory} {s t : BlockSync P}
    {i : Input} (hi : NonNegative i) (hs : s.CommitInvariant InWindow)
    (hstep : s.step createBlock i = some t) : t.CommitInvariant InWindow :=
  CommitInvariant.step (A := NonNegative)
    (fun _ _ _ hi hordered hwindow h => h.inWindow hi hordered hwindow)
    s i t hi hs hstep

/-- A block handed to `applyBlock` always reaches the scheduler. -/
theorem downloadTask_trace {createBlock : BlockFactory}
    {rand : ℕ → ℕ → ℕ} {s : BlockSync P} {b : Block}
    (hordered : s.commitSide.Ordered)
    (hb : s.appliedBlock createBlock = some b) :
    ∃ before, s.trace <:+ before ∧
      (s.downloadTask createBlock rand).trace = .executeBlock b :: before := by
  rcases downloadTask_cases createBlock rand hordered with
    ⟨-, hnone, -⟩ | ⟨d, -, htry, htask⟩
  · rw [hb] at hnone
    cases hnone
  · rw [hb] at htask
    exact ⟨d.trace, htry.trace_suffix, congrArg CommitSide.trace htask⟩

/-- A download task starts the execution of the block it hands to
`applyBlock`, and of no other. -/
theorem downloadTask_starts_iff {createBlock : BlockFactory}
    {rand : ℕ → ℕ → ℕ} {s : BlockSync P} {b : Block}
    (hordered : s.commitSide.Ordered) :
    s.Starts (s.downloadTask createBlock rand) b ↔
      s.appliedBlock createBlock = some b := by
  unfold Starts
  rcases downloadTask_cases createBlock rand hordered with
    ⟨-, hnone, hsame⟩ | ⟨d, -, htry, htask⟩
  · have htrace : (s.downloadTask createBlock rand).trace = s.trace :=
      congrArg CommitSide.trace hsame
    simp [htrace, hnone]
  · have hcount : d.trace.count (.executeBlock b) =
        s.trace.count (.executeBlock b) := htry.count_executeBlock
    have htrace := congrArg CommitSide.trace htask
    cases happlied : s.appliedBlock createBlock with
    | none =>
        rw [happlied] at htrace
        have htrace : (s.downloadTask createBlock rand).trace = d.trace :=
          htrace
        simp [htrace, hcount]
    | some a =>
        rw [happlied] at htrace
        have htrace : (s.downloadTask createBlock rand).trace =
            .executeBlock a :: d.trace := htrace
        rw [htrace, List.count_cons, hcount]
        by_cases heq : a = b <;> simp [heq]

theorem step_starts_iff {createBlock : BlockFactory} {s t : BlockSync P}
    {i : Input} {b : Block} (hordered : s.commitSide.Ordered)
    (hstep : s.step createBlock i = some t) :
    s.Starts t b ↔
      ∃ rand, i = .downloadTask rand ∧ s.appliedBlock createBlock = some b := by
  by_cases htask : ∃ rand, i = .downloadTask rand
  · obtain ⟨rand, rfl⟩ := htask
    obtain rfl := Option.some.inj hstep
    rw [downloadTask_starts_iff hordered]
    exact ⟨fun hb => ⟨rand, rfl, hb⟩, fun ⟨_, _, hb⟩ => hb⟩
  · have hcount := (step_commitSide hordered hstep).count_executeBlock
      (b := b) (not_exists.mp htask)
    refine iff_of_false ?_ fun ⟨rand, hi, _⟩ => htask ⟨rand, hi⟩
    exact (Nat.le_of_eq hcount).not_gt

theorem step_executesInOrder {createBlock : BlockFactory} {s t : BlockSync P}
    {i : Input} (hi : NonNegative i) (hs : s.CommitInvariant InWindow)
    (hstep : s.step createBlock i = some t) :
    ExecutesInOrder createBlock s i t := by
  refine ⟨(step_commitSide hs.1 hstep).blockNumber_le hi hs.2.nonneg, ?_,
    fun b hb => (step_starts_iff hs.1 hstep).mp hb⟩
  rintro rand b rfl hb
  obtain ⟨hnumber, hlt, habove⟩ := (appliedBlock_spec hs.1 hb).1
  obtain rfl := Option.some.inj hstep
  refine ⟨hnumber, habove, ?_, downloadTask_trace hs.1 hb⟩
  rw [hnumber]
  exact hlt

/-- In every run from `init` the heights stay in order and blocks are
executed in order, provided the ledger configs carry heights. -/
theorem run_ordered_execution {createBlock : BlockFactory} {s : BlockSync P}
    (hs : IsInit P s) (hnumber : 0 ≤ s.config.blockNumber) {is : List Input}
    (his : ∀ i ∈ is, NonNegative i) :
    (nodeSystem P createBlock).AllStates HeightsInOrder s is ∧
      (nodeSystem P createBlock).AllTransitions
        (ExecutesInOrder createBlock) s is := by
  have hinv : s.CommitInvariant InWindow := ⟨hs.ordered, hs.inWindow hnumber⟩
  refine ⟨⟨hinv.heightsInOrder, ?_⟩, ?_⟩
  · exact AllTransitions.of_invariant (C := fun _ _ _ => True)
      (I := fun s => s.CommitInvariant InWindow)
      (fun s i t hi hs _ ht => step_inWindow hi hs ht)
      (fun s i t hi hs _ ht => (step_inWindow hi hs ht).heightsInOrder)
      his hinv .trivial
  · exact AllTransitions.of_invariant (C := fun _ _ _ => True)
      (I := fun s => s.CommitInvariant InWindow)
      (fun s i t hi hs _ ht => step_inWindow hi hs ht)
      (fun s i t hi hs _ ht => step_executesInOrder hi hs ht)
      his hinv .trivial

theorem run_ordered_execution_sample :
    Sample.system.AllStates HeightsInOrder Sample.node
        [Sample.status Sample.peer 2, Sample.blocks [[1, 1], [2, 1]],
          Sample.task, .notifyNewBlock (Sample.ledgerConfig 1)] ∧
      Sample.system.AllTransitions (ExecutesInOrder Sample.createBlock)
        Sample.node
        [Sample.status Sample.peer 2, Sample.blocks [[1, 1], [2, 1]],
          Sample.task, .notifyNewBlock (Sample.ledgerConfig 1)] :=
  run_ordered_execution Sample.isInit_node (by decide) (by decide)

end BlockSync

end BcosSync
