import BcosSync.Commit.Window

/-!
# The heights between the chain and the executed height

A height above the chain is held if a block of that height waits in the commit
queue or is being committed.  All heights up to the executed height should be
held.  A commit that fails sets the executed height back to the chain height,
but an execution that is still in flight then sets it forward again, and the
heights in between are held by nobody.  The module says exactly which answers
open such a gap.
-/

namespace BcosSync

open BlockSync TransitionSystem

namespace CommitSide

variable {c d : CommitSide} {i : Input}

/-- A block of height `n` waits for its commit or is being committed. -/
def Holds (c : CommitSide) (n : ℤ) : Prop :=
  ∃ b : Block, b.number = n ∧ (b ∈ c.commitQueue ∨ c.Committing b)

def NoGap (c : CommitSide) : Prop :=
  ∀ n, c.blockNumber < n → n ≤ c.executedBlock → c.Holds n

/-! ## Which heights are held -/

theorem holds_congr {n : ℤ} (hqueue : d.commitQueue = c.commitQueue)
    (hpending : d.pending = c.pending) : d.Holds n ↔ c.Holds n := by
  simp only [Holds, CommitSide.Committing, hqueue, hpending]

theorem holds_setExecutedBlock {k n : ℤ} :
    (c.setExecutedBlock k).Holds n ↔ c.Holds n := Iff.rfl

theorem holds_enqueue {b : Block} {n : ℤ} :
    (c.enqueue b).Holds n ↔ b.number = n ∨ c.Holds n := by
  constructor
  · rintro ⟨a, ha, hmem | hcommitting⟩
    · rcases Multiset.mem_cons.mp hmem with rfl | hmem
      · exact .inl ha
      · exact .inr ⟨a, ha, .inl hmem⟩
    · exact .inr ⟨a, ha, .inr hcommitting⟩
  · rintro (hb | ⟨a, ha, hmem | hcommitting⟩)
    · exact ⟨b, hb, .inl (Multiset.mem_cons_self b _)⟩
    · exact ⟨a, ha, .inl (Multiset.mem_cons_of_mem hmem)⟩
    · exact ⟨a, ha, .inr hcommitting⟩

/-- Dropping expired blocks loses no height above the chain. -/
theorem holds_unexpired {n : ℤ} (hn : c.blockNumber < n) :
    ({ c with commitQueue := c.unexpired } : CommitSide).Holds n ↔
      c.Holds n := by
  constructor
  · rintro ⟨a, ha, hmem | hcommitting⟩
    · exact ⟨a, ha, .inl (mem_of_mem_unexpired hmem).1⟩
    · exact ⟨a, ha, .inr hcommitting⟩
  · rintro ⟨a, ha, hmem | hcommitting⟩
    · refine ⟨a, ha, .inl (Multiset.mem_filter.mpr ⟨hmem, ?_⟩)⟩
      omega
    · exact ⟨a, ha, .inr hcommitting⟩

/-- A block that goes from the commit queue to the check is held all along. -/
theorem TryCommit.holds_iff {n : ℤ} (h : TryCommit none c d)
    (hn : c.blockNumber < n) : d.Holds n ↔ c.Holds n := by
  rw [← holds_unexpired hn]
  cases h with
  | idle => exact Iff.rfl
  | @check b rest hwaiting hnumber =>
      simp only [Holds, CommitSide.Committing, call, log, await, hwaiting,
        reduceCtorEq, if_false, List.mem_cons, Callback.asyncCheckBlock.injEq,
        Multiset.mem_cons, false_or]
      constructor
      · rintro ⟨a, ha, hmem | (rfl | hcheck) | hrest⟩
        · exact ⟨a, ha, .inl (.inr hmem)⟩
        · exact ⟨a, ha, .inl (.inl rfl)⟩
        · exact ⟨a, ha, .inr (.inl hcheck)⟩
        · exact ⟨a, ha, .inr (.inr hrest)⟩
      · rintro ⟨a, ha, (rfl | hmem) | hcheck | hrest⟩
        · exact ⟨a, ha, .inr (.inl (.inl rfl))⟩
        · exact ⟨a, ha, .inl hmem⟩
        · exact ⟨a, ha, .inr (.inl (.inr hcheck))⟩
        · exact ⟨a, ha, .inr (.inr hrest)⟩

/-- The block a callback is about. -/
def callbackBlock : Callback → Block
  | .executeBlock b => b
  | .asyncCheckBlock b => b
  | .asyncStoreTransactions b => b
  | .commitBlock b => b

/-- An answered callback can lose its own height only. -/
theorem holds_receive {cb : Callback} {e : Event} {n : ℤ}
    (hn : (callbackBlock cb).number ≠ n) :
    (c.receive cb e).Holds n ↔ c.Holds n := by
  have hmem : ∀ cb', (callbackBlock cb').number = n →
      (cb' ∈ c.pending.erase cb ↔ cb' ∈ c.pending) := by
    intro cb' hcb'
    refine List.mem_erase_of_ne ?_
    rintro rfl
    exact hn hcb'
  have hcommitting : ∀ b : Block, b.number = n →
      ((c.receive cb e).Committing b ↔ c.Committing b) := by
    intro b hb
    exact or_congr (hmem _ hb) (or_congr (hmem _ hb) (hmem _ hb))
  refine exists_congr fun b => and_congr_right fun hb => ?_
  exact or_congr Iff.rfl (hcommitting b hb)

theorem holds_receive_executed {b : Block} {e : Event} {n : ℤ} :
    (c.receive (.executeBlock b) e).Holds n ↔ c.Holds n := by
  refine exists_congr fun a => and_congr_right fun _ => ?_
  refine or_congr Iff.rfl ?_
  simp only [CommitSide.Committing, receive]
  exact or_congr (List.mem_erase_of_ne (by simp))
    (or_congr (List.mem_erase_of_ne (by simp))
      (List.mem_erase_of_ne (by simp)))

theorem holds_await_execute {b : Block} {n : ℤ} :
    (c.await (.executeBlock b)).Holds n ↔ c.Holds n := by
  simp [Holds, CommitSide.Committing, await]

/-- A new callback can add its own height only. -/
theorem holds_await {cb : Callback} {n : ℤ}
    (hn : (callbackBlock cb).number ≠ n) :
    (c.await cb).Holds n ↔ c.Holds n := by
  have hmem : ∀ cb', (callbackBlock cb').number = n →
      (cb' ∈ cb :: c.pending ↔ cb' ∈ c.pending) := by
    intro cb' hcb'
    rw [List.mem_cons, or_iff_right]
    rintro rfl
    exact hn hcb'
  refine exists_congr fun b => and_congr_right fun hb => ?_
  exact or_congr Iff.rfl
    (or_congr (hmem _ hb) (or_congr (hmem _ hb) (hmem _ hb)))

theorem holds_call {site : ThrowSite} {b : Block} {e : Event} {cb : Callback}
    {n : ℤ} (hn : (callbackBlock cb).number ≠ n) :
    (c.call none site b e cb).Holds n ↔ c.Holds n :=
  (holds_await (c := c.log e) hn).trans (holds_congr rfl rfl)

/-- A block whose check succeeded is still being committed. -/
theorem holds_commitBlock {b : Block} {e : Event} {n : ℤ}
    (hchecking : .asyncCheckBlock b ∈ c.pending) :
    ((c.receive (.asyncCheckBlock b) e).commitBlock none b).Holds n ↔
      c.Holds n := by
  by_cases hn : b.number = n
  · have hstoring : .asyncStoreTransactions b ∈
        ((c.receive (.asyncCheckBlock b) e).commitBlock none b).pending := by
      unfold commitBlock
      split_ifs <;> simp_all [storeTransactions, call, await]
    exact iff_of_true ⟨b, hn, .inr (.inr (.inl hstoring))⟩
      ⟨b, hn, .inr (.inl hchecking)⟩
  · have hreceive : (c.receive (.asyncCheckBlock b) e).Holds n ↔ c.Holds n :=
      holds_receive hn
    rw [← hreceive]
    have hstore : ∀ c : CommitSide,
        (c.storeTransactions none b).Holds n ↔ c.Holds n :=
      fun _ => holds_call hn
    have hcommit : ∀ c : CommitSide,
        (c.commitBlockState none b).Holds n ↔ c.Holds n :=
      fun _ => holds_call hn
    unfold commitBlock
    split_ifs
    · contradiction
    · rw [hstore, hcommit]
    · contradiction
    · rw [hstore]

theorem holds_stored {b : Block} {e : Event} {n : ℤ}
    (hstoring : .asyncStoreTransactions b ∈ c.pending) :
    ((c.receive (.asyncStoreTransactions b) e).commitBlockState none b).Holds
        n ↔ c.Holds n := by
  by_cases hn : b.number = n
  · exact iff_of_true
      ⟨b, hn, .inr (.inr (.inr List.mem_cons_self))⟩
      ⟨b, hn, .inr (.inr (.inl hstoring))⟩
  · have hreceive : (c.receive (.asyncStoreTransactions b) e).Holds n ↔
        c.Holds n := holds_receive hn
    rw [← hreceive]
    exact holds_call (show (callbackBlock (.commitBlock b)).number ≠ n from hn)

/-! ## When a step opens a gap -/

theorem noGap_congr (hheights : d.toHeights = c.toHeights)
    (hholds : ∀ n, c.blockNumber < n → (d.Holds n ↔ c.Holds n)) :
    d.NoGap ↔ c.NoGap := by
  simp only [NoGap, hheights]
  exact forall_congr' fun n => forall_congr' fun hn =>
    forall_congr' fun _ => hholds n hn

theorem TryCommit.noGap_iff (h : TryCommit none c d) : d.NoGap ↔ c.NoGap :=
  noGap_congr h.toHeights_eq fun _ hn => h.holds_iff hn

/-- An execution that succeeded leaves a gap exactly if it skips a height
between the executed height and its own that nobody holds. -/
theorem noGap_executed {b : Block} {e : Event} (hordered : c.Ordered)
    (hgap : c.NoGap) :
    (((c.receive (.executeBlock b) e).setExecutedBlock b.number).enqueue
        b).NoGap ↔
      ∀ n, c.executedBlock < n → n < b.number → c.Holds n := by
  have hle := hordered.blockNumber_le
  have hholds : ∀ n, (((c.receive (.executeBlock b) e).setExecutedBlock
      b.number).enqueue b).Holds n ↔ b.number = n ∨ c.Holds n := by
    intro n
    rw [holds_enqueue, holds_setExecutedBlock, holds_receive_executed]
  have hexecuted : (((c.receive (.executeBlock b) e).setExecutedBlock
      b.number).enqueue b).executedBlock =
        if c.blockNumber ≤ b.number then b.number else c.executedBlock := rfl
  have hnumber : (((c.receive (.executeBlock b) e).setExecutedBlock
      b.number).enqueue b).blockNumber = c.blockNumber := rfl
  unfold NoGap
  rw [hexecuted, hnumber]
  constructor
  · intro h n hlow hhigh
    rw [if_pos (by omega)] at h
    rcases (hholds n).mp (h n (by omega) (by omega)) with heq | hheld
    · omega
    · exact hheld
  · intro h n hlow hhigh
    rw [hholds]
    by_cases hn : b.number = n
    · exact .inl hn
    · by_cases hold : n ≤ c.executedBlock
      · exact .inr (hgap n hlow hold)
      · refine .inr (h n (by omega) ?_)
        split_ifs at hhigh <;> omega

/-- A commit that failed opens no gap. -/
theorem noGap_rollback {cb : Callback} {e : Event}
    (hcb : (callbackBlock cb).number ≤ c.blockNumber + 1) (hgap : c.NoGap) :
    ((c.receive cb e).setExecutedBlock
      ((callbackBlock cb).number - 1)).NoGap := by
  intro n hlow hhigh
  have hlow : c.blockNumber < n := hlow
  have hhigh : n ≤ if c.blockNumber ≤ (callbackBlock cb).number - 1 then
      (callbackBlock cb).number - 1 else c.executedBlock := hhigh
  have hne : (callbackBlock cb).number ≠ n := by
    split_ifs at hhigh <;> omega
  rw [holds_setExecutedBlock, holds_receive hne]
  refine hgap n hlow ?_
  split_ifs at hhigh <;> omega

/-- A new block loses no held height above it. -/
theorem holds_advance {l : LedgerConfig} {n : ℤ}
    (hn : (c.advance l).blockNumber < n) :
    (c.advance l).Holds n ↔ c.Holds n :=
  (holds_unexpired (c := c.reset l) hn).trans (holds_congr rfl rfl)

theorem mem_window_of_advance {l : LedgerConfig} {n : ℤ}
    (hl : 0 ≤ l.blockNumber) (hnonneg : 0 ≤ c.blockNumber)
    (hlow : (c.advance l).blockNumber < n)
    (hhigh : n ≤ (c.advance l).executedBlock) :
    c.blockNumber < n ∧ n ≤ c.executedBlock := by
  have hlow : (c.toHeights.reset l).blockNumber < n := hlow
  have hhigh : n ≤ (c.toHeights.reset l).executedBlock := hhigh
  unfold Heights.reset at hlow hhigh
  split_ifs at hlow hhigh
  · exact ⟨hlow, hhigh⟩
  · dsimp only at hlow hhigh
    omega

/-- The input opens no gap: an execution that succeeds skips no height that
nobody holds, and a commit that succeeds reports at least the height of its
block, unless that height is still held. -/
def Contiguous (c : CommitSide) : Input → Prop
  | .executeBlockAnswer b (.ok header) _ =>
      b.hash = header.hash →
        ∀ n, c.executedBlock < n → n < b.number → c.Holds n
  | .commitBlockAnswer b (.ok l) _ =>
      l.blockNumber < b.number → c.blockNumber < b.number →
        b.number ≤ c.executedBlock →
          (c.receive (.commitBlock b) (.commitBlockAnswer b (.ok l))).Holds
            b.number
  | _ => True

theorem noGap_committed {b : Block} {l : LedgerConfig} {e : Event}
    (hl : 0 ≤ l.blockNumber) (hnonneg : 0 ≤ c.blockNumber)
    (hgap : c.NoGap) :
    (((c.receive (.commitBlock b) (.commitBlockAnswer b (.ok l))).log
        e).advance (completedConfig b l)).NoGap ↔
      c.Contiguous (.commitBlockAnswer b (.ok l) none) := by
  let c' := (c.receive (.commitBlock b) (.commitBlockAnswer b (.ok l))).log e
  have hsame : ∀ n, c'.Holds n ↔
      (c.receive (.commitBlock b) (.commitBlockAnswer b (.ok l))).Holds n :=
    fun _ => Iff.rfl
  constructor
  · intro h hbelow hlow hhigh
    rw [← hsame]
    have hreset : (c'.advance (completedConfig b l)).blockNumber < b.number ∧
        b.number ≤ (c'.advance (completedConfig b l)).executedBlock := by
      have hheights : (c'.advance (completedConfig b l)).toHeights =
          c.toHeights.reset (completedConfig b l) := rfl
      rw [hheights]
      unfold Heights.reset
      split_ifs
      · exact ⟨hlow, hhigh⟩
      · exact ⟨hbelow, hhigh.trans (le_max_left _ _)⟩
    exact (holds_advance hreset.1).mp (h b.number hreset.1 hreset.2)
  · intro h n hlow hhigh
    obtain ⟨hlow', hhigh'⟩ := mem_window_of_advance hl hnonneg hlow hhigh
    rw [holds_advance hlow]
    by_cases hn : b.number = n
    · subst hn
      refine h ?_ hlow' hhigh'
      have hlow : (c.toHeights.reset (completedConfig b l)).blockNumber <
          b.number := hlow
      unfold Heights.reset at hlow
      split_ifs at hlow with hignored
      · have hle : l.blockNumber ≤ c.blockNumber := hignored.1
        omega
      · exact hlow
    · have hreceive : (c.receive (.commitBlock b)
          (.commitBlockAnswer b (.ok l))).Holds n ↔ c.Holds n :=
        holds_receive hn
      exact (hsame n).mpr (hreceive.mpr (hgap n hlow' hhigh'))

/-- Without exceptions, a step from a state without a gap leads to a state
without a gap if and only if its input is contiguous. -/
theorem Step.noGap_iff (h : Step c i d) (hi : NonNegative i)
    (hthrow : throwSite i = none) (hordered : c.Ordered)
    (hwindow : c.InWindow) (hgap : c.NoGap) : d.NoGap ↔ c.Contiguous i := by
  have hfailed : ∀ {cb : Callback} {e : Event},
      c.Committing (callbackBlock cb) → ((c.receive cb e).setExecutedBlock
        ((callbackBlock cb).number - 1)).NoGap :=
    fun hcb => noGap_rollback (hwindow.committing_le _ hcb) hgap
  cases h with
  | quiet hquiet =>
      cases i <;> first | exact hquiet.elim | exact iff_of_true hgap trivial
  | task htry => exact iff_of_true (htry.noGap_iff.mpr hgap) trivial
  | @taskApply rand e b htry =>
      have hexecute :
          ((e.log (.executeBlock b)).await (.executeBlock b)).NoGap ↔
            e.NoGap :=
        noGap_congr rfl fun n _ =>
          holds_await_execute (c := e.log (.executeBlock b))
      exact iff_of_true (hexecute.mpr (htry.noGap_iff.mpr hgap)) trivial
  | @newBlock l e hlt htry =>
      refine iff_of_true (htry.noGap_iff.mpr ?_) trivial
      intro n hlow hhigh
      obtain ⟨hlow', hhigh'⟩ :=
        mem_window_of_advance (hi _ rfl) hwindow.nonneg hlow hhigh
      exact (holds_advance hlow).mpr (hgap n hlow' hhigh')
  | @executed b header throws e hexecuting hhash htry =>
      obtain rfl : throws = none := hthrow
      rw [htry.noGap_iff, noGap_executed hordered hgap]
      exact ⟨fun h _ => h, fun h => h hhash⟩
  | @executeFailed b a throws hexecuting hfailed =>
      refine iff_of_true ?_ ?_
      · intro n hlow hhigh
        have hhigh : n ≤ if c.blockNumber ≤ c.blockNumber then c.blockNumber
            else c.executedBlock := hhigh
        have hlow : c.blockNumber < n := hlow
        rw [if_pos le_rfl] at hhigh
        omega
      · cases a with
        | error e => trivial
        | ok header => exact fun hhash => absurd hhash (hfailed header rfl)
  | @checked b throws hchecking =>
      obtain rfl : throws = none := hthrow
      refine iff_of_true ?_ trivial
      refine (noGap_congr ?_ fun n _ => holds_commitBlock hchecking).mpr hgap
      rw [commitBlock_toHeights]
      rfl
  | checkFailed hchecking _ =>
      exact iff_of_true (hfailed (.inl hchecking)) trivial
  | @stored b throws hstoring =>
      obtain rfl : throws = none := hthrow
      refine iff_of_true ?_ trivial
      refine (noGap_congr ?_ fun n _ => holds_stored hstoring).mpr hgap
      rw [commitBlockState, call_toHeights]
      rfl
  | storeFailed hstoring =>
      exact iff_of_true (hfailed (.inr (.inl hstoring))) trivial
  | @committed b l throws e hcommitting _ htry =>
      obtain rfl : throws = none := hthrow
      rw [htry.noGap_iff]
      exact noGap_committed (hi _ rfl) hwindow.nonneg hgap
  | handlerThrew => cases hthrow
  | commitFailed hcommitting =>
      exact iff_of_true (hfailed (.inr (.inr hcommitting))) trivial

end CommitSide

namespace BlockSync

open CommitSide

variable {P : BlockQueue} {createBlock : BlockFactory}

/-- The node holds every height above the chain up to the executed height; in
particular, when `tryToRequestBlocks` waits for a commit, the next block is
held. -/
def HoldsExecuted (s : BlockSync P) : Prop :=
  (∀ n, s.config.blockNumber < n → n ≤ s.config.executedBlock →
    s.commitSide.Holds n) ∧
  (s.waitsForCommit = true → s.commitSide.Holds s.config.nextBlock)

theorem holdsExecuted_iff {s : BlockSync P} (hordered : s.commitSide.Ordered) :
    s.HoldsExecuted ↔ s.commitSide.NoGap := by
  refine ⟨fun h => h.1, fun h => ⟨h, fun hwaits => ?_⟩⟩
  have hnext : s.config.nextBlock = s.config.blockNumber + 1 :=
    hordered.nextBlock_eq
  simp only [waitsForCommit, Bool.and_eq_true, decide_eq_true_eq] at hwaits
  have hlow : s.commitSide.blockNumber < s.config.nextBlock := by
    change s.config.blockNumber < s.config.nextBlock
    omega
  have hhigh : s.config.nextBlock ≤ s.commitSide.executedBlock := by
    change s.config.nextBlock ≤ s.config.executedBlock
    omega
  exact h _ hlow hhigh

/-- The inputs of a run in which services answer, with heights, and nothing
throws. -/
def Answers (i : Input) : Prop :=
  NonNegative i ∧ throwSite i = none

instance (i : Input) : Decidable (Answers i) :=
  inferInstanceAs (Decidable (_ ∧ _))

theorem IsInit.noGap {s : BlockSync P} (h : IsInit P s)
    (hnumber : 0 ≤ s.config.blockNumber) : s.commitSide.NoGap := by
  rw [h.commitSide_eq]
  intro n hlow hhigh
  dsimp only at hlow hhigh
  omega

/-- A run from `init` leaves no height unheld if and only if all its inputs
are contiguous. -/
theorem run_holdsExecuted_iff {s : BlockSync P} (hs : IsInit P s)
    (hnumber : 0 ≤ s.config.blockNumber) {is : List Input}
    (his : ∀ i ∈ is, Answers i) :
    (nodeSystem P createBlock).AllStates HoldsExecuted s is ↔
      (nodeSystem P createBlock).AllSteps
        (fun s i => s.commitSide.Contiguous i) s is := by
  refine allStates_iff_allSteps (I := fun s => s.CommitInvariant InWindow)
    (fun s i t hi hinv ht => step_inWindow hi.1 hinv ht) ?_ his
    ⟨hs.ordered, hs.inWindow hnumber⟩
    ((holdsExecuted_iff hs.ordered).mpr (hs.noGap hnumber))
  intro s i t hi hinv hheld ht
  have hgap := (holdsExecuted_iff hinv.1).mp hheld
  rw [holdsExecuted_iff (step_inWindow hi.1 hinv ht).1]
  exact (step_commitSide hinv.1 ht).noGap_iff hi.1 hi.2 hinv.1 hinv.2 hgap

/-- Block 1 fails its check while block 2 is still being executed; the late
success of block 2 sets the executed height back to 2, and nobody holds
height 1. -/
theorem lateExecution_opens_gap :
    ∃ s, Sample.system.ReachableBy Answers s ∧ s.waitsForCommit = true ∧
      ¬ s.commitSide.Holds s.config.nextBlock ∧ ¬ s.HoldsExecuted := by
  let inputs : List Input :=
    [Sample.status Sample.peer 2, Sample.blocks [[1, 1], [2, 1]],
      Sample.task, Sample.executed (Sample.block 0 1 1), Sample.task,
      Sample.checked (Sample.block 0 1 1) false,
      Sample.executed (Sample.block 1 2 1)]
  obtain ⟨s, hrun, hwaits, hnext, hqueue, hpending⟩ :
      ∃ s, Sample.system.exec Sample.node inputs = some s ∧
        s.waitsForCommit = true ∧ s.config.nextBlock = 1 ∧
        s.commitQueue = {Sample.block 1 2 1} ∧ s.pending = [] :=
    ⟨_, rfl, rfl, rfl, rfl, rfl⟩
  have hreach : Sample.system.ReachableBy Answers s :=
    (ReachableBy.init Sample.isInit_node).exec (by decide) hrun
  have hmissing : ¬ s.commitSide.Holds s.config.nextBlock := by
    rintro ⟨b, hb, hmem | hcommitting⟩
    · have hmem : b ∈ s.commitQueue := hmem
      rw [hqueue, Multiset.mem_singleton] at hmem
      subst hmem
      rw [hnext] at hb
      exact absurd hb (by decide)
    · have hcommitting : s.Committing b := hcommitting
      simp [BlockSync.Committing, hpending] at hcommitting
  exact ⟨s, hreach, hwaits, hmissing, fun h => hmissing (h.2 hwaits)⟩

theorem run_holdsExecuted_sample :
    Sample.system.AllStates HoldsExecuted Sample.node
        [Sample.status Sample.peer 2, Sample.blocks [[1, 1]], Sample.task,
          Sample.executed (Sample.block 0 1 1)] ↔
      Sample.system.AllSteps (fun s i => s.commitSide.Contiguous i)
        Sample.node
        [Sample.status Sample.peer 2, Sample.blocks [[1, 1]], Sample.task,
          Sample.executed (Sample.block 0 1 1)] :=
  run_holdsExecuted_iff Sample.isInit_node (by decide) (by decide)

end BlockSync

end BcosSync
