import BcosSync.Commit.Window

/-!
# Commits of heights the chain has reached

A block passes two stages before it is committed: its check and, unless it is
empty, the store of its transactions.  Its height is compared with the chain
before the first of them only.  If the chain moves while the block is in a
stage and the stage ends well, the next call is made for a height that is not
the next one any more.  The module says that this is the only way to such a
call, and that it always leads there.
-/

namespace BcosSync

open BlockSync TransitionSystem

namespace CommitSide

variable {c d : CommitSide} {i : Input} {throws : Option ThrowSite}

/-- The block handed to the ledger to be stored or to the scheduler to be
committed. -/
def handedBlock : Event → Option Block
  | .asyncStoreTransactions b _ _ => some b
  | .commitBlock b => some b
  | _ => none

/-- The blocks the node has called `asyncStoreTransactions` or
`scheduler->commitBlock` for, once for each call. -/
def handedBlocks (c : CommitSide) : Multiset Block :=
  ↑(c.trace.filterMap handedBlock)

/-- Every block the step stores or commits has the height after the chain's.
The callbacks that make these calls do not move the chain. -/
def NoStaleCall (c d : CommitSide) : Prop :=
  ∀ b, c.handedBlocks.count b < d.handedBlocks.count b →
    b.number = c.blockNumber + 1

/-- The check or the store of the block has not been answered. -/
def InStage (c : CommitSide) (b : Block) : Prop :=
  .asyncCheckBlock b ∈ c.pending ∨ .asyncStoreTransactions b ∈ c.pending

/-- The input moves the chain. -/
def Moves (c : CommitSide) : Input → Prop
  | .notifyNewBlock l => c.blockNumber < l.blockNumber
  | .commitBlockAnswer _ (.ok l) throws =>
      throws ≠ some .newBlockHandler ∧ l.blockNumber ≠ c.blockNumber ∧
        (c.blockNumber < l.blockNumber ∨ c.blockNumber ≤ 0)
  | _ => False

/-- The input ends the check or the store of the block well, and no exception
keeps the callback from its next call. -/
def Passes (b : Block) : Input → Prop
  | .asyncCheckBlockAnswer a (.ok true) throws =>
      a = b ∧ (b.transactionsSize = 0 ∨ throws ≠ some .encodeTransaction)
  | .asyncStoreTransactionsAnswer a none _ => a = b
  | _ => False

/-- If the input moves the chain, the blocks that are in a stage then do not
pass it later. -/
def OvertakesNone (c : CommitSide) (i : Input) (later : List Input) : Prop :=
  c.Moves i → ∀ b, c.InStage b → ∀ j ∈ later, ¬ Passes b j

/-- The blocks that are in a stage and pass one later have the height after
the chain's. -/
def FreshAhead (c : CommitSide) (later : List Input) : Prop :=
  ∀ b, c.InStage b → (∃ j ∈ later, Passes b j) →
    b.number = c.blockNumber + 1

instance (c : CommitSide) (i : Input) : Decidable (c.Moves i) := by
  unfold Moves
  split <;> infer_instance

instance (b : Block) (i : Input) : Decidable (Passes b i) := by
  unfold Passes
  split <;> infer_instance

/-- The block whose check or store the callback waits for. -/
def stagedBlock : Callback → Option Block
  | .asyncCheckBlock b => some b
  | .asyncStoreTransactions b => some b
  | _ => none

theorem inStage_iff {b : Block} :
    c.InStage b ↔ ∃ cb ∈ c.pending, stagedBlock cb = some b := by
  constructor
  · rintro (hmem | hmem)
    · exact ⟨_, hmem, rfl⟩
    · exact ⟨_, hmem, rfl⟩
  · rintro ⟨cb, hmem, hcb⟩
    cases cb with
    | asyncCheckBlock a =>
        obtain rfl := Option.some.inj hcb
        exact .inl hmem
    | asyncStoreTransactions a =>
        obtain rfl := Option.some.inj hcb
        exact .inr hmem
    | executeBlock a => cases hcb
    | commitBlock a => cases hcb

instance (c : CommitSide) (i : Input) (later : List Input) :
    Decidable (c.OvertakesNone i later) :=
  decidable_of_iff
    (c.Moves i → ∀ cb ∈ c.pending, ∀ b ∈ stagedBlock cb,
      ∀ j ∈ later, ¬ Passes b j)
    ⟨fun h hi b hb =>
      have ⟨cb, hmem, hcb⟩ := inStage_iff.mp hb
      h hi cb hmem b hcb,
    fun h hi cb hmem b hcb => h hi b (inStage_iff.mpr ⟨cb, hmem, hcb⟩)⟩

/-! ## The calls of one step -/

theorem handedBlocks_log {e : Event} (he : handedBlock e = none) :
    (c.log e).handedBlocks = c.handedBlocks := by
  unfold handedBlocks log
  rw [List.filterMap_cons_none he]

theorem handedBlocks_log_some {e : Event} {b : Block}
    (he : handedBlock e = some b) :
    (c.log e).handedBlocks = b ::ₘ c.handedBlocks := by
  unfold handedBlocks log
  rw [List.filterMap_cons_some he]
  rfl

theorem handedBlocks_call {site : ThrowSite} {a : Block} {e : Event}
    {cb : Callback} :
    (c.call throws site a e cb).handedBlocks = (c.log e).handedBlocks := by
  unfold call
  split_ifs
  · exact handedBlocks_log rfl
  · rfl

theorem TryCommit.handedBlocks_eq (h : TryCommit throws c d) :
    d.handedBlocks = c.handedBlocks := by
  cases h with
  | idle => rfl
  | @check b rest =>
      rw [handedBlocks_call]
      exact handedBlocks_log (c := { c with commitQueue := rest }) rfl

theorem handedBlocks_commitBlockState (b : Block) :
    (c.commitBlockState throws b).handedBlocks = b ::ₘ c.handedBlocks := by
  rw [commitBlockState, handedBlocks_call]
  exact handedBlocks_log_some rfl

theorem handedBlocks_storeTransactions (b : Block) :
    (c.storeTransactions throws b).handedBlocks = b ::ₘ c.handedBlocks := by
  rw [storeTransactions, handedBlocks_call]
  exact handedBlocks_log_some rfl

theorem count_cons_lt_iff {a b : Block} {s : Multiset Block} :
    s.count a < (b ::ₘ s).count a ↔ a = b := by
  rw [Multiset.count_cons]
  split_ifs with heq
  · exact iff_of_true (Nat.lt_succ_self _) heq
  · exact iff_of_false (lt_irrefl _) heq

/-- `commitBlock` stores or commits its own block, and only an exception on
the way to the store keeps it from that. -/
theorem count_commitBlock_iff {a b : Block} :
    c.handedBlocks.count a < (c.commitBlock throws b).handedBlocks.count a ↔
      a = b ∧ (b.transactionsSize = 0 ∨ throws ≠ some .encodeTransaction) := by
  unfold commitBlock
  split_ifs with hempty hcommit hencode
  · rw [handedBlocks_commitBlockState, count_cons_lt_iff]
    simp [hempty]
  · rw [handedBlocks_storeTransactions, handedBlocks_commitBlockState,
      Multiset.count_cons, Multiset.count_cons]
    by_cases heq : a = b
    · simp only [heq, if_true, hempty, true_or, and_true, iff_true]
      omega
    · simp [heq]
  · rw [handedBlocks_log rfl]
    simp [hempty, hencode]
  · rw [handedBlocks_storeTransactions, count_cons_lt_iff]
    simp [hencode]

theorem not_passes_of_quiet {b : Block} (hi : c.Quiet i) : ¬ Passes b i := by
  intro hpasses
  cases i with
  | asyncCheckBlockAnswer => exact hi
  | asyncStoreTransactionsAnswer => exact hi
  | _ => exact hpasses

theorem not_passes_of_checkFailed {a b : Block} {answer : Except Error Bool}
    (hanswer : answer ≠ .ok true) :
    ¬ Passes b (.asyncCheckBlockAnswer a answer throws) := by
  match answer with
  | .ok true => exact absurd rfl hanswer
  | .ok false => exact id
  | .error _ => exact id

/-- A step stores or commits a block if and only if a stage of the block ends
well. -/
theorem Step.handed_iff {b : Block} (h : Step c i d) :
    c.handedBlocks.count b < d.handedBlocks.count b ↔ Passes b i := by
  have hsame : d.handedBlocks = c.handedBlocks → ¬ Passes b i →
      (c.handedBlocks.count b < d.handedBlocks.count b ↔ Passes b i) := by
    intro heq hfails
    rw [heq]
    exact iff_of_false (lt_irrefl _) hfails
  cases h with
  | quiet hi => exact hsame rfl (not_passes_of_quiet hi)
  | task htry => exact hsame htry.handedBlocks_eq id
  | taskApply htry => exact hsame htry.handedBlocks_eq id
  | newBlock _ htry => exact hsame htry.handedBlocks_eq id
  | executed _ _ htry => exact hsame htry.handedBlocks_eq id
  | executeFailed => exact hsame rfl id
  | @checked a throws =>
      refine count_commitBlock_iff (a := b) (b := a) (c := c.receive
        (.asyncCheckBlock a) (.asyncCheckBlockAnswer a (.ok true))).trans
        ⟨?_, ?_⟩ <;>
      · rintro ⟨rfl, hthrows⟩
        exact ⟨rfl, hthrows⟩
  | checkFailed _ hanswer =>
      exact hsame rfl (not_passes_of_checkFailed hanswer)
  | @stored a =>
      rw [handedBlocks_commitBlockState]
      exact (count_cons_lt_iff (s := c.handedBlocks)).trans eq_comm
  | storeFailed => exact hsame rfl id
  | committed _ _ htry => exact hsame htry.handedBlocks_eq id
  | handlerThrew => exact hsame rfl id
  | commitFailed => exact hsame rfl id

/-- Only a block in a stage passes one. -/
theorem Step.inStage_of_passes {b : Block} (h : Step c i d)
    (hpasses : Passes b i) : c.InStage b := by
  cases h with
  | quiet hi => exact absurd hpasses (not_passes_of_quiet hi)
  | checked hchecking =>
      obtain ⟨rfl, -⟩ := hpasses
      exact .inl hchecking
  | checkFailed _ hanswer =>
      exact absurd hpasses (not_passes_of_checkFailed hanswer)
  | @stored a _ hstoring =>
      obtain rfl : a = b := hpasses
      exact .inr hstoring
  | _ => exact hpasses.elim

/-! ## The stages -/

theorem TryCommit.inStage {b : Block} (h : TryCommit throws c d)
    (hb : d.InStage b) : c.InStage b ∨ b.number = c.nextBlock := by
  rcases hb with hb | hb
  · rcases h.mem_pending hb with hb | ⟨a, -, hcb, hnumber⟩
    · exact .inl (.inl hb)
    · cases hcb
      exact .inr hnumber
  · rcases h.mem_pending hb with hb | ⟨a, -, hcb, -⟩
    · exact .inl (.inr hb)
    · cases hcb

theorem InStage.of_erase {b : Block} {cb : Callback} (h : d.InStage b)
    (hpending : d.pending = c.pending.erase cb) : c.InStage b := by
  unfold InStage at h
  rw [hpending] at h
  exact h.imp List.mem_of_mem_erase List.mem_of_mem_erase

/-- A block in a stage was in one before, or has the next height. -/
theorem Step.inStage {b : Block} (h : Step c i d) (hb : d.InStage b) :
    c.InStage b ∨ b.number = d.nextBlock := by
  cases h with
  | quiet => exact .inl hb
  | task htry =>
      rw [htry.toHeights_eq]
      exact htry.inStage hb
  | @taskApply rand e a htry =>
      have hb : e.InStage b := by
        simpa [InStage, await, log] using hb
      change _ ∨ b.number = e.nextBlock
      rw [htry.toHeights_eq]
      exact htry.inStage hb
  | newBlock _ htry =>
      rw [htry.toHeights_eq]
      exact htry.inStage hb
  | executed _ _ htry =>
      rw [htry.toHeights_eq]
      exact (htry.inStage hb).imp_left fun hb => hb.of_erase rfl
  | executeFailed => exact .inl (hb.of_erase rfl)
  | @checked a throws hchecking =>
      rcases hb with hb | hb <;>
        rcases mem_pending_of_commitBlock hb with hcb | hcb | hcb
      · cases hcb
      · cases hcb
      · exact .inl (.inl (List.mem_of_mem_erase hcb))
      · cases hcb
        exact .inl (.inl hchecking)
      · cases hcb
      · exact .inl (.inr (List.mem_of_mem_erase hcb))
  | checkFailed => exact .inl (hb.of_erase rfl)
  | stored =>
      rcases hb with hb | hb <;> rcases mem_pending_of_call hb with hcb | hcb
      · cases hcb
      · exact .inl (.inl (List.mem_of_mem_erase hcb))
      · cases hcb
      · exact .inl (.inr (List.mem_of_mem_erase hcb))
  | storeFailed => exact .inl (hb.of_erase rfl)
  | committed _ _ htry =>
      rw [htry.toHeights_eq]
      exact (htry.inStage hb).imp_left fun hb => hb.of_erase rfl
  | handlerThrew => exact .inl (hb.of_erase rfl)
  | commitFailed => exact .inl (hb.of_erase rfl)

/-! ## The chain -/

theorem blockNumber_reset_ne_iff {l : LedgerConfig} {h : Heights} :
    (h.reset l).blockNumber ≠ h.blockNumber ↔
      l.blockNumber ≠ h.blockNumber ∧
        (h.blockNumber < l.blockNumber ∨ h.blockNumber ≤ 0) := by
  unfold Heights.reset
  split_ifs with hignored
  · constructor
    · exact fun hne => absurd rfl hne
    · rintro ⟨-, hlt | hle⟩ <;> omega
  · constructor
    · intro hne
      exact ⟨hne, by omega⟩
    · exact fun hmoves => hmoves.1

/-- The chain moves in just the steps that are said to move it. -/
theorem Step.moves_iff (h : Step c i d) :
    d.blockNumber ≠ c.blockNumber ↔ c.Moves i := by
  have hquiet : d.blockNumber = c.blockNumber → ¬ c.Moves i →
      (d.blockNumber ≠ c.blockNumber ↔ c.Moves i) :=
    fun hsame hstill => iff_of_false (not_not_intro hsame) hstill
  cases h with
  | quiet hi =>
      apply hquiet rfl
      cases i with
      | notifyNewBlock l => exact not_lt.mpr hi
      | commitBlockAnswer => exact hi.elim
      | _ => exact id
  | task htry => exact hquiet (by rw [htry.toHeights_eq]) id
  | @taskApply rand e a htry =>
      refine hquiet ?_ id
      change e.blockNumber = c.blockNumber
      rw [htry.toHeights_eq]
  | @newBlock l _ hlt htry =>
      rw [htry.toHeights_eq]
      refine blockNumber_reset_ne_iff.trans ?_
      exact iff_of_true ⟨hlt.ne', .inl hlt⟩ hlt
  | executed _ _ htry => exact hquiet (by rw [htry.toHeights_eq]; rfl) id
  | executeFailed => exact hquiet rfl id
  | checked => exact hquiet (by rw [commitBlock_toHeights]; rfl) id
  | checkFailed => exact hquiet rfl id
  | stored =>
      exact hquiet (by rw [commitBlockState, call_toHeights]; rfl) id
  | storeFailed => exact hquiet rfl id
  | committed _ hthrows htry =>
      rw [htry.toHeights_eq]
      refine blockNumber_reset_ne_iff.trans ?_
      exact (and_iff_right hthrows).symm
  | handlerThrew => exact hquiet rfl fun hmoves => hmoves.1 rfl
  | commitFailed => exact hquiet rfl id

/-- A step that overtakes no block keeps the blocks that pass later fresh. -/
theorem Step.freshAhead {later : List Input} (h : Step c i d)
    (hordered : c.Ordered) (hfresh : c.FreshAhead (i :: later))
    (hovertakes : c.OvertakesNone i later) : d.FreshAhead later := by
  intro b hb hpasses
  have hnext := (h.ordered hordered).nextBlock_eq
  obtain ⟨j, hj, hpass⟩ := hpasses
  rcases h.inStage hb with hwaiting | hnumber
  · have hstill : ¬ c.Moves i :=
      fun hi => hovertakes hi b hwaiting j hj hpass
    have hsame : d.blockNumber = c.blockNumber := by
      by_contra hne
      exact hstill (h.moves_iff.mp hne)
    rw [hsame]
    exact hfresh b hwaiting ⟨j, List.mem_cons_of_mem i hj, hpass⟩
  · rw [hnumber, hnext]

/-- A block that is in a stage while the chain moves is left behind. -/
theorem Step.number_le_of_moves {b : Block} (h : Step c i d)
    (hi : NonNegative i) (hwindow : c.InWindow) (hmoves : c.Moves i)
    (hb : c.InStage b) : b.number ≤ d.blockNumber := by
  have hne := h.moves_iff.mpr hmoves
  have hmono := h.blockNumber_le hi hwindow.nonneg
  have hle := hwindow.committing_le b (hb.imp id .inl)
  omega

end CommitSide

namespace BlockSync

open CommitSide

variable {P : BlockQueue} {createBlock : BlockFactory}

/-- The blocks the chain has left behind do not pass a stage in a run that
makes no stale call. -/
theorem not_passes_of_number_le {s t : BlockSync P} {is : List Input}
    {b : Block} (his : ∀ i ∈ is, NonNegative i)
    (hs : s.CommitInvariant InWindow) (hb : b.number ≤ s.config.blockNumber)
    (hrun : (nodeSystem P createBlock).exec s is = some t)
    (hcalls : (nodeSystem P createBlock).AllTransitions
      (fun s _ t => NoStaleCall s.commitSide t.commitSide) s is) :
    ∀ i ∈ is, ¬ Passes b i := by
  refine AllTransitions.forall_mem (A := NonNegative)
    (I := fun s => s.CommitInvariant InWindow ∧
      b.number ≤ s.config.blockNumber) ?_ ?_ his ⟨hs, hb⟩ hrun hcalls
  · intro s i t hi hinv ht
    have hside := step_commitSide hinv.1.1 ht
    have hmono : s.config.blockNumber ≤ t.config.blockNumber :=
      hside.blockNumber_le hi hinv.1.2.nonneg
    exact ⟨step_inWindow hi hinv.1 ht, hinv.2.trans hmono⟩
  · intro s i t hinv ht hfresh hpasses
    have hnumber := hfresh b
      ((step_commitSide hinv.1.1 ht).handed_iff.mpr hpasses)
    have hle := hinv.2
    have hchain : s.commitSide.blockNumber = s.config.blockNumber := rfl
    omega

/-- A run from `init` makes no stale call if the chain never overtakes a block
that passes its stage later.  If the ledger configs carry heights, a run that
makes no stale call is such a run. -/
theorem run_noStaleCall_iff {s : BlockSync P} (hs : IsInit P s)
    (is : List Input) :
    ((nodeSystem P createBlock).AllAhead
        (fun s => s.commitSide.OvertakesNone) s is →
      (nodeSystem P createBlock).AllTransitions
        (fun s _ t => NoStaleCall s.commitSide t.commitSide) s is) ∧
    (0 ≤ s.config.blockNumber → (∀ i ∈ is, NonNegative i) →
      (∃ t, (nodeSystem P createBlock).exec s is = some t) →
      (nodeSystem P createBlock).AllTransitions
        (fun s _ t => NoStaleCall s.commitSide t.commitSide) s is →
      (nodeSystem P createBlock).AllAhead
        (fun s => s.commitSide.OvertakesNone) s is) := by
  constructor
  · refine AllAhead.allTransitions (I := fun s later =>
      s.commitSide.Ordered ∧ s.commitSide.FreshAhead later) ?_ ⟨hs.ordered, ?_⟩
    · intro s i t later hinv hovertakes ht
      have hside := step_commitSide hinv.1 ht
      refine ⟨fun b hb => ?_, hside.ordered hinv.1,
        hside.freshAhead hinv.1 hinv.2 hovertakes⟩
      have hpasses := hside.handed_iff.mp hb
      exact hinv.2 b (hside.inStage_of_passes hpasses)
        ⟨i, List.mem_cons_self, hpasses⟩
    · intro b hb
      rw [hs.commitSide_eq] at hb
      rcases hb with hb | hb <;> cases hb
  · rintro hnumber his ⟨t, hrun⟩
    refine AllTransitions.allAhead (A := NonNegative)
      (I := fun s => s.CommitInvariant InWindow) ?_ ?_ his
      ⟨hs.ordered, hs.inWindow hnumber⟩ hrun
    · exact fun s i t hi hinv ht => step_inWindow hi hinv ht
    · intro s i t later u hinv hlater ht hrest hcalls hmoves b hb
      have hi := hlater i List.mem_cons_self
      have hbehind : b.number ≤ t.config.blockNumber :=
        (step_commitSide hinv.1 ht).number_le_of_moves hi hinv.2 hmoves hb
      exact not_passes_of_number_le
        (fun j hj => hlater j (List.mem_cons_of_mem i hj))
        (step_inWindow hi hinv ht) hbehind hrest hcalls

/-- Block 1 is being checked when consensus commits it.  The check succeeds,
and the block is stored although the chain has its height. -/
theorem notifiedBlock_stored :
    ∃ s t, Sample.system.Reachable s ∧
      Sample.system.step s (Sample.checked (Sample.block 0 1 1) true) =
        some t ∧
      s.config.blockNumber = 1 ∧
      ¬ NoStaleCall s.commitSide t.commitSide := by
  obtain ⟨s, t, hrun, hstep, hnumber, hbefore, hafter⟩ :
      ∃ s t, Sample.system.exec Sample.node
        [Sample.status Sample.peer 2, Sample.blocks [[1, 1]], Sample.task,
          Sample.executed (Sample.block 0 1 1),
          .notifyNewBlock (Sample.ledgerConfig 1)] = some s ∧
        Sample.system.step s
          (Sample.checked (Sample.block 0 1 1) true) = some t ∧
        s.config.blockNumber = 1 ∧
        s.commitSide.handedBlocks.count (Sample.block 0 1 1) = 0 ∧
        t.commitSide.handedBlocks.count (Sample.block 0 1 1) = 1 :=
    ⟨_, _, rfl, rfl, rfl, rfl, rfl⟩
  refine ⟨s, t, .of_exec Sample.isInit_node hrun, hstep, hnumber, ?_⟩
  intro hfresh
  have hnext := hfresh (Sample.block 0 1 1) (by omega)
  have hchain : s.commitSide.blockNumber = 1 := hnumber
  rw [hchain] at hnext
  exact absurd hnext (by decide)

/-- Block 1 is committed, then consensus commits block 2 while it is being
checked, and the check answers false. -/
def overtakenRun : List Input :=
  [Sample.status Sample.peer 3, Sample.blocks [[1, 1], [2, 1]], Sample.task,
    Sample.executed (Sample.block 0 1 1),
    Sample.checked (Sample.block 0 1 1) true,
    .asyncStoreTransactionsAnswer (Sample.block 0 1 1) none none,
    .commitBlockAnswer (Sample.block 0 1 1) (.ok (Sample.ledgerConfig 1)) none,
    Sample.task, Sample.executed (Sample.block 1 2 1),
    .notifyNewBlock (Sample.ledgerConfig 2),
    Sample.checked (Sample.block 1 2 1) false]

theorem run_noStaleCall_sample :
    (Sample.system.AllTransitions
      (fun s _ t => NoStaleCall s.commitSide t.commitSide) Sample.node
        overtakenRun) ∧
    (Sample.system.AllAhead (fun s => s.commitSide.OvertakesNone) Sample.node
      overtakenRun) ∧
    ∃ t, Sample.system.exec Sample.node overtakenRun = some t ∧
      t.config.blockNumber = 2 := by
  obtain ⟨hsufficient, hnecessary⟩ :=
    @run_noStaleCall_iff _ Sample.createBlock _ Sample.isInit_node overtakenRun
  have hcalls := hsufficient (by decide +kernel)
  exact ⟨hcalls, hnecessary (by decide) (by decide) ⟨_, rfl⟩ hcalls, _, rfl,
    rfl⟩

end BlockSync

end BcosSync
