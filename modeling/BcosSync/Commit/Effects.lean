import BcosSync.Commit.Model

/-!
# What one transition does to each component

The invariants of the commit side are about where a block is and how high it
is.  The lemmas below say, component by component, what a transition can have
done: which blocks are being executed, which wait in the commit queue, which
are being committed, and how the heights have moved.
-/

namespace BcosSync

open BlockSync

namespace CommitSide

variable {c d : CommitSide} {i : Input} {throws : Option ThrowSite}

/-! ## Outstanding callbacks -/

theorem mem_pending_of_call {site : ThrowSite} {b : Block} {e : Event}
    {cb cb' : Callback} (h : cb' ∈ (c.call throws site b e cb).pending) :
    cb' = cb ∨ cb' ∈ c.pending := by
  unfold call at h
  split_ifs at h
  · exact .inr h
  · exact List.mem_cons.mp h

theorem mem_pending_of_commitBlock {b : Block} {cb : Callback}
    (h : cb ∈ (c.commitBlock throws b).pending) :
    cb = .asyncStoreTransactions b ∨ cb = .commitBlock b ∨
      cb ∈ c.pending := by
  unfold commitBlock at h
  split_ifs at h
  · exact .inr (mem_pending_of_call h)
  · rcases mem_pending_of_call h with hstore | h
    · exact .inl hstore
    · exact .inr (mem_pending_of_call h)
  · exact .inr (.inr h)
  · rcases mem_pending_of_call h with hstore | h
    · exact .inl hstore
    · exact .inr (.inr h)

/-- A commit trigger awaits nothing new but the check of a waiting block of
the next height. -/
theorem TryCommit.mem_pending {cb : Callback} (h : TryCommit throws c d)
    (hcb : cb ∈ d.pending) :
    cb ∈ c.pending ∨
      ∃ b ∈ c.unexpired, cb = .asyncCheckBlock b ∧
        b.number = c.nextBlock := by
  cases h with
  | idle => exact .inl hcb
  | @check b rest hwaiting hnumber =>
      rcases mem_pending_of_call hcb with rfl | hcb
      · refine .inr ⟨b, ?_, rfl, hnumber⟩
        rw [hwaiting]
        exact Multiset.mem_cons_self b rest
      · exact .inl hcb

theorem mem_of_mem_unexpired {b : Block} (h : b ∈ c.unexpired) :
    b ∈ c.commitQueue ∧ c.blockNumber < b.number :=
  Multiset.mem_filter.mp h

/-! ## The trace -/

theorem trace_suffix_call {site : ThrowSite} {b : Block} {e : Event}
    {cb : Callback} : c.trace <:+ (c.call throws site b e cb).trace := by
  unfold call
  split_ifs
  · exact (List.suffix_cons _ _).trans (List.suffix_cons _ _)
  · exact List.suffix_cons _ _

theorem trace_suffix_commitBlock {b : Block} :
    c.trace <:+ (c.commitBlock throws b).trace := by
  unfold commitBlock
  split_ifs
  · exact trace_suffix_call
  · exact List.IsSuffix.trans trace_suffix_call trace_suffix_call
  · exact List.suffix_cons _ _
  · exact trace_suffix_call

theorem TryCommit.trace_suffix (h : TryCommit throws c d) :
    c.trace <:+ d.trace := by
  cases h with
  | idle => exact List.suffix_rfl
  | @check b rest => exact trace_suffix_call (c := { c with commitQueue := rest })

/-- A transition adds to the trace and takes nothing away. -/
theorem Step.trace_suffix (h : Step c i d) : c.trace <:+ d.trace := by
  have hanswer : ∀ {e : Event} {l : List Event},
      e :: c.trace <:+ l → c.trace <:+ l :=
    fun h => (List.suffix_cons _ _).trans h
  cases h with
  | quiet => exact List.suffix_rfl
  | task htry => exact htry.trace_suffix
  | taskApply htry => exact htry.trace_suffix.trans (List.suffix_cons _ _)
  | newBlock _ htry => exact htry.trace_suffix
  | executed _ _ htry => exact hanswer htry.trace_suffix
  | executeFailed => exact hanswer List.suffix_rfl
  | checked => exact hanswer (trace_suffix_commitBlock (c := c.receive _ _))
  | checkFailed => exact hanswer List.suffix_rfl
  | stored => exact hanswer (trace_suffix_call (c := c.receive _ _))
  | storeFailed => exact hanswer List.suffix_rfl
  | committed _ _ htry =>
      exact hanswer ((List.suffix_cons _ _).trans htry.trace_suffix)
  | handlerThrew =>
      exact hanswer ((List.suffix_cons _ _).trans (List.suffix_cons _ _))
  | commitFailed => exact hanswer List.suffix_rfl

/-! ## Executions that are started -/

theorem count_executeBlock_call {site : ThrowSite} {a b : Block} {e : Event}
    {cb : Callback} (he : e ≠ .executeBlock b) :
    (c.call throws site a e cb).trace.count (.executeBlock b) =
      c.trace.count (.executeBlock b) := by
  unfold call
  split_ifs <;> simp [log, await, he]

theorem count_executeBlock_commitBlock {a b : Block} :
    (c.commitBlock throws a).trace.count (.executeBlock b) =
      c.trace.count (.executeBlock b) := by
  have hcommit : ∀ c : CommitSide,
      (c.commitBlockState throws a).trace.count (.executeBlock b) =
        c.trace.count (.executeBlock b) :=
    fun _ => count_executeBlock_call (by simp)
  have hstore : ∀ c : CommitSide,
      (c.storeTransactions throws a).trace.count (.executeBlock b) =
        c.trace.count (.executeBlock b) :=
    fun _ => count_executeBlock_call (by simp)
  unfold commitBlock
  split_ifs
  · rw [hcommit]
  · rw [hstore, hcommit]
  · simp [log]
  · rw [hstore]

theorem TryCommit.count_executeBlock {b : Block} (h : TryCommit throws c d) :
    d.trace.count (.executeBlock b) = c.trace.count (.executeBlock b) := by
  cases h with
  | idle => rfl
  | @check a rest =>
      exact count_executeBlock_call (c := { c with commitQueue := rest })
        (by simp)

/-- Inputs other than the download task start no execution. -/
theorem Step.count_executeBlock {b : Block} (h : Step c i d)
    (hi : ∀ rand, i ≠ .downloadTask rand) :
    d.trace.count (.executeBlock b) = c.trace.count (.executeBlock b) := by
  have hanswer : ∀ {e : Event} {l : List Event}, e ≠ .executeBlock b →
      (e :: l).count (.executeBlock b) = l.count (.executeBlock b) :=
    fun he => List.count_cons_of_ne he
  cases h with
  | quiet => rfl
  | task => exact absurd rfl (hi _)
  | taskApply => exact absurd rfl (hi _)
  | newBlock _ htry => exact htry.count_executeBlock
  | executed _ _ htry => exact htry.count_executeBlock.trans (hanswer (by simp))
  | executeFailed => exact hanswer (by simp)
  | checked => exact count_executeBlock_commitBlock.trans (hanswer (by simp))
  | checkFailed => exact hanswer (by simp)
  | stored =>
      exact (count_executeBlock_call (by simp)).trans (hanswer (by simp))
  | storeFailed => exact hanswer (by simp)
  | committed _ _ htry =>
      exact htry.count_executeBlock.trans
        ((hanswer (by simp)).trans (hanswer (by simp)))
  | handlerThrew =>
      exact (hanswer (by simp)).trans
        ((hanswer (by simp)).trans (hanswer (by simp)))
  | commitFailed => exact hanswer (by simp)

/-! ## Blocks being executed -/

theorem TryCommit.executing {b : Block} (h : TryCommit throws c d)
    (hb : d.Executing b) : c.Executing b := by
  rcases h.mem_pending hb with hb | ⟨_, -, hcb, -⟩
  · exact hb
  · cases hcb

theorem executing_of_commitBlock {a b : Block}
    (h : (c.commitBlock throws a).Executing b) : c.Executing b := by
  rcases mem_pending_of_commitBlock h with hcb | hcb | hcb
  · cases hcb
  · cases hcb
  · exact hcb

/-- Only the download task starts an execution. -/
theorem Step.executing {b : Block} (h : Step c i d) (hb : d.Executing b) :
    c.Executing b ∨ ∃ rand, i = .downloadTask rand ∧ c.Expects b := by
  cases h with
  | quiet => exact .inl hb
  | task htry => exact .inl (htry.executing hb)
  | @taskApply rand e a htry hexpects =>
      rcases List.mem_cons.mp hb with hcb | hb
      · cases hcb
        exact .inr ⟨rand, rfl, hexpects⟩
      · exact .inl (htry.executing hb)
  | newBlock _ htry => exact .inl (htry.executing hb)
  | executed _ _ htry =>
      exact .inl (List.mem_of_mem_erase (htry.executing hb))
  | executeFailed => exact .inl (List.mem_of_mem_erase hb)
  | checked =>
      exact .inl (List.mem_of_mem_erase (executing_of_commitBlock hb))
  | checkFailed => exact .inl (List.mem_of_mem_erase hb)
  | stored =>
      rcases mem_pending_of_call hb with hcb | hb
      · cases hcb
      · exact .inl (List.mem_of_mem_erase hb)
  | storeFailed => exact .inl (List.mem_of_mem_erase hb)
  | committed _ _ htry =>
      exact .inl (List.mem_of_mem_erase (htry.executing hb))
  | handlerThrew => exact .inl (List.mem_of_mem_erase hb)
  | commitFailed => exact .inl (List.mem_of_mem_erase hb)

/-! ## Blocks being committed -/

theorem Committing.mono {b : Block} (h : d.Committing b)
    (hpending : ∀ cb ∈ d.pending, cb ∈ c.pending) : c.Committing b :=
  h.imp (hpending _) (.imp (hpending _) (hpending _))

/-- Erasing a callback begins no commit. -/
theorem Committing.of_erase {b : Block} {cb : Callback}
    (h : d.Committing b) (hpending : d.pending = c.pending.erase cb) :
    c.Committing b := by
  refine h.mono fun _ hcb => List.mem_of_mem_erase (b := cb) ?_
  exact hpending ▸ hcb

theorem TryCommit.committing {b : Block} (h : TryCommit throws c d)
    (hb : d.Committing b) :
    c.Committing b ∨ b ∈ c.unexpired ∧ b.number = c.nextBlock := by
  rcases hb with hb | hb | hb
  · rcases h.mem_pending hb with hb | ⟨a, ha, hcb, hnumber⟩
    · exact .inl (.inl hb)
    · cases hcb
      exact .inr ⟨ha, hnumber⟩
  · rcases h.mem_pending hb with hb | ⟨a, -, hcb, -⟩
    · exact .inl (.inr (.inl hb))
    · cases hcb
  · rcases h.mem_pending hb with hb | ⟨a, -, hcb, -⟩
    · exact .inl (.inr (.inr hb))
    · cases hcb

theorem committing_of_commitBlock {a b : Block}
    (h : (c.commitBlock throws a).Committing b) : b = a ∨ c.Committing b := by
  rcases h with h | h | h <;>
    rcases mem_pending_of_commitBlock h with hcb | hcb | hcb
  · cases hcb
  · cases hcb
  · exact .inr (.inl hcb)
  · cases hcb
    exact .inl rfl
  · cases hcb
  · exact .inr (.inr (.inl hcb))
  · cases hcb
  · cases hcb
    exact .inl rfl
  · exact .inr (.inr (.inr hcb))

/-- A block that is being committed was so before, or it has the next height
and has just left the commit queue or its execution. -/
theorem Step.committing {b : Block} (h : Step c i d) (hb : d.Committing b) :
    c.Committing b ∨
      b.number = d.nextBlock ∧ (b ∈ c.commitQueue ∨ c.Executing b) := by
  cases h with
  | quiet => exact .inl hb
  | task htry =>
      rcases htry.committing hb with hb | ⟨hmem, hnumber⟩
      · exact .inl hb
      · rw [htry.toHeights_eq]
        exact .inr ⟨hnumber, .inl (mem_of_mem_unexpired hmem).1⟩
  | @taskApply rand e a htry =>
      have hb : e.Committing b := by
        simpa [CommitSide.Committing, await, log] using hb
      rcases htry.committing hb with hb | ⟨hmem, hnumber⟩
      · exact .inl hb
      · rw [← htry.toHeights_eq] at hnumber
        exact .inr ⟨hnumber, .inl (mem_of_mem_unexpired hmem).1⟩
  | newBlock _ htry =>
      rcases htry.committing hb with hb | ⟨hmem, hnumber⟩
      · exact .inl hb
      · have hwaiting := (mem_of_mem_unexpired hmem).1
        rw [htry.toHeights_eq]
        exact .inr ⟨hnumber, .inl (mem_of_mem_unexpired hwaiting).1⟩
  | executed hexecuting _ htry =>
      rcases htry.committing hb with hb | ⟨hmem, hnumber⟩
      · exact .inl (hb.of_erase rfl)
      · have hwaiting := (mem_of_mem_unexpired hmem).1
        rw [htry.toHeights_eq]
        rcases Multiset.mem_cons.mp hwaiting with rfl | hwaiting
        · exact .inr ⟨hnumber, .inr hexecuting⟩
        · exact .inr ⟨hnumber, .inl hwaiting⟩
  | executeFailed => exact .inl (hb.of_erase rfl)
  | checked hchecking =>
      rcases committing_of_commitBlock hb with rfl | hb
      · exact .inl (.inl hchecking)
      · exact .inl (hb.of_erase rfl)
  | checkFailed => exact .inl (hb.of_erase rfl)
  | @stored a throws hstoring =>
      have hcases : b = a ∨ c.Committing b := by
        rcases hb with hb | hb | hb <;>
          rcases mem_pending_of_call hb with hcb | hb
        · cases hcb
        · exact .inr (.inl (List.mem_of_mem_erase hb))
        · cases hcb
        · exact .inr (.inr (.inl (List.mem_of_mem_erase hb)))
        · cases hcb
          exact .inl rfl
        · exact .inr (.inr (.inr (List.mem_of_mem_erase hb)))
      rcases hcases with rfl | hb
      · exact .inl (.inr (.inl hstoring))
      · exact .inl hb
  | storeFailed => exact .inl (hb.of_erase rfl)
  | committed _ _ htry =>
      rcases htry.committing hb with hb | ⟨hmem, hnumber⟩
      · exact .inl (hb.of_erase rfl)
      · have hwaiting := (mem_of_mem_unexpired hmem).1
        rw [htry.toHeights_eq]
        exact .inr ⟨hnumber, .inl (mem_of_mem_unexpired hwaiting).1⟩
  | handlerThrew => exact .inl (hb.of_erase rfl)
  | commitFailed => exact .inl (hb.of_erase rfl)

/-! ## What an input carries -/

/-- The place, if any, at which an exception starts during the input. -/
def throwSite : Input → Option ThrowSite
  | .executeBlockAnswer _ _ throws => throws
  | .asyncCheckBlockAnswer _ _ throws => throws
  | .asyncStoreTransactionsAnswer _ _ throws => throws
  | .commitBlockAnswer _ _ throws => throws
  | _ => none

/-- The commit side at which the input triggers `tryToCommitBlockToLedger`,
for inputs that trigger it. -/
def trigger (c : CommitSide) : Input → Option CommitSide
  | .downloadTask _ => some c
  | .notifyNewBlock l =>
      if c.blockNumber < l.blockNumber then some (c.advance l) else none
  | .executeBlockAnswer b (.ok header) _ =>
      if b.hash = header.hash then
        some (((c.receive (.executeBlock b)
          (.executeBlockAnswer b (.ok header))).setExecutedBlock
            b.number).enqueue b)
      else none
  | .commitBlockAnswer b (.ok l) throws =>
      if throws = some .newBlockHandler then none
      else
        some (((c.receive (.commitBlock b) (.commitBlockAnswer b (.ok l))).log
          (.newBlockHandler b (completedConfig b l))).advance
            (completedConfig b l))
  | _ => none

/-- The height of the ledger config an input carries, if it carries one. -/
def ledgerNumber : Input → Option ℤ
  | .notifyNewBlock l => some l.blockNumber
  | .commitBlockAnswer _ (.ok l) _ => some l.blockNumber
  | _ => none

/-- The ledger config the input carries, if it carries one, has a
non-negative height. -/
def NonNegative (i : Input) : Prop :=
  ∀ n ∈ ledgerNumber i, 0 ≤ n

instance (i : Input) : Decidable (NonNegative i) :=
  inferInstanceAs (Decidable (∀ n ∈ ledgerNumber i, 0 ≤ n))

/-! ## Heights -/

/-- The heights to which the executed height may be set in state `c`: the
chain height, a block just executed, or the parent of a block whose commit has
failed. -/
inductive Resets (c : CommitSide) : ℤ → Prop
  | chain : Resets c c.blockNumber
  | executed {b : Block} : c.Executing b → Resets c b.number
  | failed {b : Block} : c.Committing b → Resets c (b.number - 1)

/-- How a transition moves the heights. -/
theorem Step.toHeights_cases (h : Step c i d) :
    d.toHeights = c.toHeights ∨
      (∃ n, Resets c n ∧ d.toHeights = c.toHeights.setExecutedBlock n) ∨
      ∃ l, ledgerNumber i = some l.blockNumber ∧
        d.toHeights = c.toHeights.reset l := by
  cases h with
  | quiet => exact .inl rfl
  | task htry => exact .inl htry.toHeights_eq
  | taskApply htry => exact .inl htry.toHeights_eq
  | @newBlock l _ _ htry => exact .inr (.inr ⟨l, rfl, htry.toHeights_eq⟩)
  | executed hexecuting _ htry =>
      exact .inr (.inl ⟨_, .executed hexecuting, htry.toHeights_eq⟩)
  | executeFailed => exact .inr (.inl ⟨_, .chain, rfl⟩)
  | checked => exact .inl (by rw [commitBlock_toHeights]; rfl)
  | checkFailed hchecking =>
      exact .inr (.inl ⟨_, .failed (.inl hchecking), rfl⟩)
  | stored => exact .inl (by rw [commitBlockState, call_toHeights]; rfl)
  | storeFailed hstoring =>
      exact .inr (.inl ⟨_, .failed (.inr (.inl hstoring)), rfl⟩)
  | @committed b l _ _ _ _ htry =>
      exact .inr (.inr ⟨completedConfig b l, rfl, htry.toHeights_eq⟩)
  | handlerThrew => exact .inl rfl
  | commitFailed hcommitting =>
      exact .inr (.inl ⟨_, .failed (.inr (.inr hcommitting)), rfl⟩)

end CommitSide

end BcosSync
