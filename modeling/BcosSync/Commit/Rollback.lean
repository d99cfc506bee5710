import BcosSync.Commit.Effects
import BcosSync.Commit.Refinement

/-!
# Rolling back the executed height

When a pipeline ends without a commit, its height should be fetched again: it
is expired, or it waits in the commit queue, or it is above the executed
height.  Every exit that answers an error sets the executed height back.  An
exception that a callback swallows does not, and the module says exactly when
that does no harm.
-/

namespace BcosSync

open BlockSync TransitionSystem

namespace CommitSide

variable {c d : CommitSide} {i : Input} {throws : Option ThrowSite}

/-- Height `n` is expired, waits in the commit queue, or will be fetched and
executed again. -/
def Recoverable (c : CommitSide) (n : ℤ) : Prop :=
  n ≤ c.blockNumber ∨ (∃ b ∈ c.commitQueue, b.number = n) ∨
    c.executedBlock ≤ n - 1

/-- The input tells the pipeline of `b` that it has failed. -/
def FailedAnswer (b : Block) : Input → Prop
  | .executeBlockAnswer a answer _ =>
      a = b ∧ ∀ header, answer = .ok header → a.hash ≠ header.hash
  | .asyncCheckBlockAnswer a answer _ => a = b ∧ answer ≠ .ok true
  | .asyncStoreTransactionsAnswer a error _ => a = b ∧ error ≠ none
  | .commitBlockAnswer a answer _ => a = b ∧ ∀ l, answer ≠ .ok l
  | _ => False

/-- An exception was swallowed in the pipeline of `b`. -/
def Raised (c d : CommitSide) (b : Block) : Prop :=
  ∃ site, c.trace.count (.exception b site) <
    d.trace.count (.exception b site)

/-- Every pipeline that ends in this step without a commit leaves its height
recoverable. -/
def RollsBack (c : CommitSide) (i : Input) (d : CommitSide) : Prop :=
  ∀ b, FailedAnswer b i ∨ Raised c d b → d.Recoverable b.number

/-- The block whose pipeline an exception ends before the callback has changed
anything. -/
def raises : Input → Option Block
  | .asyncCheckBlockAnswer b (.ok true) throws =>
      if throws = some .asyncStoreTransactions ∨
          throws = some (if b.transactionsSize = 0 then .commitBlock
            else .encodeTransaction) then some b
      else none
  | .asyncStoreTransactionsAnswer b none throws =>
      if throws = some .commitBlock then some b else none
  | .commitBlockAnswer b (.ok _) throws =>
      if throws = some .newBlockHandler then some b else none
  | _ => none

/-- The number of waiting blocks of the next height. -/
def waiting (c : CommitSide) : ℕ :=
  c.unexpired.countP fun b => b.number = c.nextBlock

/-- An exception, if one is thrown, does no harm: it hits a block whose height
is recoverable before the callback, or the call of the check throws at a state
where another block of the height waits or nothing above the chain counts as
executed. -/
def ThrowsSafely (c : CommitSide) (i : Input) : Prop :=
  (∀ b, raises i = some b → c.Recoverable b.number) ∧
  (throwSite i = some .asyncCheckBlock → ∀ c', c.trigger i = some c' →
    c'.waiting = 1 → c'.executedBlock ≤ c'.blockNumber)

/-! ## Answers of failure -/

/-- A failed commit sets the executed height back unless its height is
expired. -/
theorem recoverable_rollback (b : Block) :
    (c.setExecutedBlock (b.number - 1)).Recoverable b.number := by
  by_cases hexpired : b.number ≤ c.blockNumber
  · exact .inl hexpired
  · refine .inr (.inr ?_)
    have hexecuted : (c.setExecutedBlock (b.number - 1)).executedBlock =
        if c.blockNumber ≤ b.number - 1 then b.number - 1
        else c.executedBlock := rfl
    rw [hexecuted, if_pos (by omega)]

theorem recoverable_reset (n : ℤ) :
    (c.setExecutedBlock c.blockNumber).Recoverable n := by
  by_cases hexpired : n ≤ c.blockNumber
  · exact .inl hexpired
  · refine .inr (.inr ?_)
    have hexecuted : (c.setExecutedBlock c.blockNumber).executedBlock =
        if c.blockNumber ≤ c.blockNumber then c.blockNumber
        else c.executedBlock := rfl
    rw [hexecuted, if_pos le_rfl]
    omega

theorem Step.recoverable_of_failed {b : Block} (h : Step c i d)
    (hfailed : FailedAnswer b i) : d.Recoverable b.number := by
  cases h with
  | quiet hquiet =>
      cases i <;> first | exact hquiet.elim | exact hfailed.elim
  | task => exact hfailed.elim
  | taskApply => exact hfailed.elim
  | newBlock => exact hfailed.elim
  | executed _ hhash => exact absurd hhash (hfailed.2 _ rfl)
  | executeFailed => exact recoverable_reset (c := c.receive _ _) _
  | checked => exact absurd rfl hfailed.2
  | @checkFailed a =>
      obtain ⟨rfl, -⟩ := hfailed
      exact recoverable_rollback a
  | stored => exact absurd rfl hfailed.2
  | @storeFailed a =>
      obtain ⟨rfl, -⟩ := hfailed
      exact recoverable_rollback a
  | @committed a l => exact absurd rfl (hfailed.2 l)
  | @handlerThrew a l => exact absurd rfl (hfailed.2 l)
  | @commitFailed a =>
      obtain ⟨rfl, -⟩ := hfailed
      exact recoverable_rollback a

/-! ## Swallowed exceptions -/

theorem raised_iff {b : Block} (es : List Event)
    (h : d.trace = es ++ c.trace) :
    Raised c d b ↔ ∃ site, .exception b site ∈ es := by
  refine exists_congr fun site => ?_
  rw [h, List.count_append, ← List.count_pos_iff]
  omega

/-- The exceptions of a step are among the events it adds to the trace. -/
theorem Raised.exists_mem {b : Block} (h : Raised c d b) (es : List Event)
    (htrace : d.trace = es ++ c.trace) : ∃ site, .exception b site ∈ es :=
  (raised_iff es htrace).mp h

theorem not_raised_of_trace (es : List Event) (htrace : d.trace = es ++ c.trace)
    (hes : ∀ b site, .exception b site ∉ es) (b : Block) : ¬ Raised c d b := by
  intro hraised
  obtain ⟨site, hmem⟩ := hraised.exists_mem es htrace
  exact hes b site hmem

/-- What raises no exception may be left out in front. -/
theorem raised_iff_of_trace {e : CommitSide} {b : Block} (es : List Event)
    (htrace : e.trace = es ++ c.trace)
    (hes : ∀ b site, .exception b site ∉ es) :
    Raised c d b ↔ Raised e d b := by
  refine exists_congr fun site => ?_
  rw [htrace, List.count_append, List.count_eq_zero.mpr (hes b site),
    Nat.zero_add]

theorem recoverable_congr {n : ℤ} (hheights : d.toHeights = c.toHeights)
    (hqueue : d.commitQueue = c.commitQueue) :
    d.Recoverable n ↔ c.Recoverable n := by
  simp only [Recoverable, hheights, hqueue]

theorem waiting_of_unexpired {b : Block} {rest : Multiset Block}
    (h : c.unexpired = b ::ₘ rest) (hb : b.number = c.nextBlock) :
    c.waiting = rest.countP (fun b => b.number = c.nextBlock) + 1 := by
  rw [waiting, h]
  exact Multiset.countP_cons_of_pos (p := fun b => b.number = c.nextBlock)
    rest hb

/-- A call of the check that throws loses the popped block. -/
theorem TryCommit.rollsBack_iff (h : TryCommit throws c d)
    (hordered : c.Ordered) :
    (∀ b, Raised c d b → d.Recoverable b.number) ↔
      (throws = some .asyncCheckBlock → c.waiting = 1 →
        c.executedBlock ≤ c.blockNumber) := by
  cases h with
  | idle hno =>
      have hwaiting : c.waiting = 0 := Multiset.countP_eq_zero.mpr hno
      refine iff_of_true ?_ (by omega)
      intro b hraised
      obtain ⟨site, hmem⟩ := hraised.exists_mem [] rfl
      cases hmem
  | @check b rest hwaiting hnumber =>
      have hnext := hordered.nextBlock_eq
      have hcount := waiting_of_unexpired hwaiting hnumber
      unfold call
      split_ifs with hthrows
      · have hraised : ∀ a, Raised c
            ((({ c with commitQueue := rest } : CommitSide).log
              (.asyncCheckBlock b c.nextBlock)).log
                (.exception b .asyncCheckBlock)) a ↔ a = b := by
          intro a
          rw [raised_iff [.exception b .asyncCheckBlock,
            .asyncCheckBlock b c.nextBlock] rfl]
          simp
        simp only [hraised, forall_eq]
        constructor
        · rintro (hexpired | ⟨a, ha, hnum⟩ | hexecuted) _ hone
          · have hexpired : b.number ≤ c.blockNumber := hexpired
            omega
          · have hpos : 0 < rest.countP fun b => b.number = c.nextBlock :=
              Multiset.countP_pos.mpr ⟨a, ha, hnum.trans hnumber⟩
            omega
          · have hexecuted : c.executedBlock ≤ b.number - 1 := hexecuted
            omega
        · intro hsafe
          by_cases hone : c.waiting = 1
          · have hexecuted := hsafe hthrows hone
            refine .inr (.inr ?_)
            change c.executedBlock ≤ b.number - 1
            omega
          · have hpos : 0 < rest.countP fun b => b.number = c.nextBlock := by
              omega
            obtain ⟨a, ha, hnum⟩ := Multiset.countP_pos.mp hpos
            exact .inr (.inl ⟨a, ha, hnum.trans hnumber.symm⟩)
      · refine iff_of_true ?_ (fun h => absurd h hthrows)
        intro a hraised
        obtain ⟨site, hmem⟩ :=
          hraised.exists_mem [.asyncCheckBlock b c.nextBlock] rfl
        simp at hmem

theorem TryCommit.not_raised {b : Block} (h : TryCommit none c d) :
    ¬ Raised c d b := by
  cases h with
  | idle => exact not_raised_of_trace [] rfl (by simp) b
  | @check a rest =>
      exact not_raised_of_trace [.asyncCheckBlock a c.nextBlock] rfl
        (by simp) b

/-- An exception of the callback of the check ends the pipeline of its
block. -/
theorem raised_commitBlock {a b : Block} {e : CommitSide}
    (htrace : e.trace = .asyncCheckBlockAnswer b (.ok true) :: c.trace) :
    Raised c (e.commitBlock throws b) a ↔
      raises (.asyncCheckBlockAnswer b (.ok true) throws) = some a := by
  let stored : Event := .asyncStoreTransactions b
    (b.transactions.map Transaction.encodedData)
    (b.transactions.map Transaction.hash)
  rw [raised_iff_of_trace [.asyncCheckBlockAnswer b (.ok true)] htrace
    (by simp)]
  unfold commitBlock commitBlockState storeTransactions call
  split_ifs with hempty hcommit hstore hencode hstore
  · rw [raised_iff [.exception b .commitBlock, .commitBlock b] rfl]
    simp [raises, hempty, hcommit, eq_comm]
  · rw [raised_iff [.exception b .asyncStoreTransactions, stored,
      .commitBlock b] rfl]
    simp [raises, hstore, stored, eq_comm]
  · rw [raised_iff [stored, .commitBlock b] rfl]
    simp [raises, hempty, hcommit, hstore, stored]
  · rw [raised_iff [.exception b .encodeTransaction] rfl]
    simp [raises, hempty, hencode, eq_comm]
  · rw [raised_iff [.exception b .asyncStoreTransactions, stored] rfl]
    simp [raises, hstore, stored, eq_comm]
  · rw [raised_iff [stored] rfl]
    simp [raises, hempty, hencode, hstore, stored]

/-- An exception of the callback of the store ends the pipeline of its
block. -/
theorem raised_commitBlockState {a b : Block} {e : CommitSide}
    (htrace : e.trace = .asyncStoreTransactionsAnswer b none :: c.trace) :
    Raised c (e.commitBlockState throws b) a ↔
      raises (.asyncStoreTransactionsAnswer b none throws) = some a := by
  rw [raised_iff_of_trace [.asyncStoreTransactionsAnswer b none] htrace
    (by simp)]
  unfold commitBlockState call
  split_ifs with hthrows
  · rw [raised_iff [.exception b .commitBlock, .commitBlock b] rfl]
    simp [raises, hthrows, eq_comm]
  · rw [raised_iff [.commitBlock b] rfl]
    simp [raises, hthrows]

theorem commitBlock_recoverable (b : Block) (n : ℤ) :
    (c.commitBlock throws b).Recoverable n ↔ c.Recoverable n := by
  refine recoverable_congr (commitBlock_toHeights throws b c) ?_
  unfold commitBlock commitBlockState storeTransactions call
  split_ifs <;> rfl

theorem commitBlockState_recoverable (b : Block) (n : ℤ) :
    (c.commitBlockState throws b).Recoverable n ↔ c.Recoverable n := by
  unfold commitBlockState call
  split_ifs <;> exact recoverable_congr rfl rfl

/-- A step rolls back every pipeline it ends if and only if its exception, if
one is thrown, does no harm. -/
theorem Step.rollsBack_iff (h : Step c i d) (hordered : c.Ordered) :
    c.RollsBack i d ↔ c.ThrowsSafely i := by
  have hfailed : c.RollsBack i d ↔
      ∀ b, Raised c d b → d.Recoverable b.number :=
    ⟨fun hrolls b hb => hrolls b (.inr hb), fun hraised b hb =>
      hb.elim h.recoverable_of_failed (hraised b)⟩
  have hanswered : ∀ (e : CommitSide) (es : List Event),
      e.trace = es ++ c.trace → (∀ b site, .exception b site ∉ es) →
        ((∀ b, Raised c d b → d.Recoverable b.number) ↔
          ∀ b, Raised e d b → d.Recoverable b.number) :=
    fun e es htrace hes => forall_congr' fun b =>
      imp_congr_left (raised_iff_of_trace es htrace hes)
  have hrolled : (∀ b, ¬ Raised c d b) → c.ThrowsSafely i →
      ((∀ b, Raised c d b → d.Recoverable b.number) ↔ c.ThrowsSafely i) :=
    fun hno hsafe => iff_of_true (fun b hb => absurd hb (hno b)) hsafe
  rw [hfailed]
  cases h with
  | quiet hno =>
      refine hrolled (not_raised_of_trace [] rfl (by simp)) ?_
      cases i <;>
        first
        | exact hno.elim
        | exact ⟨by simp [raises], by simp [throwSite]⟩
  | task htry =>
      exact hrolled (fun _ => htry.not_raised)
        ⟨by simp [raises], by simp [throwSite]⟩
  | @taskApply rand e a htry =>
      refine hrolled (fun b hraised => ?_)
        ⟨by simp [raises], by simp [throwSite]⟩
      obtain ⟨site, hlt⟩ := hraised
      refine htry.not_raised ⟨site, lt_of_lt_of_eq hlt ?_⟩
      exact List.count_cons_of_ne (by simp)
  | newBlock _ htry =>
      exact hrolled (fun _ => htry.not_raised)
        ⟨by simp [raises], by simp [throwSite]⟩
  | @executed b header throws e hexecuting hhash htry =>
      refine (hanswered (((c.receive (.executeBlock b)
        (.executeBlockAnswer b (.ok header))).setExecutedBlock
          b.number).enqueue b) [.executeBlockAnswer b (.ok header)] rfl
        (by simp)).trans ?_
      rw [htry.rollsBack_iff (hordered.setExecutedBlock _)]
      simp [ThrowsSafely, raises, throwSite, trigger, hhash]
  | @executeFailed b a throws _ hhash =>
      refine hrolled (not_raised_of_trace [.executeBlockAnswer b a] rfl
        (by simp)) ?_
      refine ⟨by simp [raises], fun _ c' hc' => ?_⟩
      cases a with
      | error e => cases hc'
      | ok header => simp [trigger, hhash header rfl] at hc'
  | @checked b throws hchecking =>
      simp only [raised_commitBlock (e := c.receive (.asyncCheckBlock b)
        (.asyncCheckBlockAnswer b (.ok true))) rfl, commitBlock_recoverable]
      exact ⟨fun h => ⟨h, fun _ c' hc' => by cases hc'⟩, fun h => h.1⟩
  | @checkFailed b a throws _ ha =>
      refine hrolled (not_raised_of_trace [.asyncCheckBlockAnswer b a] rfl
        (by simp)) ?_
      refine ⟨fun b' hb' => ?_, fun _ c' hc' => by cases hc'⟩
      cases a with
      | error e => cases hb'
      | ok passed =>
          cases passed with
          | false => cases hb'
          | true => exact absurd rfl ha
  | @stored b throws hstoring =>
      simp only [raised_commitBlockState
        (e := c.receive (.asyncStoreTransactions b)
          (.asyncStoreTransactionsAnswer b none)) rfl,
        commitBlockState_recoverable]
      exact ⟨fun h => ⟨h, fun _ _ hc' => (by cases hc')⟩, fun h => h.1⟩
  | @storeFailed b e throws =>
      refine hrolled (not_raised_of_trace
        [.asyncStoreTransactionsAnswer b (some e)] rfl (by simp)) ?_
      exact ⟨fun _ hb' => (by cases hb'), fun _ _ hc' => (by cases hc')⟩
  | @committed b l throws e hcommitting hthrows htry =>
      refine (hanswered (((c.receive (.commitBlock b)
        (.commitBlockAnswer b (.ok l))).log
          (.newBlockHandler b (completedConfig b l))).advance
            (completedConfig b l)) [.newBlockHandler b (completedConfig b l),
        .commitBlockAnswer b (.ok l)] rfl (by simp)).trans ?_
      rw [htry.rollsBack_iff (hordered.reset _)]
      simp [ThrowsSafely, raises, throwSite, trigger, hthrows]
  | @handlerThrew b l hcommitting =>
      have hraised : ∀ a, Raised c
          (((c.receive (.commitBlock b) (.commitBlockAnswer b (.ok l))).log
            (.newBlockHandler b (completedConfig b l))).log
              (.exception b .newBlockHandler)) a ↔ a = b := by
        intro a
        rw [raised_iff [.exception b .newBlockHandler,
          .newBlockHandler b (completedConfig b l),
          .commitBlockAnswer b (.ok l)] rfl]
        simp
      simp only [hraised, forall_eq]
      refine (recoverable_congr (c := c) rfl rfl).trans ?_
      simp [ThrowsSafely, raises, throwSite]
  | @commitFailed b e throws =>
      refine hrolled (not_raised_of_trace [.commitBlockAnswer b (.error e)]
        rfl (by simp)) ?_
      exact ⟨fun _ hb' => (by cases hb'), fun _ _ hc' => (by cases hc')⟩

end CommitSide

namespace BlockSync

open CommitSide

variable {P : BlockQueue} {createBlock : BlockFactory}

/-- A run rolls back every pipeline that ends without a commit if and only if
its exceptions do no harm. -/
theorem run_rollsBack_iff {s : BlockSync P} (hs : IsInit P s)
    (is : List Input) :
    (nodeSystem P createBlock).AllTransitions
        (fun s i t => s.commitSide.RollsBack i t.commitSide) s is ↔
      (nodeSystem P createBlock).AllSteps
        (fun s i => s.commitSide.ThrowsSafely i) s is := by
  refine allTransitions_iff (A := fun _ => True)
    (I := fun s => s.commitSide.Ordered) ?_ ?_ (fun _ _ => trivial) hs.ordered
  · intro s i t _ hordered hstep
    exact (step_commitSide hordered hstep).ordered hordered
  · intro s i t _ hordered hstep
    exact (step_commitSide hordered hstep).rollsBack_iff hordered

/-- The encoding of a transaction throws after the check has succeeded: the
callback only logs, and height 1 counts as executed although nobody holds
it. -/
theorem swallowedException_not_rolledBack :
    ∃ s t, Sample.system.Reachable s ∧
      Sample.system.step s (.asyncCheckBlockAnswer (Sample.block 0 1 1)
        (.ok true) (some .encodeTransaction)) = some t ∧
      ¬ s.commitSide.RollsBack (.asyncCheckBlockAnswer (Sample.block 0 1 1)
        (.ok true) (some .encodeTransaction)) t.commitSide := by
  obtain ⟨s, t, hrun, hstep, hbefore, hafter, hnumber, hqueue, hexecuted⟩ :
      ∃ s t, Sample.system.exec Sample.node
        [Sample.status Sample.peer 2, Sample.blocks [[1, 1]], Sample.task,
          Sample.executed (Sample.block 0 1 1)] = some s ∧
        Sample.system.step s (.asyncCheckBlockAnswer (Sample.block 0 1 1)
          (.ok true) (some .encodeTransaction)) = some t ∧
        s.trace.count
          (.exception (Sample.block 0 1 1) .encodeTransaction) = 0 ∧
        t.trace.count
          (.exception (Sample.block 0 1 1) .encodeTransaction) = 1 ∧
        t.config.blockNumber = 0 ∧ t.commitQueue = 0 ∧
        t.config.executedBlock = 1 :=
    ⟨_, _, rfl, rfl, rfl, rfl, rfl, rfl, rfl⟩
  refine ⟨s, t, .of_exec Sample.isInit_node hrun, hstep, fun hrolls => ?_⟩
  have hraised : Raised s.commitSide t.commitSide (Sample.block 0 1 1) := by
    refine ⟨.encodeTransaction, ?_⟩
    change s.trace.count _ < t.trace.count _
    omega
  rcases hrolls _ (.inr hraised) with hexpired | ⟨b, hb, -⟩ | habove
  · have hexpired : (1 : ℤ) ≤ t.config.blockNumber := hexpired
    omega
  · have hb : b ∈ t.commitQueue := hb
    rw [hqueue] at hb
    exact absurd hb (Multiset.notMem_zero b)
  · have habove : t.config.executedBlock ≤ (1 : ℤ) - 1 := habove
    omega

theorem run_rollsBack_sample :
    Sample.system.AllTransitions
        (fun s i t => s.commitSide.RollsBack i t.commitSide) Sample.node
        [Sample.status Sample.peer 2, Sample.blocks [[1, 1]], Sample.task,
          Sample.executed (Sample.block 0 1 1),
          Sample.checked (Sample.block 0 1 1) false] ↔
      Sample.system.AllSteps (fun s i => s.commitSide.ThrowsSafely i)
        Sample.node
        [Sample.status Sample.peer 2, Sample.blocks [[1, 1]], Sample.task,
          Sample.executed (Sample.block 0 1 1),
          Sample.checked (Sample.block 0 1 1) false] :=
  run_rollsBack_iff Sample.isInit_node _

end BlockSync

end BcosSync
