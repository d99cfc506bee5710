import BcosSync.Commit.Identity
import Mathlib.Tactic.Ring

/-!
# How often a block is committed

What a commit pipeline owes is a matter of counting calls, answers and
outstanding callbacks of one block.  An `Account` counts some events up and
others down and charges for callbacks that are still held; an account is fair
if no transition lowers its balance, which is a condition on a few events at a
time.  Four accounts settle how often a block is committed: a call of the
check is answered once at most, a check that succeeded is stored once at most,
and every commit is paid for by a store that succeeded or, for an empty block,
by the check itself.
-/

namespace BcosSync

open BlockSync

/-! ## Accounts -/

structure Account where
  earns : Event → Bool
  spends : Event → Bool
  holds : Callback → Bool

namespace Account

variable (A : Account)

def value (e : Event) : ℤ :=
  (if A.earns e then 1 else 0) - (if A.spends e then 1 else 0)

def held (cb : Callback) : ℤ := if A.holds cb then 1 else 0

def balance (c : CommitSide) : ℤ :=
  c.trace.countP A.earns - c.trace.countP A.spends -
    c.pending.countP A.holds

/-- The conditions under which no transition lowers the balance. -/
structure Fair : Prop where
  exception : ∀ b site, A.value (.exception b site) = 0
  execute : ∀ b, A.held (.executeBlock b) ≤ A.value (.executeBlock b)
  executeAnswer : ∀ b a,
    0 ≤ A.value (.executeBlockAnswer b a) + A.held (.executeBlock b)
  check : ∀ b n,
    A.held (.asyncCheckBlock b) ≤ A.value (.asyncCheckBlock b n)
  checkFailed : ∀ b a, a ≠ .ok true →
    0 ≤ A.value (.asyncCheckBlockAnswer b a) + A.held (.asyncCheckBlock b)
  checked : ∀ b, b.transactionsSize ≠ 0 →
    A.held (.asyncStoreTransactions b) ≤
      A.value (.asyncCheckBlockAnswer b (.ok true)) +
        A.held (.asyncCheckBlock b)
  checkedEmpty : ∀ b, b.transactionsSize = 0 →
    A.held (.asyncStoreTransactions b) + A.held (.commitBlock b) ≤
      A.value (.asyncCheckBlockAnswer b (.ok true)) +
        A.held (.asyncCheckBlock b) + A.value (.commitBlock b)
  store : ∀ b txsData txsHashList,
    A.value (.asyncStoreTransactions b txsData txsHashList) = 0
  stored : ∀ b,
    A.held (.commitBlock b) ≤
      A.value (.asyncStoreTransactionsAnswer b none) +
        A.held (.asyncStoreTransactions b) + A.value (.commitBlock b)
  storeFailed : ∀ b e,
    0 ≤ A.value (.asyncStoreTransactionsAnswer b (some e)) +
      A.held (.asyncStoreTransactions b)
  committed : ∀ b l l',
    0 ≤ A.value (.commitBlockAnswer b (.ok l)) + A.held (.commitBlock b) +
      A.value (.newBlockHandler b l')
  commitFailed : ∀ b e,
    0 ≤ A.value (.commitBlockAnswer b (.error e)) + A.held (.commitBlock b)

variable {A} {c d : CommitSide} {i : Input} {throws : Option ThrowSite}

theorem held_nonneg (cb : Callback) : 0 ≤ A.held cb := by
  unfold held
  split_ifs <;> decide

theorem balance_log (e : Event) :
    A.balance (c.log e) = A.value e + A.balance c := by
  simp only [balance, CommitSide.log, value, List.countP_cons]
  push_cast
  ring

theorem balance_await (cb : Callback) :
    A.balance (c.await cb) = A.balance c - A.held cb := by
  simp only [balance, CommitSide.await, held, List.countP_cons]
  push_cast
  ring

theorem balance_receive {cb : Callback} (hcb : cb ∈ c.pending) (e : Event) :
    A.balance (c.receive cb e) = A.value e + A.held cb + A.balance c := by
  have hcount : c.pending.countP A.holds =
      (c.pending.erase cb).countP A.holds + if A.holds cb then 1 else 0 := by
    rw [(List.perm_cons_erase hcb).countP_eq, List.countP_cons]
  simp only [balance, CommitSide.receive, value, held, List.countP_cons,
    hcount]
  push_cast
  ring

namespace Fair

theorem call (hA : A.Fair) (throws : Option ThrowSite) (site : ThrowSite)
    (b : Block) (e : Event) (cb : Callback) :
    A.balance c + A.value e - A.held cb ≤
      A.balance (c.call throws site b e cb) := by
  have hheld := held_nonneg (A := A) cb
  unfold CommitSide.call
  split_ifs
  · rw [balance_log, balance_log, hA.exception]
    omega
  · rw [balance_await, balance_log]
    omega

theorem tryCommit (hA : A.Fair) (h : CommitSide.TryCommit throws c d) :
    A.balance c ≤ A.balance d := by
  cases h with
  | idle => exact le_rfl
  | @check b rest =>
      have hcheck := hA.check b c.nextBlock
      have hcall := hA.call (c := { c with commitQueue := rest }) throws
        .asyncCheckBlock b (.asyncCheckBlock b c.nextBlock)
        (.asyncCheckBlock b)
      have hsame : A.balance { c with commitQueue := rest } = A.balance c :=
        rfl
      omega

theorem commitBlock (hA : A.Fair) (b : Block) {answered : CommitSide}
    (h : A.balance answered =
      A.value (.asyncCheckBlockAnswer b (.ok true)) +
        A.held (.asyncCheckBlock b) + A.balance c) :
    A.balance c ≤ A.balance (answered.commitBlock throws b) := by
  have hstoreHeld := held_nonneg (A := A) (.asyncStoreTransactions b)
  have hstore : ∀ c : CommitSide,
      A.balance c - A.held (.asyncStoreTransactions b) ≤
        A.balance (c.storeTransactions throws b) := by
    intro c
    have hcall := hA.call (c := c) throws .asyncStoreTransactions b
      (.asyncStoreTransactions b
        (b.transactions.map Transaction.encodedData)
        (b.transactions.map Transaction.hash)) (.asyncStoreTransactions b)
    rw [hA.store] at hcall
    rw [CommitSide.storeTransactions]
    omega
  have hcommit := hA.call (c := answered) throws .commitBlock b
    (.commitBlock b) (.commitBlock b)
  unfold CommitSide.commitBlock
  split_ifs with hempty
  · have hempty := hA.checkedEmpty b hempty
    rw [CommitSide.commitBlockState]
    omega
  · have hempty := hA.checkedEmpty b hempty
    have hstore := hstore (answered.commitBlockState throws b)
    rw [CommitSide.commitBlockState] at hstore ⊢
    omega
  · have hchecked := hA.checked b hempty
    rw [balance_log, hA.exception]
    omega
  · have hchecked := hA.checked b hempty
    have hstore := hstore answered
    omega

/-- No transition lowers the balance of a fair account. -/
theorem step (hA : A.Fair) (h : CommitSide.Step c i d) :
    A.balance c ≤ A.balance d := by
  cases h with
  | quiet => exact le_rfl
  | task htry => exact hA.tryCommit htry
  | @taskApply rand e b htry =>
      have htry := hA.tryCommit htry
      have hexecute := hA.execute b
      rw [balance_await, balance_log]
      omega
  | @newBlock l e _ htry =>
      have hadvance : A.balance (c.advance l) = A.balance c := rfl
      exact hadvance ▸ hA.tryCommit htry
  | @executed b header throws e hexecuting _ htry =>
      refine le_trans ?_ (hA.tryCommit htry)
      have hanswer := balance_receive (A := A) hexecuting
        (.executeBlockAnswer b (.ok header))
      have hfair := hA.executeAnswer b (.ok header)
      exact le_of_le_of_eq (by omega) hanswer.symm
  | @executeFailed b a throws hexecuting =>
      have hanswer := balance_receive (A := A) hexecuting
        (.executeBlockAnswer b a)
      have hfair := hA.executeAnswer b a
      exact le_of_le_of_eq (by omega) hanswer.symm
  | @checked b throws hchecking =>
      exact hA.commitBlock b (balance_receive hchecking _)
  | @checkFailed b a throws hchecking ha =>
      have hanswer := balance_receive (A := A) hchecking
        (.asyncCheckBlockAnswer b a)
      have hfair := hA.checkFailed b a ha
      exact le_of_le_of_eq (by omega) hanswer.symm
  | @stored b throws hstoring =>
      have hanswer := balance_receive (A := A) hstoring
        (.asyncStoreTransactionsAnswer b none)
      have hfair := hA.stored b
      refine le_trans ?_ (hA.call _ _ _ _ _)
      rw [hanswer]
      omega
  | @storeFailed b e throws hstoring =>
      have hanswer := balance_receive (A := A) hstoring
        (.asyncStoreTransactionsAnswer b (some e))
      have hfair := hA.storeFailed b e
      exact le_of_le_of_eq (by omega) hanswer.symm
  | @committed b l throws e hcommitting _ htry =>
      refine le_trans ?_ (hA.tryCommit htry)
      have hfair := hA.committed b l (CommitSide.completedConfig b l)
      have hanswer := balance_receive (A := A) hcommitting
        (.commitBlockAnswer b (.ok l))
      have hlog := balance_log (A := A)
        (c := c.receive (.commitBlock b) (.commitBlockAnswer b (.ok l)))
        (.newBlockHandler b (CommitSide.completedConfig b l))
      exact le_of_le_of_eq (by omega) hlog.symm
  | @handlerThrew b l hcommitting =>
      have hfair := hA.committed b l (CommitSide.completedConfig b l)
      rw [balance_log, balance_log, balance_receive hcommitting,
        hA.exception]
      omega
  | @commitFailed b e throws hcommitting =>
      have hanswer := balance_receive (A := A) hcommitting
        (.commitBlockAnswer b (.error e))
      have hfair := hA.commitFailed b e
      exact le_of_le_of_eq (by omega) hanswer.symm

end Fair

/-- The balance of a fair account is never negative. -/
theorem balance_nonneg {P : BlockQueue} {createBlock : BlockFactory}
    {s : BlockSync P} (hA : A.Fair)
    (hs : (nodeSystem P createBlock).Reachable s) :
    0 ≤ A.balance s.commitSide := by
  have hinv := reachable_invariant (I := fun c => 0 ≤ A.balance c)
    (fun _ => by simp [balance])
    (fun _ _ _ _ _ hc hstep => le_trans hc (hA.step hstep)) hs
  exact hinv.2

theorem spent_le_earned {P : BlockQueue} {createBlock : BlockFactory}
    {s : BlockSync P} (hA : A.Fair)
    (hs : (nodeSystem P createBlock).Reachable s) :
    s.trace.countP A.spends ≤ s.trace.countP A.earns := by
  have hbalance : (0 : ℤ) ≤ s.trace.countP A.earns -
      s.trace.countP A.spends - s.pending.countP A.holds :=
    balance_nonneg hA hs
  omega

end Account

/-! ## The accounts of one block -/

def isCheckCall (b : Block) : Event → Bool
  | .asyncCheckBlock a _ => a = b
  | _ => false

def isCheckAnswer (b : Block) : Event → Bool
  | .asyncCheckBlockAnswer a _ => a = b
  | _ => false

def isStoreAnswer (b : Block) : Event → Bool
  | .asyncStoreTransactionsAnswer a _ => a = b
  | _ => false

def isNewBlockHandler (b : Block) : Event → Bool
  | .newBlockHandler a _ => a = b
  | _ => false

/-- The events after which the block is committed: a store that succeeded and,
if the block is empty, a check that succeeded. -/
def opensCommit (b : Block) : Event → Bool
  | .asyncStoreTransactionsAnswer a error => a = b ∧ error = none
  | .asyncCheckBlockAnswer a answer =>
      a = b ∧ answer = .ok true ∧ a.transactionsSize = 0
  | _ => false

namespace Account

/-- Calls of the check pay for its answers. -/
def check (b : Block) : Account where
  earns := isCheckCall b
  spends := isCheckAnswer b
  holds cb := cb == .asyncCheckBlock b

/-- A check that succeeded pays for the answer of the store. -/
def store (b : Block) : Account where
  earns e := e == .asyncCheckBlockAnswer b (.ok true)
  spends := isStoreAnswer b
  holds cb := cb == .asyncStoreTransactions b

/-- Calls of `commitBlock` pay for those of the new-block handler. -/
def handler (b : Block) : Account where
  earns e := e == .commitBlock b
  spends := isNewBlockHandler b
  holds cb := cb == .commitBlock b

/-- What opens a commit pays for the call of `commitBlock`. -/
def commit (b : Block) : Account where
  earns := opensCommit b
  spends e := e == .commitBlock b
  holds _ := false

/-- The call of `commitBlock` pays for what opened the commit. -/
def opened (b : Block) : Account where
  earns e := e == .commitBlock b
  spends := opensCommit b
  holds _ := false

theorem fair_check (b : Block) : (check b).Fair := by
  constructor <;> intros <;>
    simp [check, value, held, isCheckCall, isCheckAnswer]

theorem fair_store (b : Block) : (store b).Fair := by
  constructor <;> intros <;> simp [store, value, held, isStoreAnswer]
  · split_ifs <;> simp

theorem fair_handler (b : Block) : (handler b).Fair := by
  constructor <;> intros <;> simp [handler, value, held, isNewBlockHandler]
  · split_ifs <;> simp

theorem fair_commit (b : Block) : (commit b).Fair := by
  constructor <;> intros <;> simp_all [commit, value, held, opensCommit]

theorem fair_opened (b : Block) : (opened b).Fair := by
  constructor <;> intros <;> simp_all [opened, value, held, opensCommit]

end Account

/-! ## How often a block is committed -/

/-- One call of the check leads to one commit at most, to exactly one when the
check and the store succeed, and to none when the check fails or the store of
a block with transactions fails. -/
structure CommittedOnce (b : Block) (trace : List Event) : Prop where
  commit_le : trace.count (.commitBlock b) ≤ 1
  handler_le : trace.countP (isNewBlockHandler b) ≤ 1
  commit_eq_one : .asyncCheckBlockAnswer b (.ok true) ∈ trace →
    .asyncStoreTransactionsAnswer b none ∈ trace →
      trace.count (.commitBlock b) = 1
  commit_eq_zero_of_check : ∀ a, a ≠ .ok true →
    .asyncCheckBlockAnswer b a ∈ trace → trace.count (.commitBlock b) = 0
  commit_eq_zero_of_store : 0 < b.transactionsSize →
    ∀ e, .asyncStoreTransactionsAnswer b (some e) ∈ trace →
      trace.count (.commitBlock b) = 0

/-- What the accounts of a block say about a trace. -/
structure CommitCounts (b : Block) (trace : List Event) : Prop where
  check_le : trace.countP (isCheckCall b) ≤ 1
  checkAnswer_le :
    trace.countP (isCheckAnswer b) ≤ trace.countP (isCheckCall b)
  storeAnswer_le : trace.countP (isStoreAnswer b) ≤
    trace.count (.asyncCheckBlockAnswer b (.ok true))
  commit_eq : trace.count (.commitBlock b) = trace.countP (opensCommit b)
  handler_le :
    trace.countP (isNewBlockHandler b) ≤ trace.count (.commitBlock b)

theorem two_le_countP {α : Type} {p : α → Bool} {l : List α} {x y : α}
    (hxy : x ≠ y) (hx : x ∈ l) (hy : y ∈ l) (hpx : p x) (hpy : p y) :
    2 ≤ l.countP p := by
  have hsub : [x, y] ⊆ l.filter p := by
    intro z hz
    simp only [List.mem_cons, List.not_mem_nil, or_false] at hz
    rcases hz with rfl | rfl
    · exact List.mem_filter.mpr ⟨hx, hpx⟩
    · exact List.mem_filter.mpr ⟨hy, hpy⟩
  rw [List.countP_eq_length_filter]
  exact (List.subperm_of_subset (by simp [hxy]) hsub).length_le

namespace CommitCounts

variable {b : Block} {trace : List Event}

theorem checkAnswer_le_one (h : CommitCounts b trace) :
    trace.countP (isCheckAnswer b) ≤ 1 :=
  h.checkAnswer_le.trans h.check_le

theorem checked_le (h : CommitCounts b trace) :
    trace.count (.asyncCheckBlockAnswer b (.ok true)) ≤ 1 := by
  refine le_trans ?_ h.checkAnswer_le_one
  refine List.countP_mono_left fun e _ he => ?_
  rw [beq_iff_eq] at he
  simp [he, isCheckAnswer]

/-- Only a store that succeeded opens a commit, unless the block is empty and
its check succeeded. -/
theorem commit_le_storeAnswer (h : CommitCounts b trace)
    (hopen : b.transactionsSize = 0 →
      .asyncCheckBlockAnswer b (.ok true) ∉ trace) :
    trace.count (.commitBlock b) ≤ trace.countP (isStoreAnswer b) := by
  rw [h.commit_eq]
  refine List.countP_mono_left fun e he hopens => ?_
  cases e with
  | asyncStoreTransactionsAnswer a error =>
      simp only [opensCommit, decide_eq_true_eq] at hopens
      simp [isStoreAnswer, hopens.1]
  | asyncCheckBlockAnswer a answer =>
      simp only [opensCommit, decide_eq_true_eq] at hopens
      obtain ⟨rfl, rfl, hempty⟩ := hopens
      exact absurd he (hopen hempty)
  | _ => cases hopens

theorem commit_eq_zero_of_not_checked (h : CommitCounts b trace)
    (hchecked : .asyncCheckBlockAnswer b (.ok true) ∉ trace) :
    trace.count (.commitBlock b) = 0 := by
  have hle := h.commit_le_storeAnswer fun _ => hchecked
  have hstore := h.storeAnswer_le
  rw [List.count_eq_zero.mpr hchecked] at hstore
  omega

/-- The commit of a block is not opened twice. -/
theorem commit_le_one (h : CommitCounts b trace)
    (honce : ¬ (b.transactionsSize = 0 ∧
      .asyncCheckBlockAnswer b (.ok true) ∈ trace ∧
      .asyncStoreTransactionsAnswer b none ∈ trace)) :
    trace.count (.commitBlock b) ≤ 1 := by
  by_cases hstored : .asyncStoreTransactionsAnswer b none ∈ trace
  · have hle := h.commit_le_storeAnswer
      fun hempty hchecked => honce ⟨hempty, hchecked, hstored⟩
    exact hle.trans (h.storeAnswer_le.trans h.checked_le)
  · rw [h.commit_eq]
    refine le_trans ?_ h.checked_le
    refine List.countP_mono_left fun e he hopens => ?_
    cases e with
    | asyncStoreTransactionsAnswer a error =>
        simp only [opensCommit, decide_eq_true_eq] at hopens
        obtain ⟨rfl, rfl⟩ := hopens
        exact absurd he hstored
    | asyncCheckBlockAnswer a answer =>
        simp only [opensCommit, decide_eq_true_eq] at hopens
        obtain ⟨rfl, rfl, -⟩ := hopens
        simp
    | _ => cases hopens

theorem committedOnce (h : CommitCounts b trace)
    (honce : ¬ (b.transactionsSize = 0 ∧
      .asyncCheckBlockAnswer b (.ok true) ∈ trace ∧
      .asyncStoreTransactionsAnswer b none ∈ trace)) :
    CommittedOnce b trace where
  commit_le := h.commit_le_one honce
  handler_le := h.handler_le.trans (h.commit_le_one honce)
  commit_eq_one hchecked hstored := by
    have hle := h.commit_le_one honce
    have hopened : 0 < trace.countP (opensCommit b) :=
      List.countP_pos_iff.mpr ⟨_, hstored, by simp [opensCommit]⟩
    rw [← h.commit_eq] at hopened
    omega
  commit_eq_zero_of_check a ha hfailed := by
    refine h.commit_eq_zero_of_not_checked fun hchecked => ?_
    have htwo := two_le_countP (p := isCheckAnswer b)
      (by simpa using ha) hfailed hchecked (by simp [isCheckAnswer])
      (by simp [isCheckAnswer])
    have hone := h.checkAnswer_le_one
    omega
  commit_eq_zero_of_store hsize e hfailed := by
    rw [h.commit_eq, List.countP_eq_zero]
    intro e' he' hopens
    have hstored : .asyncStoreTransactionsAnswer b none ∈ trace := by
      cases e' with
      | asyncStoreTransactionsAnswer a error =>
          simp only [opensCommit, decide_eq_true_eq] at hopens
          obtain ⟨rfl, rfl⟩ := hopens
          exact he'
      | asyncCheckBlockAnswer a answer =>
          simp only [opensCommit, decide_eq_true_eq] at hopens
          obtain ⟨rfl, -, hempty⟩ := hopens
          omega
      | _ => cases hopens
    have htwo := two_le_countP (p := isStoreAnswer b) (by simp) hfailed
      hstored (by simp [isStoreAnswer]) (by simp [isStoreAnswer])
    have hone := h.storeAnswer_le.trans h.checked_le
    omega

/-- Exactly the empty blocks whose check and store both succeed are committed
more often than once. -/
theorem committedOnce_iff (h : CommitCounts b trace) :
    CommittedOnce b trace ↔
      ¬ (b.transactionsSize = 0 ∧
        .asyncCheckBlockAnswer b (.ok true) ∈ trace ∧
        .asyncStoreTransactionsAnswer b none ∈ trace) := by
  refine ⟨?_, h.committedOnce⟩
  rintro honce ⟨hempty, hchecked, hstored⟩
  have htwo := two_le_countP (p := opensCommit b) (by simp) hchecked hstored
    (by simp [opensCommit, hempty]) (by simp [opensCommit])
  have hone := honce.commit_le
  rw [h.commit_eq] at hone
  omega

end CommitCounts

namespace BlockSync

open CommitSide

variable {P : BlockQueue} {createBlock : BlockFactory} {s : BlockSync P}

theorem count_checkedBlocks (c : CommitSide) (b : Block) :
    c.checkedBlocks.count b = c.trace.countP (isCheckCall b) := by
  unfold checkedBlocks
  rw [Multiset.coe_count, List.count_filterMap]
  refine List.countP_congr fun e _ => ?_
  cases e <;> simp [checkedBlock, isCheckCall]

theorem reachable_commitCounts (hs : (nodeSystem P createBlock).Reachable s)
    (b : Block) : CommitCounts b s.trace where
  check_le := by
    have hone := (reachable_identified hs).2.count_checkedBlocks_le b
    rwa [count_checkedBlocks] at hone
  checkAnswer_le := Account.spent_le_earned (Account.fair_check b) hs
  storeAnswer_le := Account.spent_le_earned (Account.fair_store b) hs
  commit_eq := le_antisymm
    (Account.spent_le_earned (Account.fair_commit b) hs)
    (Account.spent_le_earned (Account.fair_opened b) hs)
  handler_le := Account.spent_le_earned (Account.fair_handler b) hs

/-- In a reachable node a block was sent to the check once at most, and it
was committed as one call of the check should commit it unless it is empty and
both its check and its store have succeeded. -/
theorem reachable_committedOnce_iff
    (hs : (nodeSystem P createBlock).Reachable s) (b : Block) :
    s.trace.countP (isCheckCall b) ≤ 1 ∧
      (CommittedOnce b s.trace ↔
        ¬ (b.transactionsSize = 0 ∧
          .asyncCheckBlockAnswer b (.ok true) ∈ s.trace ∧
          .asyncStoreTransactionsAnswer b none ∈ s.trace)) :=
  ⟨(reachable_commitCounts hs b).check_le,
    (reachable_commitCounts hs b).committedOnce_iff⟩

/-- The commit of an empty block: `commitBlock` goes on after it has committed
the state. -/
theorem emptyBlock_committed_twice :
    ∃ s, Sample.system.Reachable s ∧
      s.trace.countP (isCheckCall (Sample.block 0 1 0)) = 1 ∧
      s.trace.count (.commitBlock (Sample.block 0 1 0)) = 2 ∧
      ¬ CommittedOnce (Sample.block 0 1 0) s.trace := by
  obtain ⟨s, hrun, hcheck, hcommit⟩ : ∃ s, Sample.system.exec Sample.node
      [Sample.status Sample.peer 2, Sample.blocks [[1, 0]], Sample.task,
        Sample.executed (Sample.block 0 1 0),
        Sample.checked (Sample.block 0 1 0) true,
        .asyncStoreTransactionsAnswer (Sample.block 0 1 0) none none] =
          some s ∧
        s.trace.countP (isCheckCall (Sample.block 0 1 0)) = 1 ∧
        s.trace.count (.commitBlock (Sample.block 0 1 0)) = 2 :=
    ⟨_, rfl, rfl, rfl⟩
  refine ⟨s, .of_exec Sample.isInit_node hrun, hcheck, hcommit, ?_⟩
  intro honce
  have hle := honce.commit_le
  omega

theorem reachable_committedOnce_sample :
    ∃ s, Sample.system.Reachable s ∧
      CommittedOnce (Sample.block 0 1 1) s.trace ∧
      .commitBlock (Sample.block 0 1 1) ∈ s.trace := by
  obtain ⟨s, hrun, hcommit⟩ : ∃ s, Sample.system.exec Sample.node
      [Sample.status Sample.peer 2, Sample.blocks [[1, 1]], Sample.task,
        Sample.executed (Sample.block 0 1 1),
        Sample.checked (Sample.block 0 1 1) true,
        .asyncStoreTransactionsAnswer (Sample.block 0 1 1) none none] =
          some s ∧ s.trace.head? = some (.commitBlock (Sample.block 0 1 1)) :=
    ⟨_, rfl, rfl⟩
  have hs : Sample.system.Reachable s := .of_exec Sample.isInit_node hrun
  refine ⟨s, hs, ?_, List.mem_of_head? hcommit⟩
  exact (reachable_committedOnce_iff hs (Sample.block 0 1 1)).2.mpr
    fun h => absurd h.1 (by decide)

end BlockSync

end BcosSync
