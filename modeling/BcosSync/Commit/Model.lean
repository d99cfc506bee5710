import BcosSync.Node.BlockSync

/-!
# The commit side of a node, abstractly

What the execution and commit pipelines need of a node is six components: the
three heights, the contents of the commit queue, the outstanding callbacks and
the trace.  `CommitSide` has just these, with the commit queue as a multiset,
and `CommitSide.Step` says everything one input can do to them.  The model has
no buffers, no peers and no timer, and it leaves open which of several waiting
blocks of one height is handed on.
-/

namespace BcosSync

open BlockSync

/-! ## The three heights -/

structure Heights where
  blockNumber : ℤ
  nextBlock : ℤ
  executedBlock : ℤ

namespace Heights

def setExecutedBlock (n : ℤ) (h : Heights) : Heights :=
  { h with
    executedBlock := if h.blockNumber ≤ n then n else h.executedBlock }

def reset (l : LedgerConfig) (h : Heights) : Heights :=
  if l.blockNumber ≤ h.blockNumber ∧ 0 < h.blockNumber then h
  else
    { blockNumber := l.blockNumber
      nextBlock := l.blockNumber + 1
      executedBlock := max h.executedBlock l.blockNumber }

/-- The order of the three heights: the next block follows the chain, and the
executed height is not behind it. -/
structure Ordered (h : Heights) : Prop where
  nextBlock_eq : h.nextBlock = h.blockNumber + 1
  blockNumber_le : h.blockNumber ≤ h.executedBlock

theorem Ordered.setExecutedBlock {h : Heights} (hordered : h.Ordered)
    (n : ℤ) : (h.setExecutedBlock n).Ordered := by
  refine ⟨hordered.nextBlock_eq, ?_⟩
  have hle := hordered.blockNumber_le
  dsimp only [Heights.setExecutedBlock]
  split_ifs <;> omega

theorem Ordered.reset {h : Heights} (hordered : h.Ordered)
    (l : LedgerConfig) : (h.reset l).Ordered := by
  unfold Heights.reset
  split_ifs
  · exact hordered
  · exact ⟨rfl, le_max_right _ _⟩

end Heights

/-! ## Operations -/

structure CommitSide extends Heights where
  commitQueue : Multiset Block
  pending : List Callback
  trace : List Event

namespace CommitSide

def log (e : Event) (c : CommitSide) : CommitSide :=
  { c with trace := e :: c.trace }

def await (cb : Callback) (c : CommitSide) : CommitSide :=
  { c with pending := cb :: c.pending }

/-- An outstanding callback is called with the answer recorded by `e`. -/
def receive (cb : Callback) (e : Event) (c : CommitSide) : CommitSide :=
  { c with pending := c.pending.erase cb, trace := e :: c.trace }

/-- A call to a service that either throws or leaves a callback behind. -/
def call (throws : Option ThrowSite) (site : ThrowSite) (b : Block)
    (e : Event) (cb : Callback) (c : CommitSide) : CommitSide :=
  if throws = some site then (c.log e).log (.exception b site)
  else (c.log e).await cb

def setExecutedBlock (n : ℤ) (c : CommitSide) : CommitSide :=
  { c with toHeights := c.toHeights.setExecutedBlock n }

def enqueue (b : Block) (c : CommitSide) : CommitSide :=
  { c with commitQueue := b ::ₘ c.commitQueue }

/-- The waiting blocks above the chain height. -/
def unexpired (c : CommitSide) : Multiset Block :=
  c.commitQueue.filter fun b => c.blockNumber < b.number

def reset (l : LedgerConfig) (c : CommitSide) : CommitSide :=
  { c with toHeights := c.toHeights.reset l }

/-- A new block: the heights are reset and the expired blocks go. -/
def advance (l : LedgerConfig) (c : CommitSide) : CommitSide :=
  { c.reset l with commitQueue := (c.reset l).unexpired }

def commitBlockState (throws : Option ThrowSite) (b : Block)
    (c : CommitSide) : CommitSide :=
  c.call throws .commitBlock b (.commitBlock b) (.commitBlock b)

def storeTransactions (throws : Option ThrowSite) (b : Block)
    (c : CommitSide) : CommitSide :=
  c.call throws .asyncStoreTransactions b
    (.asyncStoreTransactions b (b.transactions.map Transaction.encodedData)
      (b.transactions.map Transaction.hash))
    (.asyncStoreTransactions b)

def commitBlock (throws : Option ThrowSite) (b : Block) (c : CommitSide) :
    CommitSide :=
  if b.transactionsSize = 0 then
    if throws = some .commitBlock then c.commitBlockState throws b
    else (c.commitBlockState throws b).storeTransactions throws b
  else if throws = some .encodeTransaction then
    c.log (.exception b .encodeTransaction)
  else c.storeTransactions throws b

/-- The ledger config that `commitBlock`'s callback passes on. -/
def completedConfig (b : Block) (l : LedgerConfig) : LedgerConfig :=
  (l.setTxsSize b.transactionsSize).setSealerId b.blockHeader.sealer

/-! ## Transitions -/

/-- One trigger of `tryToCommitBlockToLedger`: the expired blocks go, and if
a block of the next height waits, one such block is sent to the check. -/
inductive TryCommit (throws : Option ThrowSite) (c : CommitSide) :
    CommitSide → Prop
  | idle : (∀ b ∈ c.unexpired, b.number ≠ c.nextBlock) →
      TryCommit throws c { c with commitQueue := c.unexpired }
  | check {b : Block} {rest : Multiset Block} :
      c.unexpired = b ::ₘ rest → b.number = c.nextBlock →
      TryCommit throws c
        ({ c with commitQueue := rest }.call throws .asyncCheckBlock b
          (.asyncCheckBlock b c.nextBlock) (.asyncCheckBlock b))

/-- The download task may start the execution of `b`. -/
structure Expects (c : CommitSide) (b : Block) : Prop where
  number_eq : b.number = c.executedBlock + 1
  executedBlock_lt : c.executedBlock < c.blockNumber + waterMark
  blockNumber_lt : c.blockNumber < b.number

/-- The inputs that may leave the commit side alone: no answers to callbacks,
and no block that is new. -/
def Quiet (c : CommitSide) : Input → Prop
  | .notifyNewBlock l => l.blockNumber ≤ c.blockNumber
  | .executeBlockAnswer .. => False
  | .asyncCheckBlockAnswer .. => False
  | .asyncStoreTransactionsAnswer .. => False
  | .commitBlockAnswer .. => False
  | _ => True

/-- Everything one input can do to the commit side. -/
inductive Step (c : CommitSide) : Input → CommitSide → Prop
  | quiet {i : Input} : c.Quiet i → Step c i c
  | task {rand : ℕ → ℕ → ℕ} {d : CommitSide} : TryCommit none c d →
      Step c (.downloadTask rand) d
  | taskApply {rand : ℕ → ℕ → ℕ} {d : CommitSide} {b : Block} :
      TryCommit none c d → c.Expects b →
      Step c (.downloadTask rand)
        ((d.log (.executeBlock b)).await (.executeBlock b))
  | newBlock {l : LedgerConfig} {d : CommitSide} :
      c.blockNumber < l.blockNumber → TryCommit none (c.advance l) d →
      Step c (.notifyNewBlock l) d
  | executed {b : Block} {header : BlockHeader} {throws : Option ThrowSite}
      {d : CommitSide} :
      .executeBlock b ∈ c.pending → b.hash = header.hash →
      TryCommit throws
        (((c.receive (.executeBlock b)
          (.executeBlockAnswer b (.ok header))).setExecutedBlock
            b.number).enqueue b) d →
      Step c (.executeBlockAnswer b (.ok header) throws) d
  | executeFailed {b : Block} {a : Except Error BlockHeader}
      {throws : Option ThrowSite} :
      .executeBlock b ∈ c.pending →
      (∀ header, a = .ok header → b.hash ≠ header.hash) →
      Step c (.executeBlockAnswer b a throws)
        ((c.receive (.executeBlock b)
          (.executeBlockAnswer b a)).setExecutedBlock c.blockNumber)
  | checked {b : Block} {throws : Option ThrowSite} :
      .asyncCheckBlock b ∈ c.pending →
      Step c (.asyncCheckBlockAnswer b (.ok true) throws)
        ((c.receive (.asyncCheckBlock b)
          (.asyncCheckBlockAnswer b (.ok true))).commitBlock throws b)
  | checkFailed {b : Block} {a : Except Error Bool}
      {throws : Option ThrowSite} :
      .asyncCheckBlock b ∈ c.pending → a ≠ .ok true →
      Step c (.asyncCheckBlockAnswer b a throws)
        ((c.receive (.asyncCheckBlock b)
          (.asyncCheckBlockAnswer b a)).setExecutedBlock (b.number - 1))
  | stored {b : Block} {throws : Option ThrowSite} :
      .asyncStoreTransactions b ∈ c.pending →
      Step c (.asyncStoreTransactionsAnswer b none throws)
        ((c.receive (.asyncStoreTransactions b)
          (.asyncStoreTransactionsAnswer b none)).commitBlockState throws b)
  | storeFailed {b : Block} {e : Error} {throws : Option ThrowSite} :
      .asyncStoreTransactions b ∈ c.pending →
      Step c (.asyncStoreTransactionsAnswer b (some e) throws)
        ((c.receive (.asyncStoreTransactions b)
          (.asyncStoreTransactionsAnswer b (some e))).setExecutedBlock
            (b.number - 1))
  | committed {b : Block} {l : LedgerConfig} {throws : Option ThrowSite}
      {d : CommitSide} :
      .commitBlock b ∈ c.pending → throws ≠ some .newBlockHandler →
      TryCommit throws
        (((c.receive (.commitBlock b) (.commitBlockAnswer b (.ok l))).log
          (.newBlockHandler b (completedConfig b l))).advance
            (completedConfig b l)) d →
      Step c (.commitBlockAnswer b (.ok l) throws) d
  | handlerThrew {b : Block} {l : LedgerConfig} :
      .commitBlock b ∈ c.pending →
      Step c (.commitBlockAnswer b (.ok l) (some .newBlockHandler))
        (((c.receive (.commitBlock b) (.commitBlockAnswer b (.ok l))).log
          (.newBlockHandler b (completedConfig b l))).log
            (.exception b .newBlockHandler))
  | commitFailed {b : Block} {e : Error} {throws : Option ThrowSite} :
      .commitBlock b ∈ c.pending →
      Step c (.commitBlockAnswer b (.error e) throws)
        ((c.receive (.commitBlock b)
          (.commitBlockAnswer b (.error e))).setExecutedBlock (b.number - 1))

/-! ## What keeps the heights -/

@[simp] theorem call_toHeights (throws : Option ThrowSite) (site : ThrowSite)
    (b : Block) (e : Event) (cb : Callback) (c : CommitSide) :
    (c.call throws site b e cb).toHeights = c.toHeights := by
  unfold call
  split_ifs <;> rfl

@[simp] theorem commitBlock_toHeights (throws : Option ThrowSite) (b : Block)
    (c : CommitSide) : (c.commitBlock throws b).toHeights = c.toHeights := by
  unfold commitBlock commitBlockState storeTransactions
  split_ifs <;> simp [log]

theorem TryCommit.toHeights_eq {throws : Option ThrowSite} {c d : CommitSide}
    (h : TryCommit throws c d) : d.toHeights = c.toHeights := by
  cases h with
  | idle => rfl
  | check => simp

/-- The order of the heights is kept by every input, whatever it carries. -/
theorem Step.ordered {c d : CommitSide} {i : Input} (h : Step c i d)
    (hordered : c.Ordered) : d.Ordered := by
  cases h with
  | quiet => exact hordered
  | task htry => rwa [htry.toHeights_eq]
  | taskApply htry => exact htry.toHeights_eq ▸ hordered
  | newBlock _ htry =>
      rw [htry.toHeights_eq]
      exact hordered.reset _
  | executed _ _ htry =>
      rw [htry.toHeights_eq]
      exact hordered.setExecutedBlock _
  | executeFailed => exact hordered.setExecutedBlock _
  | checked =>
      rw [commitBlock_toHeights]
      exact hordered
  | checkFailed => exact hordered.setExecutedBlock _
  | stored =>
      rw [commitBlockState, call_toHeights]
      exact hordered
  | storeFailed => exact hordered.setExecutedBlock _
  | committed _ _ htry =>
      rw [htry.toHeights_eq]
      exact hordered.reset _
  | handlerThrew => exact hordered
  | commitFailed => exact hordered.setExecutedBlock _

/-! ## Blocks in the pipelines -/

/-- An execution of the block is outstanding. -/
def Executing (c : CommitSide) (b : Block) : Prop :=
  .executeBlock b ∈ c.pending

/-- A commit pipeline of the block is outstanding. -/
def Committing (c : CommitSide) (b : Block) : Prop :=
  .asyncCheckBlock b ∈ c.pending ∨ .asyncStoreTransactions b ∈ c.pending ∨
    .commitBlock b ∈ c.pending

end CommitSide

/-! ## The commit side of a node -/

def BlockSyncConfig.heights (c : BlockSyncConfig) : Heights where
  blockNumber := c.blockNumber
  nextBlock := c.nextBlock
  executedBlock := c.executedBlock

/-- The commit side of a node. -/
def BlockSync.commitSide {P : BlockQueue} (s : BlockSync P) : CommitSide where
  toHeights := s.config.heights
  commitQueue := s.commitQueue
  pending := s.pending
  trace := s.trace

end BcosSync
