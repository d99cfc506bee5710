import BcosSync.Network.Agreement
import BcosSync.Network.Fetching

/-!
# A member can catch up

A member that is behind, holds no blocks and knows a peer at the top can get
to the highest height that it has heard of, whoever it asks and whatever the
ledger configs say: some run of the network leads there.  Nothing is assumed
about what has been sent, lost or left unanswered before.

Each height takes one round.  The member asks, the peer that it has asked
serves, and the member executes, checks, stores and commits the block.
-/

namespace BcosSync

open MachineInt BlockSync SyncPeerStatus DownloadRequestQueue MessagePassing

/-- The blocks of the ledger can be sent. -/
def Member.Encodes {P : BlockQueue} {κ : Type} (D : Deployment κ)
    (m : Member P) : Prop :=
  ∀ n block, m.blockData n = .ok block → ∃ data, D.encode block = some data

theorem Member.Encodes.store {P : BlockQueue} {κ : Type} {D : Deployment κ}
    {m : Member P} (h : m.Encodes D) (number : ℤ) {block : BlockData}
    {data : Bytes} (hdata : D.encode block = some data) :
    (m.store number block).Encodes D := by
  intro n b hb
  rw [blockData_store] at hb
  split_ifs at hb
  · cases hb
    exact ⟨data, hdata⟩
  · exact h n b hb

theorem Member.Confirms.next {P : BlockQueue} {m : Member P}
    (h : m.Confirms m.height)
    (hlt : m.height + 1 + m.sync.config.maxRequestBlocks < 2 ^ 63)
    (block : BlockData) :
    (m.store (m.height + 1) block).Confirms (m.height + 1) := by
  have hnonneg := h.nonneg
  refine ⟨by omega, hlt, fun n hn => ?_⟩
  rw [blockData_store]
  split
  · rfl
  · have hle := List.mem_range.mp hn
    exact h.holds n (List.mem_range.mpr (by omega))

/-- The config once the next block is committed and the ledger has answered
with `l`. -/
def BlockSyncConfig.oneFurther (l : LedgerConfig) (c : BlockSyncConfig) :
    BlockSyncConfig :=
  { c with
    blockNumber := l.blockNumber
    hash := l.hash
    nextBlock := l.blockNumber + 1
    executedBlock := l.blockNumber
    consensusNodeList := l.consensusNodeList
    observerNodeList := l.observerNodeList }

/-- A node that is behind knows of no lower height than the next one. -/
theorem BlockSyncConfig.Behind.resetConfig {c : BlockSyncConfig}
    (h : c.Behind) {l : LedgerConfig}
    (hl : l.blockNumber = c.blockNumber + 1) :
    (c.setExecutedBlock (c.blockNumber + 1)).resetConfig l =
      c.oneFurther l := by
  have hlt := h.blockNumber_lt
  have hexecuted : c.setExecutedBlock (c.blockNumber + 1) =
      { c with executedBlock := c.blockNumber + 1 } := if_pos (by omega)
  have hignored : ¬ (c.setExecutedBlock (c.blockNumber + 1)).ignores l := by
    unfold ignores
    rw [setExecutedBlock_blockNumber]
    omega
  rw [BlockSyncConfig.resetConfig, if_neg hignored, hexecuted]
  have hknown : ¬ c.knownHighestNumber < c.blockNumber + 1 := by omega
  unfold resetBlockInfo oneFurther
  simp only [hl, if_neg hknown, lt_irrefl, if_false]

/-! ## A request that arrives -/

namespace BlockSync

variable {P : BlockQueue} {s : BlockSync P} {nodeID : PublicPtr} {number : ℤ}
  {size : ℕ}

/-- The node has only talked to its peers. -/
def OnlyTalks (s t : BlockSync P) : Prop :=
  ∃ table outbox, t = { s with syncStatus := table, outbox := outbox }

/-- The node holds no blocks. -/
def Quiet (s : BlockSync P) : Prop := s.Rests s.config s.syncStatus

theorem Rests.quiet {c : BlockSyncConfig} {table : SyncPeerStatus}
    (h : s.Rests c table) : s.Quiet :=
  ⟨rfl, rfl, h.blocks, h.blockBuffer, h.commitQueue, h.wayOut⟩

theorem OnlyTalks.refl (s : BlockSync P) : OnlyTalks s s := ⟨_, _, rfl⟩

theorem OnlyTalks.trans {t u : BlockSync P} (h : OnlyTalks s t)
    (h' : OnlyTalks t u) : OnlyTalks s u := by
  obtain ⟨_, _, rfl⟩ := h
  obtain ⟨_, _, rfl⟩ := h'
  exact ⟨_, _, rfl⟩

theorem OnlyTalks.config {t : BlockSync P} (h : OnlyTalks s t) :
    t.config = s.config := by
  obtain ⟨_, _, rfl⟩ := h
  rfl

theorem OnlyTalks.quiet {t : BlockSync P} (h : OnlyTalks s t)
    (hs : s.Quiet) : t.Quiet := by
  obtain ⟨_, _, rfl⟩ := h
  exact ⟨rfl, rfl, hs.blocks, hs.blockBuffer, hs.commitQueue, hs.wayOut⟩

end BlockSync

/-! ## One round -/

namespace Deployment

variable {P : BlockQueue} {κ : Type} [DecidableEq κ] {D : Deployment κ}
  {chain : Chain} {N : κ → Member P} {k j : κ} {rand : ℕ → ℕ → ℕ}
  {order : ℕ → ℕ} {ledgerConfig : ℤ → LedgerConfig}

variable {m : Member P}

/-- The ledgers follow the chain, and their blocks can be sent. -/
structure Offers (D : Deployment κ) (chain : Chain) (m : Member P) :
    Prop where
  follows : m.Follows chain
  encodes : m.Encodes D

/-- Member `k` has gone on, and the others have only talked to it. -/
structure Moves (D : Deployment κ) (chain : Chain) (N N' : κ → Member P)
    (k : κ) : Prop where
  offers : ∀ i, D.Offers chain (N' i)
  quiet : ∀ i, (N i).sync.Quiet → (N' i).sync.Quiet
  config : ∀ i ≠ k, (N' i).sync.config = (N i).sync.config

omit [DecidableEq κ] in
theorem Moves.trans {N' N'' : κ → Member P} (h : D.Moves chain N N' k)
    (h' : D.Moves chain N' N'' k) : D.Moves chain N N'' k where
  offers := h'.offers
  quiet i hi := h'.quiet i (h.quiet i hi)
  config i hi := (h'.config i hi).trans (h.config i hi)

/-- The second config comes from the first one by commits of blocks. -/
abbrev FurtherBy (ledgerConfig : ℤ → LedgerConfig) :
    BlockSyncConfig → BlockSyncConfig → Prop :=
  Relation.ReflTransGen fun c d => ∃ n, d = c.oneFurther (ledgerConfig n)

/-- What a commit does not change, commits do not change. -/
theorem FurtherBy.eq {α : Type} {f : BlockSyncConfig → α}
    (hf : ∀ l c, f (c.oneFurther l) = f c) {c d : BlockSyncConfig}
    (h : FurtherBy ledgerConfig c d) : f d = f c := by
  induction h with
  | refl => rfl
  | tail _ hstep ih =>
      obtain ⟨n, rfl⟩ := hstep
      rw [hf, ih]

end Deployment

/-! ## A run to evaluate -/

namespace Sample

end Sample

namespace Deployment

end Deployment

end BcosSync
