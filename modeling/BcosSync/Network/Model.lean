import BcosSync.Commit.Effects
import BcosSync.Node.Wire
import BcosSync.Serving.Model
import BcosSync.Support.MessagePassing

/-!
# A network of sync nodes

Every member of the network is a sync node with the blocks of its ledger.
Members exchange bytes through the front service, which names the sender, and
may lose, delay, reorder and repeat what it carries.

The services of a member answer about its own ledger: a ledger config names a
height up to which the ledger has the blocks, and a block whose commit
succeeds is in the ledger.  Blocks also reach the ledger through the consensus
module.
-/

namespace BcosSync

structure Member (P : BlockQueue) where
  sync : BlockSync P
  blockData : ℤ → Except Error BlockData

/-- What the members share: the block factory and the codecs.  Each of them
has a key of its own. -/
structure Deployment (κ : Type) where
  createBlock : BlockFactory
  encode : BlockData → Option Bytes
  codec : PBCodec
  key : κ → Bytes
  key_injective : Function.Injective key

namespace Member

variable {P : BlockQueue} {κ : Type}

/-- The chain height of the node. -/
def height (m : Member P) : ℤ := m.sync.config.blockNumber

/-- The blocks that the ledger returns and the node encodes. -/
def ledger (D : Deployment κ) (m : Member P) : Ledger where
  blockData := m.blockData
  encode := D.encode

/-- A block is written to the ledger. -/
def store (number : ℤ) (block : BlockData) (m : Member P) : Member P :=
  { m with blockData := Function.update m.blockData number (.ok block) }

/-- The ledger has a block for each height from 0 to `n`. -/
def HoldsUpTo (m : Member P) (n : ℤ) : Prop :=
  ∀ k ∈ List.range (n + 1).toNat, (m.blockData k).isOk = true

instance (m : Member P) (n : ℤ) : Decidable (m.HoldsUpTo n) :=
  inferInstanceAs (Decidable (∀ k ∈ List.range (n + 1).toNat, _))

/-- The ledger may name `n` as its height.  Heights stay so low that a request
behind them does not overflow. -/
structure Confirms (m : Member P) (n : ℤ) : Prop where
  nonneg : 0 ≤ n
  lt : n + m.sync.config.maxRequestBlocks < 2 ^ 63
  holds : m.HoldsUpTo n

instance (m : Member P) (n : ℤ) : Decidable (m.Confirms n) :=
  decidable_of_iff (0 ≤ n ∧ n + m.sync.config.maxRequestBlocks < 2 ^ 63 ∧
      m.HoldsUpTo n)
    ⟨fun h => ⟨h.1, h.2.1, h.2.2⟩, fun h => ⟨h.nonneg, h.lt, h.holds⟩⟩

/-- The member once its services have done what the input reports: a block is
committed. -/
def commit (m : Member P) : BlockSync.Input → Member P
  | .commitBlockAnswer b (.ok _) _ => m.store b.number b.toBlockData
  | _ => m

/-- The ledger config that an input carries, if it carries one, is one of the
ledger. -/
def Vouches (m : Member P) : BlockSync.Input → Prop
  | .notifyNewBlock l => m.Confirms l.blockNumber
  | .commitBlockAnswer _ (.ok l) _ => m.Confirms l.blockNumber
  | _ => True

instance (m : Member P) : ∀ i, Decidable (m.Vouches i)
  | .notifyNewBlock l => inferInstanceAs (Decidable (m.Confirms l.blockNumber))
  | .commitBlockAnswer _ (.ok l) _ =>
      inferInstanceAs (Decidable (m.Confirms l.blockNumber))
  | .commitBlockAnswer _ (.error _) _ => isTrue trivial
  | .downloadTask _ => isTrue trivial
  | .maintainPeersConnection => isTrue trivial
  | .downloadTimeout => isTrue trivial
  | .syncMessage _ _ => isTrue trivial
  | .notifyCommittedIndex _ => isTrue trivial
  | .notifyConnectedNodes _ => isTrue trivial
  | .executeBlockAnswer _ _ _ => isTrue trivial
  | .asyncCheckBlockAnswer _ _ _ => isTrue trivial
  | .asyncStoreTransactionsAnswer _ _ _ => isTrue trivial

/-- What can happen to a member: an input of its node, the task of the send
processor, the arrival of a packet, or a block from the consensus module. -/
inductive Input (κ : Type)
  | node (input : BlockSync.Input)
  | serve (rand : ℕ → ℕ) (fuel : ℕ)
  | receive (src : κ) (addr : ℕ) (packet : PublicPtr × Packet)
  | append (block : BlockData)

/-- A packet arrives if it is for this member.  The front service names the
sender by a pointer of its own to the key. -/
def step (D : Deployment κ) (k : κ) (m : Member P) :
    Input κ → Option (Member P)
  | .node i =>
      let m := m.commit i
      if m.Vouches i then
        (m.sync.step D.createBlock i).map fun sync => { m with sync := sync }
      else none
  | .serve rand fuel =>
      (m.sync.maintainBlockRequest (m.ledger D) rand fuel).map
        fun sync => { m with sync := sync }
  | .receive src addr packet =>
      if packet.1.data = D.key k then
        some { m with
          sync := m.sync.asyncNotifyBlockSyncMessageData D.codec none
            ⟨addr, D.key src⟩ (packet.2.encode D.codec) }
      else none
  | .append block => some (m.store block.blockHeader.number block)

/-- A member right after `init`, over a ledger of the height it was given. -/
structure IsInit (D : Deployment κ) (k : κ) (m : Member P) : Prop where
  isInit : BlockSync.IsInit P m.sync
  nodeID : m.sync.config.nodeID.data = D.key k
  confirms : m.Confirms m.height

end Member

/-- The network as parties that exchange packets. -/
def Deployment.members {κ : Type} (D : Deployment κ) (P : BlockQueue) :
    MessagePassing κ (Member P) (Member.Input κ) (PublicPtr × Packet) where
  IsInit := Member.IsInit D
  step := Member.step D
  sent m := m.sync.outbox
  delivers _
    | .receive src _ packet => some (src, packet)
    | _ => none

/-- The runs of the network. -/
abbrev networkSystem {κ : Type} [DecidableEq κ] (D : Deployment κ)
    (P : BlockQueue) : TransitionSystem (κ → Member P) (κ × Member.Input κ) :=
  (D.members P).network

/-- The members hear of each other only: no message comes from elsewhere. -/
def Genuine {κ : Type} : κ × Member.Input κ → Prop
  | (_, .node i) => ¬ BlockSync.IsMessage i
  | _ => True

namespace Member

variable {P : BlockQueue} {κ : Type} {m : Member P}

theorem HoldsUpTo.exists_block {n k : ℤ} (h : m.HoldsUpTo n) (hnonneg : 0 ≤ k)
    (hle : k ≤ n) : ∃ block, m.blockData k = .ok block := by
  obtain ⟨j, rfl⟩ := Int.eq_ofNat_of_zero_le hnonneg
  have hok := h j (List.mem_range.mpr (by omega))
  cases hblock : m.blockData j with
  | error e =>
      rw [hblock] at hok
      cases hok
  | ok block => exact ⟨block, rfl⟩

theorem HoldsUpTo.not_lacks {D : Deployment κ} {n k : ℤ}
    (h : m.HoldsUpTo n) (hnonneg : 0 ≤ k) (hle : k ≤ n) :
    ¬ (m.ledger D).Lacks k := by
  obtain ⟨block, hblock⟩ := h.exists_block hnonneg hle
  rintro ⟨e, he⟩
  cases hblock.symm.trans he

theorem blockData_store (m : Member P) (number : ℤ) (block : BlockData)
    (n : ℤ) :
    (m.store number block).blockData n =
      if n = number then .ok block else m.blockData n :=
  Function.update_apply _ _ _ _

/-- A block that is written leaves no gap. -/
theorem HoldsUpTo.store {n : ℤ} (h : m.HoldsUpTo n) (number : ℤ)
    (block : BlockData) : (m.store number block).HoldsUpTo n := by
  intro k hk
  rw [blockData_store]
  split
  · rfl
  · exact h k hk

theorem HoldsUpTo.commit {n : ℤ} (h : m.HoldsUpTo n) (i : BlockSync.Input) :
    (m.commit i).HoldsUpTo n := by
  unfold Member.commit
  split
  · exact h.store _ _
  · exact h

theorem Confirms.store {n : ℤ} (h : m.Confirms n) (number : ℤ)
    (block : BlockData) : (m.store number block).Confirms n :=
  ⟨h.nonneg, h.lt, h.holds.store number block⟩

/-- Commits are made by the services, not by the node. -/
@[simp] theorem commit_sync (m : Member P) (i : BlockSync.Input) :
    (m.commit i).sync = m.sync := by
  unfold Member.commit
  split <;> rfl

theorem Confirms.commit {n : ℤ} (h : m.Confirms n) (i : BlockSync.Input) :
    (m.commit i).Confirms n := by
  refine ⟨h.nonneg, ?_, h.holds.commit i⟩
  rw [commit_sync]
  exact h.lt

/-- What a ledger confirms does not depend on the node. -/
theorem Confirms.setSync {n : ℤ} (h : m.Confirms n) {sync : BlockSync P}
    (hsync : sync.config.maxRequestBlocks =
      m.sync.config.maxRequestBlocks) :
    ({ m with sync := sync } : Member P).Confirms n := by
  refine ⟨h.nonneg, ?_, h.holds⟩
  dsimp only
  rw [hsync]
  exact h.lt

theorem Vouches.confirms {i : BlockSync.Input} {n : ℤ} (h : m.Vouches i)
    (hi : CommitSide.ledgerNumber i = some n) : m.Confirms n := by
  match i with
  | .notifyNewBlock l =>
      obtain rfl := Option.some.inj hi
      exact h
  | .commitBlockAnswer _ (.ok l) _ =>
      obtain rfl := Option.some.inj hi
      exact h

theorem Vouches.nonNegative {i : BlockSync.Input} (h : m.Vouches i) :
    CommitSide.NonNegative i :=
  fun _ hn => (h.confirms hn).nonneg

/-- The node of a member takes a step of its own, or makes a pass of the send
processor, or stays. -/
theorem step_sync {D : Deployment κ} {k : κ} {t : Member P}
    {i : Member.Input κ} (hstep : Member.step D k m i = some t) :
    t.sync = m.sync ∨
      (∃ input, m.sync.step D.createBlock input = some t.sync) ∨
      ∃ rand fuel, m.sync.maintainBlockRequest (m.ledger D) rand fuel =
        some t.sync := by
  cases i with
  | node i =>
      simp only [Member.step] at hstep
      split_ifs at hstep
      obtain ⟨sync, hsync, rfl⟩ := Option.map_eq_some_iff.mp hstep
      rw [commit_sync] at hsync
      exact .inr (.inl ⟨i, hsync⟩)
  | serve rand fuel =>
      obtain ⟨sync, hsync, rfl⟩ := Option.map_eq_some_iff.mp hstep
      exact .inr (.inr ⟨rand, fuel, hsync⟩)
  | receive src addr packet =>
      simp only [Member.step] at hstep
      split_ifs at hstep
      obtain rfl := Option.some.inj hstep
      rw [BlockSync.notifyData_eq]
      cases BlockSync.received D.codec none (packet.2.encode D.codec) with
      | none => exact .inl rfl
      | some syncMsg =>
          exact .inr (.inl ⟨.syncMessage ⟨addr, D.key src⟩ syncMsg, rfl⟩)
  | append block =>
      obtain rfl := Option.some.inj hstep
      exact .inl rfl

end Member

/-! ## A network to evaluate -/

namespace Sample

/-- Blocks that `createBlock` decodes are encoded. -/
def encodeBlock (block : BlockData) : Option Bytes :=
  let data : Bytes := [.ofNat block.blockHeader.number.toNat,
    .ofNat block.transactions.length]
  if createBlock data = some block then some data else none

/-- A node with `nodeID` and one with `peer`. -/
def pair : Deployment Bool where
  createBlock := createBlock
  encode := encodeBlock
  codec := proto3
  key k := if k then peer.data else nodeID.data
  key_injective a b := by revert a b; decide

/-- The block of a height, without transactions. -/
def emptyBlock (number : ℤ) : BlockData := ⟨⟨number, HashType.zero, 0⟩, []⟩

/-- A member of the pair with the blocks up to `number`. -/
def member (nodeID : PublicPtr) (number : ℤ) : Member sortedBlockQueue where
  sync :=
    (BlockSync.new sortedBlockQueue { nodeID := nodeID }).init HashType.zero
      (ledgerConfig number)
  blockData n :=
    if 0 ≤ n ∧ n ≤ number then .ok (emptyBlock n)
    else .error ⟨-1, "not found"⟩

/-- The first member at height 0, the second one at height 2. -/
def members (k : Bool) : Member sortedBlockQueue :=
  if k then member peer 2 else member nodeID 0

theorem isInit_members : (networkSystem pair sortedBlockQueue).IsInit
    members := by
  intro k
  cases k with
  | false =>
      refine ⟨.mk { nodeID := nodeID } HashType.zero (ledgerConfig 0)
        ⟨rfl, rfl, rfl, rfl, rfl, rfl, rfl⟩, rfl, ?_⟩
      exact ⟨by decide, by decide, by decide⟩
  | true =>
      refine ⟨.mk { nodeID := peer } HashType.zero (ledgerConfig 2)
        ⟨rfl, rfl, rfl, rfl, rfl, rfl, rfl⟩, rfl, ?_⟩
      exact ⟨by decide, by decide, by decide⟩

/-- The members connect and the second one announces its height.  The first
one asks for its blocks, and the request arrives. -/
def exchange : List (Bool × Member.Input Bool) :=
  [(true, .node (.notifyConnectedNodes [nodeID])),
    (false, .node (.notifyConnectedNodes [peer])),
    (true, .node .maintainPeersConnection),
    (false, .receive true peer.addr
      (nodeID, .status (BlockSync.currentStatus (members true).sync.config))),
    (false, .node task),
    (true, .receive false nodeID.addr (peer, .request 1 2))]

theorem genuine_exchange : ∀ m ∈ exchange, Genuine m := by
  simp [exchange, Genuine, BlockSync.IsMessage, task]

theorem exec_exchange :
    ∃ N, (networkSystem pair sortedBlockQueue).exec members exchange =
        some N ∧
      (peer, .request 1 2) ∈ (N false).sync.outbox ∧
      ∃ p, (N true).sync.syncStatus.lookup nodeID.data = some p ∧
        p.downloadRequests.requests = {DownloadRequest.make 1 2} := by
  have hrun : (((networkSystem pair sortedBlockQueue).exec members
      exchange).any fun N => (peer, .request 1 2) ∈ (N false).sync.outbox ∧
        (((N true).sync.syncStatus.lookup nodeID.data).any fun p =>
          p.downloadRequests.requests = {DownloadRequest.make 1 2}) =
            true) = true := by
    decide
  obtain ⟨N, hN, hsent⟩ := (Option.any_eq_true _ _).mp hrun
  obtain ⟨hrequest, hasked⟩ := of_decide_eq_true hsent
  obtain ⟨p, hp, hqueue⟩ := (Option.any_eq_true _ _).mp hasked
  exact ⟨N, hN, hrequest, p, hp, of_decide_eq_true hqueue⟩

end Sample

end BcosSync
