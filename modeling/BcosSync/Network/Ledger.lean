import BcosSync.Network.Model
import BcosSync.Network.Receiving
import BcosSync.Serving.Answers

/-!
# What every move of a member keeps

The ledger has the blocks up to the chain height of the node, whatever happens
to the member and whoever sends to it; and the chain height never falls.
-/

namespace BcosSync

open BlockSync SyncPeerStatus DownloadRequestQueue

namespace Member

variable {P : BlockQueue} {κ : Type} {D : Deployment κ} {k : κ}
  {m t : Member P}

/-- What every move keeps. -/
structure GoesOn (m t : Member P) : Prop where
  height_le : m.height ≤ t.height
  nodeID : t.sync.config.nodeID = m.sync.config.nodeID
  maxRequestBlocks :
    t.sync.config.maxRequestBlocks = m.sync.config.maxRequestBlocks
  maxShardPerPeer :
    t.sync.config.maxShardPerPeer = m.sync.config.maxShardPerPeer
  confirms : t.Confirms t.height
  wellKept : m.sync.peerSide.WellKept → t.sync.peerSide.WellKept

/-- A node that goes on with the height its ledger has. -/
theorem goesOn_of_advances {i : BlockSync.Input}
    (hadv : m.sync.config.Advances i t.sync.config)
    (hconfirms : ∀ n, n = m.height ∨ CommitSide.ledgerNumber i = some n →
      t.Confirms n)
    (hkept : m.sync.peerSide.WellKept → t.sync.peerSide.WellKept) :
    m.GoesOn t :=
  ⟨hadv.blockNumber_le, hadv.nodeID, hadv.maxRequestBlocks,
    hadv.maxShardPerPeer, hconfirms _ hadv.blockNumber, hkept⟩

theorem goesOn_node {i : BlockSync.Input} (h : m.Confirms m.height)
    (hstep : Member.step D k m (.node i) = some t) : m.GoesOn t := by
  simp only [Member.step] at hstep
  split_ifs at hstep with hvouch
  obtain ⟨sync, hsync, rfl⟩ := Option.map_eq_some_iff.mp hstep
  rw [Member.commit_sync] at hsync
  have hadv := step_advances hsync hvouch.nonNegative h.nonneg
  refine goesOn_of_advances hadv ?_ (step_wellKept hsync)
  intro n hn
  have hrequest : sync.config.maxRequestBlocks =
      (m.commit i).sync.config.maxRequestBlocks := by
    rw [Member.commit_sync]
    exact hadv.maxRequestBlocks
  refine Confirms.setSync ?_ hrequest
  rcases hn with rfl | hledger
  · exact h.commit i
  · exact hvouch.confirms hledger

/-- A pass of the send processor touches the request queues only. -/
theorem goesOn_serve {rand : ℕ → ℕ} {fuel : ℕ} (h : m.Confirms m.height)
    (hstep : Member.step D k m (.serve rand fuel) = some t) :
    m.GoesOn t := by
  obtain ⟨sync, hsync, rfl⟩ := Option.map_eq_some_iff.mp hstep
  have hpass := pass_maintainBlockRequest hsync
  have hconfig : sync.config = m.sync.config :=
    (congrArg BlockSync.config hpass.eq :)
  have hadv : m.sync.config.Advances .downloadTimeout sync.config :=
    hconfig ▸ .refl _ _
  refine goesOn_of_advances hadv ?_ ?_
  · rintro n (rfl | hledger)
    · exact h.setSync hadv.maxRequestBlocks
    · cases hledger
  · intro hkept id p hp
    change p.Filed sync.config.maxDownloadRequestQueueSize id
    rw [hconfig]
    refine hpass.forall ?_ (fun id p hp => (hkept id p hp).1) hkept hkept id p
      hp
    intro id p q hp hq
    refine ⟨hp.1, ?_⟩
    dsimp only
    rw [size_eq_card, hq]
    exact Nat.zero_le _

/-- Bytes that arrive are handled as a message, or not at all. -/
theorem goesOn_receive {src : κ} {addr : ℕ} {packet : PublicPtr × Packet}
    (h : m.Confirms m.height)
    (hstep : Member.step D k m (.receive src addr packet) = some t) :
    m.GoesOn t := by
  simp only [Member.step] at hstep
  split_ifs at hstep
  obtain rfl := Option.some.inj hstep
  rw [notifyData_eq]
  cases received D.codec none (packet.2.encode D.codec) with
  | none => exact ⟨le_rfl, rfl, rfl, rfl, h, id⟩
  | some syncMsg =>
      have hsync : m.sync.step D.createBlock
          (.syncMessage ⟨addr, D.key src⟩ syncMsg) =
            some (m.sync.asyncNotifyBlockSyncMessage ⟨addr, D.key src⟩
              syncMsg) := rfl
      have hadv := step_advances hsync (fun n hn => by cases hn) h.nonneg
      refine goesOn_of_advances hadv ?_ (step_wellKept hsync)
      rintro n (rfl | hledger)
      · exact h.setSync hadv.maxRequestBlocks
      · cases hledger

theorem step_goesOn {i : Input κ} (h : m.Confirms m.height)
    (hstep : Member.step D k m i = some t) : m.GoesOn t := by
  cases i with
  | node i => exact goesOn_node h hstep
  | serve rand fuel => exact goesOn_serve h hstep
  | receive src addr packet => exact goesOn_receive h hstep
  | append block =>
      obtain rfl := Option.some.inj hstep
      exact ⟨le_rfl, rfl, rfl, rfl, h.store _ _, id⟩

end Member

end BcosSync
