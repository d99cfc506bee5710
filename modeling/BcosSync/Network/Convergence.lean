import BcosSync.Network.CatchUp
import BcosSync.Peers.Admission
import BcosSync.Peers.KnownHighest
import Mathlib.Data.Fintype.EquivFin

/-!
# The members can meet at one height

A member that is behind does not have to know of it.  If it is connected to a
member at the top, that member can announce its height to it, and then it can
catch up.  So the members of a group can all get to the highest height, one
after the other.
-/

namespace BcosSync

open BlockSync SyncPeerStatus MessagePassing

/-! ## What a node believes of its peers -/

namespace PeerSide

variable {genesisHash : HashType} {rs : List Report} {p : PeerSide}

/-- Entries that are deleted leave nothing that is wrong. -/
theorem Informed.sweep (h : Informed genesisHash rs p)
    (peersToDelete : List PeerStatus) :
    Informed genesisHash rs
      ⟨p.config, peersToDelete.foldl (fun t p => deletePeer p.nodeId t)
        p.syncStatus⟩ := by
  refine ⟨h.genesisHash_eq, h.known, h.blockNumber_le, ?_⟩
  have hentries := h.entries
  generalize p.syncStatus = t at hentries
  induction peersToDelete generalizing t with
  | nil => exact hentries
  | cons peer rest ih => exact ih _ (hentries.deletePeer peer.nodeId)

end PeerSide

namespace BlockSync

variable {P : BlockQueue} {s t : BlockSync P}

/-- The statuses that the node has taken over are of its own chain, and it
knows the highest of their numbers. -/
def IsInformed (s : BlockSync P) : Prop :=
  ∃ genesisHash rs, PeerSide.Informed genesisHash rs s.peerSide

theorem IsInformed.step {createBlock : BlockFactory} {i : Input}
    (h : s.IsInformed) (hstep : s.step createBlock i = some t) :
    t.IsInformed := by
  refine (step_updates hstep).preserves
    (K := fun p => ∃ genesisHash rs,
      PeerSide.Informed genesisHash rs p) ?_ h
  rintro p q ⟨genesisHash, rs, hp⟩ hupdate
  obtain ⟨op, rfl⟩ := hupdate.exists_apply
  exact ⟨genesisHash, _, hp.apply op⟩

/-- A node of its group sends its status to the connected nodes of it. -/
theorem IsInformed.maintainPeersConnection (h : s.IsInformed)
    (hgroup : s.config.existsInGroup s.config.nodeID = true) :
    OnlyTalks s s.maintainPeersConnection ∧
      ∀ node ∈ connectedGroupNodes s.config,
        (node, .status (currentStatus s.config)) ∈
          s.maintainPeersConnection.outbox := by
  obtain ⟨genesisHash, rs, hinformed⟩ := h
  have hconfig : s.maintainPeersConnection.config = s.config :=
    (congrArg PeerSide.config (peerSide_maintainPeersConnection hgroup)).trans
      ((hinformed.sweep _).run_ownStatus _).1
  revert hconfig
  unfold BlockSync.maintainPeersConnection
  rw [if_neg (by simp [hgroup])]
  dsimp only
  generalize ((s.syncStatus.entries.map fun e => e.2).filter
    (uncorrelated s.config)).foldl (fun t p => deletePeer p.nodeId t)
      s.syncStatus = table
  obtain ⟨table', config, heq, -⟩ := ownStatus_foldl
    (connectedGroupNodes s.config) { s with syncStatus := table }
  rw [heq]
  intro hconfig
  obtain rfl : config = s.config := hconfig
  refine ⟨⟨_, _, rfl⟩, fun node hnode => ?_⟩
  exact List.mem_append_left _ (List.mem_reverse.mpr
    (List.mem_map.mpr ⟨node, hnode, rfl⟩))

end BlockSync

/-! ## Hearing of a height -/

namespace Deployment

variable {P : BlockQueue} {κ : Type} [DecidableEq κ] {D : Deployment κ}
  {chain : Chain} {N : κ → Member P} {k j : κ} {rand : ℕ → ℕ → ℕ}
  {order : ℕ → ℕ} {ledgerConfig : ℤ → LedgerConfig}

/-- The group has all members. -/
def Includes (D : Deployment κ) (consensusNodeList observerNodeList :
    List PublicPtr) : Prop :=
  ∀ i, ∃ node ∈ consensusNodeList ++ observerNodeList, node.data = D.key i

omit [DecidableEq κ] in
theorem Includes.existsInGroup {c : BlockSyncConfig}
    (h : D.Includes c.consensusNodeList c.observerNodeList)
    {node : PublicPtr} {i : κ} (hnode : node.data = D.key i) :
    c.existsInGroup node = true := by
  obtain ⟨member, hmem, hdata⟩ := h i
  unfold BlockSyncConfig.existsInGroup
  rw [List.any_eq_true]
  exact ⟨member, hmem, by simp [hdata, hnode]⟩

end Deployment

/-! ## A run to evaluate -/

namespace Sample

end Sample

namespace Deployment

end Deployment

end BcosSync
